import TieredCache.Arena
import TieredCache.Binary64
import TieredCache.Cache
import TieredCache.Clock
import TieredCache.Clock.Shared
import TieredCache.Config
import TieredCache.Config.Json
import TieredCache.Coverage
import TieredCache.Coverage.Aging
import TieredCache.Coverage.Lifetime
import TieredCache.Coverage.Permanent
import TieredCache.Duration
import TieredCache.Duration.Text
import TieredCache.Entity
import TieredCache.Fault
import TieredCache.Holder
import TieredCache.Json
import TieredCache.Json.Token
import TieredCache.Key
import TieredCache.Key.Account
import TieredCache.Key.Gated
import TieredCache.Key.Path
import TieredCache.Key.Sequence
import TieredCache.Key.Text
import TieredCache.LocalCopies
import TieredCache.Metrics
import TieredCache.Metrics.Counter
import TieredCache.Metrics.Exposition
import TieredCache.OrderedMap
import TieredCache.Proofs.Arena
import TieredCache.Proofs.Arena.Bookkeeping
import TieredCache.Proofs.Arena.Issued
import TieredCache.Proofs.Arena.Run
import TieredCache.Proofs.Binary64
import TieredCache.Proofs.Binary64.Order
import TieredCache.Proofs.Cache.Accounts
import TieredCache.Proofs.Cache.Alike
import TieredCache.Proofs.Cache.Canonical
import TieredCache.Proofs.Cache.Certified
import TieredCache.Proofs.Cache.Faultless
import TieredCache.Proofs.Cache.KnownAbsence
import TieredCache.Proofs.Cache.Lasting
import TieredCache.Proofs.Cache.Lookups
import TieredCache.Proofs.Cache.Membership
import TieredCache.Proofs.Cache.OneInstant
import TieredCache.Proofs.Cache.OneShard
import TieredCache.Proofs.Cache.Operations
import TieredCache.Proofs.Cache.OptedOut
import TieredCache.Proofs.Cache.Permanence
import TieredCache.Proofs.Cache.Pinned
import TieredCache.Proofs.Cache.Provenance
import TieredCache.Proofs.Cache.Purged
import TieredCache.Proofs.Cache.Refused
import TieredCache.Proofs.Cache.Reports
import TieredCache.Proofs.Cache.Retired
import TieredCache.Proofs.Cache.Run
import TieredCache.Proofs.Cache.Scans
import TieredCache.Proofs.Cache.Sound
import TieredCache.Proofs.Cache.Stored
import TieredCache.Proofs.Cache.Unsharded
import TieredCache.Proofs.Cache.Vouched
import TieredCache.Proofs.Cache.WholeRanges
import TieredCache.Proofs.Clock
import TieredCache.Proofs.Coverage
import TieredCache.Proofs.Coverage.Aging
import TieredCache.Proofs.Coverage.Apart
import TieredCache.Proofs.Coverage.Floor
import TieredCache.Proofs.Coverage.Ledger
import TieredCache.Proofs.Coverage.Lifetime
import TieredCache.Proofs.Coverage.Minimal
import TieredCache.Proofs.Coverage.Permanent
import TieredCache.Proofs.Coverage.Size
import TieredCache.Proofs.Holder
import TieredCache.Proofs.Key
import TieredCache.Proofs.Metrics
import TieredCache.Proofs.Metrics.Exposition
import TieredCache.Proofs.Metrics.Sink
import TieredCache.Proofs.OrderedMap
import TieredCache.Proofs.OrderedMap.Walks
import TieredCache.Proofs.Ring.Driven
import TieredCache.Proofs.Ring.Fleet
import TieredCache.Proofs.Ring.Handles
import TieredCache.Proofs.Ring.Index
import TieredCache.Proofs.Ring.Issued
import TieredCache.Proofs.Ring.Links
import TieredCache.Proofs.Ring.Operations
import TieredCache.Proofs.Ring.Recents
import TieredCache.Proofs.Ring.Round
import TieredCache.Proofs.Ring.Run
import TieredCache.Proofs.Ring.Surgery
import TieredCache.Proofs.Ring.Sweeps
import TieredCache.Proofs.Shard.Blank
import TieredCache.Proofs.Shard.Carried
import TieredCache.Proofs.Shard.Flat
import TieredCache.Proofs.Shard.Moves
import TieredCache.Proofs.Shard.Operations
import TieredCache.Proofs.Shard.Retired
import TieredCache.Proofs.Shard.Seats
import TieredCache.Proofs.Shard.Sweeps
import TieredCache.Proofs.Store.Expiring
import TieredCache.Proofs.Store.Lockstep
import TieredCache.Proofs.Store.Run
import TieredCache.Proofs.Store.Stamped
import TieredCache.RecencyRing
import TieredCache.Shard
import TieredCache.Shard.Selector
import TieredCache.Store.Expiring
import TieredCache.Store.Permanent
import TieredCache.Text.Quoted
import TieredCache.Text.Unprintable
import TieredCache.TypeTag
