import TieredCache.Binary64
import TieredCache.Metrics.Counter

/-!
# Metrics

What a cache counts. Every operation reports an event, and an event moves the counters it concerns. A
snapshot puts the counters beside the sizes of the cache and of its certified ranges.
-/

namespace TieredCache

/-- What an operation reports. -/
inductive Event where
  | getHit (tombstone : Bool)
  | getMiss
  | getAll (certified : Bool)
  | certification
  | fetchWrite
  | storeWrite
  | deleteWrite
  | rejectedWrite
  | invalidation
  | purge (count : Nat)

/-- The counters of a cache. -/
structure Metrics where
  getCalls : Counter
  getHits : Counter
  getMisses : Counter
  tombstoneHits : Counter
  getAllCalls : Counter
  getAllCertified : Counter
  getAllUncertified : Counter
  certifications : Counter
  fetchWrites : Counter
  storeWrites : Counter
  deleteWrites : Counter
  rejectedWrites : Counter
  invalidations : Counter
  purgedEntries : Counter
  deriving DecidableEq

/-- The counters of a cache with its sizes at one moment. -/
structure Snapshot where
  metrics : Metrics
  cacheSize : Nat
  coverageSize : Nat
  deriving DecidableEq

namespace Metrics

/-- No event yet. -/
def zero : Metrics where
  getCalls := .zero
  getHits := .zero
  getMisses := .zero
  tombstoneHits := .zero
  getAllCalls := .zero
  getAllCertified := .zero
  getAllUncertified := .zero
  certifications := .zero
  fetchWrites := .zero
  storeWrites := .zero
  deleteWrites := .zero
  rejectedWrites := .zero
  invalidations := .zero
  purgedEntries := .zero

/-- Forgets every event. -/
def reset (_m : Metrics) : Metrics :=
  zero

/-- Moves the counters that an event concerns. -/
def record (m : Metrics) : Event → Metrics
  | .getHit tombstone =>
    { m with
      getCalls := m.getCalls.increment
      getHits := m.getHits.increment
      tombstoneHits := if tombstone then m.tombstoneHits.increment else m.tombstoneHits }
  | .getMiss => { m with getCalls := m.getCalls.increment, getMisses := m.getMisses.increment }
  | .getAll true =>
    { m with
      getAllCalls := m.getAllCalls.increment
      getAllCertified := m.getAllCertified.increment }
  | .getAll false =>
    { m with
      getAllCalls := m.getAllCalls.increment
      getAllUncertified := m.getAllUncertified.increment }
  | .certification => { m with certifications := m.certifications.increment }
  | .fetchWrite => { m with fetchWrites := m.fetchWrites.increment }
  | .storeWrite => { m with storeWrites := m.storeWrites.increment }
  | .deleteWrite => { m with deleteWrites := m.deleteWrites.increment }
  | .rejectedWrite => { m with rejectedWrites := m.rejectedWrites.increment }
  | .invalidation => { m with invalidations := m.invalidations.increment }
  | .purge count => { m with purgedEntries := m.purgedEntries.add (UInt64.ofNat count) }

/-- The counters beside two sizes. -/
def snapshot (m : Metrics) (cacheSize coverageSize : Nat) : Snapshot :=
  ⟨m, cacheSize, coverageSize⟩

end Metrics

namespace Snapshot

/-- The share of point lookups that found a holder, as a number of 53 binary digits; zero before the
first lookup. -/
def hitRatio (s : Snapshot) : Rat :=
  let count (c : Counter) : Rat := Binary64.round c.value.toNat
  if s.metrics.getCalls.value = 0 then 0
  else Binary64.round (count s.metrics.getHits / count s.metrics.getCalls)

end Snapshot

end TieredCache
