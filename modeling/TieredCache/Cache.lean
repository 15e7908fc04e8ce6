import TieredCache.Config
import TieredCache.Coverage
import TieredCache.LocalCopies
import TieredCache.Metrics
import TieredCache.Shard
import TieredCache.Shard.Selector

/-!
# Caches

A cache routes every key to one of its shards by the key's group code and keeps, apart from them, the
ranges that are certified to be complete. A point lookup that finds nothing inside a certified range
leaves a tombstone there. A scan answers only for a certified range, shard after shard. Writes of a
refused kind or type change nothing but the count of refusals, and a key without a group code is
never cached.
-/

namespace TieredCache

/-- The number of shards of a cache. -/
def shardCount : Nat :=
  10

/-- Shards and certified ranges, with the settings and the counters of the cache. -/
structure Cache (κ : Type) [Key κ] where
  elementType : TypeTag
  config : Config
  shards : Vector (Shard κ) shardCount
  coverage : Coverage κ
  metrics : Metrics

namespace Cache

variable {κ : Type} [Key κ]

/-- The choice of a shard. -/
abbrev selector : ShardSelector :=
  ⟨shardCount, by decide⟩

/-- A cache without entries for entities of a type, unless its configuration is refused. -/
def create (elementType : TypeTag) (config : Config) : Except ConfigFault (Cache κ) := do
  config.validate
  return {
    elementType := elementType
    config := config
    shards := .replicate shardCount (.empty config.ttl)
    coverage := .empty config.canonical config.ttl
    metrics := .zero }

/-- Counts an event. -/
def record (c : Cache κ) (e : Event) : Cache κ :=
  { c with metrics := c.metrics.record e }

/-- The number of holders, lapsed ones that no sweep has met included. -/
def size (c : Cache κ) : Nat :=
  (c.shards.toList.map Shard.size).foldr (· + ·) 0

/-- Whether no shard holds anything. -/
def isEmpty (c : Cache κ) : Bool :=
  c.shards.all Shard.isEmpty

/-- The counters with the present sizes. -/
def snapshot (c : Cache κ) : Snapshot :=
  c.metrics.snapshot c.size c.coverage.size

/-- The shard at a place. -/
def shard (c : Cache κ) (i : Fin shardCount) : Shard κ :=
  c.shards.get i

/-- The cache with another shard at one place. -/
def setShard (c : Cache κ) (i : Fin shardCount) (s : Shard κ) : Cache κ :=
  { c with shards := c.shards.set i s }

/-! ## Visits to every shard -/

/-- Lets each shard in turn act and change the registry. -/
def visit {β : Type} (f : Shard κ → Registry κ → β × Shard κ × Registry κ) :
    List (Shard κ) → Registry κ → List β × List (Shard κ) × Registry κ
  | [], reg => ([], [], reg)
  | s :: rest, reg =>
    let (answer, s, reg) := f s reg
    let (answers, rest, reg) := visit f rest reg
    (answer :: answers, s :: rest, reg)

theorem length_visit {β : Type} (f : Shard κ → Registry κ → β × Shard κ × Registry κ)
    (shards : List (Shard κ)) (reg : Registry κ) :
    (visit f shards reg).2.1.length = shards.length := by
  induction shards generalizing reg with
  | nil => rfl
  | cons s rest ih => simp [visit, ih]

/-- Lets each shard of the cache in turn act and change the registry. -/
def visitShards {β : Type} (c : Cache κ) (reg : Registry κ)
    (f : Shard κ → Registry κ → β × Shard κ × Registry κ) : List β × Cache κ × Registry κ :=
  let visited := visit f c.shards.toList reg
  (visited.1, { c with shards := ⟨visited.2.1.toArray, by simp [visited, length_visit]⟩ }, visited.2.2)

/-! ## Lookups -/

/-- The holder of a key. Where there is none but the key is certified, a tombstone is left. -/
def get (c : Cache κ) (reg : Registry κ) (now : Nat) (k : κ) :
    Option (Holder κ) × Cache κ × Registry κ :=
  match selector.ofKey k with
  | none => (none, c.record .getMiss, reg)
  | some i =>
    let (known, coverage) := c.coverage.covers now k false
    let (found, shard, reg) := (c.shard i).get reg now k known
    let c := { c with coverage := coverage }.setShard i shard
    match found with
    | none => (none, c.record .getMiss, reg)
    | some h => (some h, c.record (.getHit (reg.isTombstone h)), reg)

/-- The holders under `p`, or `none` unless the range is certified. The certification is refreshed.
Shards follow one another, and in each the permanent holders come before the expiring ones. -/
def getAll (c : Cache κ) (reg : Registry κ) (now : Nat) (p : κ) :
    Option (List (Holder κ)) × Cache κ × Registry κ :=
  let (certified, coverage) := c.coverage.covers now p true
  let c := { c with coverage := coverage }.record (.getAll certified)
  if certified then
    let (runs, c, reg) := c.visitShards reg fun s reg => s.getAll reg now p c.config.canonical
    (some runs.flatten, c, reg)
  else (none, c, reg)

/-- Certifies that everything under `p` is cached; whether that was not certified before. -/
def certify (c : Cache κ) (now : Nat) (p : κ) : Bool × Cache κ :=
  let (added, coverage) := c.coverage.add now p
  let c := { c with coverage := coverage }
  (added, if added then c.record .certification else c)

/-- The holder of a key; where there is none, a tombstone is left. -/
def getOrTombstone (c : Cache κ) (reg : Registry κ) (now : Nat) (k : κ) :
    Option (Holder κ) × Cache κ × Registry κ :=
  match selector.ofKey k with
  | none => (none, c, reg)
  | some i =>
    let (found, shard, reg) := (c.shard i).get reg now k true
    (found, c.setShard i shard, reg)

/-! ## Writes -/

/-- Why a write is refused before it reaches a shard: an expiring write to a canonical cache, then an
entity of a type that is not admitted. -/
def refusal? (c : Cache κ) (value : Entity κ) (expiring : Bool) : Option WriteFault :=
  if expiring && c.config.canonical then some .expiringOnCanonical
  else if c.elementType.admits value.tag then none
  else some (.typeMismatch c.elementType value.tag)

/-- Counts a refused write, or counts and passes on an accepted one to the shard of the value's key;
the answer is `none` for a key that is never cached. -/
def write (c : Cache κ) (reg : Registry κ) (value : Entity κ) (expiring : Bool) (event : Event)
    (put : Shard κ → Except InvariantFault (Holder κ) × Shard κ × Registry κ) :
    Except WriteFault (Option (Holder κ)) × Cache κ × Registry κ :=
  match c.refusal? value expiring with
  | some fault => (.error fault, c.record .rejectedWrite, reg)
  | none =>
    match selector.ofKey value.key with
    | none => (.ok none, c, reg)
    | some i =>
      let (result, shard, reg) := put (c.shard i)
      ((result.map some).mapError .invariant, (c.record event).setShard i shard, reg)

/-- Caches a value that was loaded: a present holder keeps what it carries. -/
def recordFetch (c : Cache κ) (reg : Registry κ) (now : Nat) (value : Entity κ) (expiring : Bool) :
    Except WriteFault (Option (Holder κ)) × Cache κ × Registry κ :=
  c.write reg value expiring .fetchWrite fun s => s.recordFetch reg now value.key value expiring

/-- Caches a value that was written: a present holder takes it. -/
def recordStore (c : Cache κ) (reg : Registry κ) (now : Nat) (value : Entity κ) (expiring : Bool) :
    Except WriteFault (Option (Holder κ)) × Cache κ × Registry κ :=
  c.write reg value expiring .storeWrite fun s => s.recordStore reg now value.key value expiring

/-- Records a deletion: the holder of the value's key becomes an expiring tombstone. -/
def recordDelete (c : Cache κ) (reg : Registry κ) (now : Nat) (value : Entity κ) :
    Except WriteFault (Option (Holder κ)) × Cache κ × Registry κ :=
  c.write reg value false .deleteWrite fun s => s.recordDelete reg now value.key

/-- Takes the holder of a key out. -/
def invalidate (c : Cache κ) (reg : Registry κ) (k : κ) :
    Option (Holder κ) × Cache κ × Registry κ :=
  match selector.ofKey k with
  | none => (none, c, reg)
  | some i =>
    let (found, shard, reg) := (c.shard i).invalidate reg k
    let c := c.setShard i shard
    (found, if found.isSome then c.record .invalidation else c, reg)

/-- Takes every lapsed holder out, and answers how many. -/
def purge (c : Cache κ) (reg : Registry κ) (now : Nat) : Nat × Cache κ × Registry κ :=
  let (counts, c, reg) := c.visitShards reg fun s reg => s.expire reg now
  let removed := counts.foldr (· + ·) 0
  (removed, c.record (.purge removed), reg)

/-! ## Reads through local copies -/

/-- The local copy of a key, or the value that a lookup finds, which is then kept as local copy. -/
def read (c : Cache κ) (reg : Registry κ) (now : Nat) (copies : LocalCopies κ) (k : κ) :
    Option (Entity κ) × LocalCopies κ × Cache κ × Registry κ :=
  match copies.get? k with
  | some copy => (some copy, copies, c, reg)
  | none =>
    let (found, c, reg) := c.get reg now k
    match found.bind reg.value? with
    | none => (none, copies, c, reg)
    | some value => (some value, copies.put value, c, reg)

/-! ## Inspection -/

/-- Whether every shard is sound. -/
def isSound (c : Cache κ) (reg : Registry κ) : Bool :=
  c.shards.all (·.isSound reg)

/-- Type, settings and sizes of the cache in text. -/
def text (c : Cache κ) : String :=
  "Cache \x7b element_type: " ++ c.elementType.text ++ ", ttl: " ++ c.config.ttl.text
    ++ ", canonical: " ++ toString c.config.canonical ++ ", len: " ++ toString c.size
    ++ ", prefix_count: " ++ toString c.coverage.size ++ " \x7d"

end Cache

end TieredCache
