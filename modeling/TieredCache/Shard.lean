import TieredCache.Fault
import TieredCache.Store.Expiring
import TieredCache.Store.Permanent

/-!
# Shards

A shard owns a permanent and an expiring tier and moves holders between them. A lookup tries the
permanent tier, then the expiring one, and on request leaves a tombstone where it finds nothing.
Writes sweep the expiring tier first, so a lapsed holder counts as absent.

| write  | absent key                | present holder                           |
|--------|---------------------------|------------------------------------------|
| fetch  | created in the asked tier | keeps its value, moves to the asked tier |
| store  | created in the asked tier | takes the value, moves to the asked tier |
| delete | expiring tombstone        | loses its value, becomes expiring        |

A tombstone never leaves the expiring tier.
-/

namespace TieredCache

/-- The two tiers of a shard. -/
structure Shard (κ : Type) [Key κ] where
  permanent : PermanentStore κ
  expiring : ExpiringStore κ

namespace Shard

variable {κ : Type} [Key κ]

/-- The shard without holders. -/
def empty (ttl : Duration) : Shard κ :=
  ⟨.empty, .empty ttl⟩

/-- The number of holders, lapsed ones that no sweep has met included. -/
def size (s : Shard κ) : Nat :=
  s.permanent.size + s.expiring.size

/-- Whether the shard holds nothing. -/
def isEmpty (s : Shard κ) : Bool :=
  s.size == 0

/-- The holder of a key in either tier, without a sweep or a refresh. -/
def peek? (s : Shard κ) (k : κ) : Option (Holder κ) :=
  (s.permanent.get? k).or (s.expiring.peek? k)

/-- Indexes a fresh holder in the asked tier. -/
def create (s : Shard κ) (reg : Registry κ) (now : Nat) (k : κ) (value : Option (Entity κ))
    (expiring : Bool) : Holder κ × Shard κ × Registry κ :=
  let (h, reg) := reg.issue k value
  if expiring then
    let (store, reg) := s.expiring.insert reg now h
    (h, { s with expiring := store }, reg)
  else
    let (store, reg) := s.permanent.insert reg h
    (h, { s with permanent := store }, reg)

/-- Moves a holder to the asked tier, a tombstone always to the expiring one. A holder that stays in
the expiring tier is refreshed. -/
def align (s : Shard κ) (reg : Registry κ) (now : Nat) (h : Holder κ) (expiring : Bool) :
    Except InvariantFault (Shard κ × Registry κ) :=
  match reg.placement h, expiring || reg.isTombstone h with
  | .uncached, _ => .error (.uncachedHolder h.key)
  | .permanent, false => .ok (s, reg)
  | .expiring, true => .ok ({ s with expiring := (s.expiring.touch now h.key).2 }, reg)
  | .permanent, true =>
    let (_, permanent, reg) := s.permanent.remove reg h.key
    let (expiring, reg) := s.expiring.insert reg now h
    .ok (⟨permanent, expiring⟩, reg)
  | .expiring, false =>
    let (_, expiring, reg) := s.expiring.remove reg h.key
    let (permanent, reg) := s.permanent.insert reg h
    .ok (⟨permanent, expiring⟩, reg)

/-- Takes lapsed holders out of the expiring tier, and answers how many. -/
def expire (s : Shard κ) (reg : Registry κ) (now : Nat) : Nat × Shard κ × Registry κ :=
  let (count, store, reg) := s.expiring.expire reg now
  (count, { s with expiring := store }, reg)

/-- Finds the holder of a key; where there is none and `negative` is set, leaves a tombstone. -/
def get (s : Shard κ) (reg : Registry κ) (now : Nat) (k : κ) (negative : Bool) :
    Option (Holder κ) × Shard κ × Registry κ :=
  match s.permanent.get? k with
  | some h => (some h, s, reg)
  | none =>
    let (found, store, reg) := s.expiring.get reg now k
    let s := { s with expiring := store }
    match found with
    | some h => (some h, s, reg)
    | none =>
      if negative then
        let (h, s, reg) := s.create reg now k none true
        (some h, s, reg)
      else (none, s, reg)

/-- Finds the holders of the keys that `p` covers: the permanent ones in the order of their keys,
then, unless the scan is canonical, the expiring ones in that order. -/
def getAll (s : Shard κ) (reg : Registry κ) (now : Nat) (p : κ) (canonical : Bool) :
    List (Holder κ) × Shard κ × Registry κ :=
  let permanent := s.permanent.under p
  if canonical then (permanent, s, reg)
  else
    let (expiring, store, reg) := s.expiring.getAll reg now p
    (permanent ++ expiring, { s with expiring := store }, reg)

/-- Sweeps, then creates a holder with a value where the key has none. A present holder takes the
value if it is to be overwritten, and moves to the asked tier. -/
def write (s : Shard κ) (reg : Registry κ) (now : Nat) (k : κ) (value : Option (Entity κ))
    (expiring overwrite : Bool) :
    Except InvariantFault (Holder κ) × Shard κ × Registry κ :=
  let (_, s, reg) := s.expire reg now
  match s.peek? k with
  | none =>
    let (h, s, reg) := s.create reg now k value expiring
    (.ok h, s, reg)
  | some h =>
    let reg := if overwrite then reg.setValue h value else reg
    match s.align reg now h expiring with
    | .error fault => (.error fault, s, reg)
    | .ok (s, reg) => (.ok h, s, reg)

/-- Caches a value that was loaded: a present holder keeps what it carries. -/
def recordFetch (s : Shard κ) (reg : Registry κ) (now : Nat) (k : κ) (value : Entity κ)
    (expiring : Bool) : Except InvariantFault (Holder κ) × Shard κ × Registry κ :=
  s.write reg now k (some value) expiring false

/-- Caches a value that was written: a present holder takes it. -/
def recordStore (s : Shard κ) (reg : Registry κ) (now : Nat) (k : κ) (value : Entity κ)
    (expiring : Bool) : Except InvariantFault (Holder κ) × Shard κ × Registry κ :=
  s.write reg now k (some value) expiring true

/-- Records a deletion: the holder becomes an expiring tombstone. -/
def recordDelete (s : Shard κ) (reg : Registry κ) (now : Nat) (k : κ) :
    Except InvariantFault (Holder κ) × Shard κ × Registry κ :=
  s.write reg now k none true true

/-- Takes the holder of a key out of the tier that indexes it. -/
def invalidate (s : Shard κ) (reg : Registry κ) (k : κ) :
    Option (Holder κ) × Shard κ × Registry κ :=
  match s.permanent.remove reg k with
  | (some h, store, reg) => (some h, { s with permanent := store }, reg)
  | (none, _, _) =>
    let (found, store, reg) := s.expiring.remove reg k
    (found, { s with expiring := store }, reg)

/-- Takes every holder out. -/
def clear (s : Shard κ) (reg : Registry κ) : Shard κ × Registry κ :=
  let (permanent, reg) := s.permanent.clear reg
  let (expiring, reg) := s.expiring.clear reg
  (⟨permanent, expiring⟩, reg)

/-- Whether the expiring tier is sound. -/
def isSound (s : Shard κ) (reg : Registry κ) : Bool :=
  s.expiring.isSound reg

end Shard

end TieredCache
