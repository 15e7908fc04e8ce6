import TieredCache.Holder
import TieredCache.OrderedMap
import TieredCache.RecencyRing

/-!
# The expiring tier of a shard

An ordered index of holders that are also linked in a recency ring. Looking a holder up and scanning
a range first sweep what has outlived the time to live and then refresh what they answer; a peek does
neither. The store keeps the registry's account of its holders: one that comes in is expiring, one
that leaves, lapses or is displaced by another holder of its key is uncached.
-/

namespace TieredCache

/-- Handles by key, and the ring of holders that issued them. -/
structure ExpiringStore (κ : Type) [Key κ] where
  index : OrderedMap κ Handle
  ring : RecencyRing (Holder κ)

namespace ExpiringStore

variable {κ : Type} [Key κ]

/-- The store without holders. Its handles never leave it, so the name of its ring does not matter. -/
def empty (ttl : Duration) : ExpiringStore κ :=
  ⟨.empty, .empty 0 ttl⟩

/-- The number of holders, lapsed ones that no sweep has met included. -/
def size (s : ExpiringStore κ) : Nat :=
  s.index.size

/-- The time to live. -/
def ttl (s : ExpiringStore κ) : Duration :=
  s.ring.ttl

/-- The holder of a key, without a sweep or a refresh. -/
def peek? (s : ExpiringStore κ) (k : κ) : Option (Holder κ) :=
  (s.index.find? k).bind s.ring.get?

/-- Takes out every holder that has outlived the time to live, and answers how many. -/
def expire (s : ExpiringStore κ) (reg : Registry κ) (now : Nat) :
    Nat × ExpiringStore κ × Registry κ :=
  let (lapsed, ring) := s.ring.expire now
  (lapsed.length, ⟨lapsed.foldl (fun m h => m.erase h.key) s.index, ring⟩, reg.release lapsed)

/-- Refreshes the holder of a key; whether there was one. -/
def touch (s : ExpiringStore κ) (now : Nat) (k : κ) : Bool × ExpiringStore κ :=
  match s.index.find? k with
  | none => (false, s)
  | some handle =>
    let (found, ring) := s.ring.touch now handle
    (found, { s with ring := ring })

/-- Sweeps, then finds the holder of a key and refreshes it. -/
def get (s : ExpiringStore κ) (reg : Registry κ) (now : Nat) (k : κ) :
    Option (Holder κ) × ExpiringStore κ × Registry κ :=
  let (_, s, reg) := s.expire reg now
  let (_, s) := s.touch now k
  (s.peek? k, s, reg)

/-- Sweeps, then finds the holders of the keys that `p` covers, in the order of their keys, and
refreshes each of them in that order. -/
def getAll (s : ExpiringStore κ) (reg : Registry κ) (now : Nat) (p : κ) :
    List (Holder κ) × ExpiringStore κ × Registry κ :=
  let (_, s, reg) := s.expire reg now
  let handles := (s.index.under p).map (·.2)
  let ring := handles.foldl (fun ring handle => (ring.touch now handle).2) s.ring
  (handles.filterMap ring.get?, { s with ring := ring }, reg)

/-- Indexes a holder under its key as the most recent one, in place of any other. -/
def insert (s : ExpiringStore κ) (reg : Registry κ) (now : Nat) (h : Holder κ) :
    ExpiringStore κ × Registry κ :=
  let reg := reg.place h .expiring
  let (handle, ring) := s.ring.add now h
  let index := s.index.insert h.key handle
  match s.index.find? h.key with
  | none => (⟨index, ring⟩, reg)
  | some previous =>
    let (old, ring) := ring.remove previous
    let displaced := old.filter fun old => (ring.get? handle).any fun kept => kept.id ≠ old.id
    (⟨index, ring⟩, reg.release displaced.toList)

/-- Takes the holder of a key out, even a lapsed one. -/
def remove (s : ExpiringStore κ) (reg : Registry κ) (k : κ) :
    Option (Holder κ) × ExpiringStore κ × Registry κ :=
  match s.index.find? k with
  | none => (none, s, reg)
  | some handle =>
    let (found, ring) := s.ring.remove handle
    (found, ⟨s.index.erase k, ring⟩, reg.release found.toList)

/-- Takes every holder out. -/
def clear (s : ExpiringStore κ) (reg : Registry κ) : ExpiringStore κ × Registry κ :=
  (⟨.empty, s.ring.clear⟩, reg.release s.ring.toList)

/-- Whether index and ring hold the same holders, each under its own key and recorded as expiring, and
the ring is sound. -/
def isSound (s : ExpiringStore κ) (reg : Registry κ) : Bool :=
  let indexed := s.index.entries.all fun (k, handle) =>
    (s.ring.get? handle).any fun h => (compare h.key k).isEq && reg.placement h == .expiring
  s.index.size == s.ring.size && indexed && s.ring.isSound

end ExpiringStore

end TieredCache
