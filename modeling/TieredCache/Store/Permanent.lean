import TieredCache.Holder
import TieredCache.OrderedMap

/-!
# The permanent tier of a shard

An ordered index of holders that stay until they are taken out. The store keeps the registry's
account of its holders: one that comes in is permanent, one that leaves or is displaced by another
holder of its key is uncached.
-/

namespace TieredCache

/-- Holders by key. -/
structure PermanentStore (κ : Type) [Key κ] where
  index : OrderedMap κ (Holder κ)

namespace PermanentStore

variable {κ : Type} [Key κ]

/-- The store without holders. -/
def empty : PermanentStore κ :=
  ⟨.empty⟩

/-- The number of holders. -/
def size (s : PermanentStore κ) : Nat :=
  s.index.size

/-- The holder of a key. -/
def get? (s : PermanentStore κ) (k : κ) : Option (Holder κ) :=
  s.index.find? k

/-- The holders of the keys that `p` covers, in the order of their keys. -/
def under (s : PermanentStore κ) (p : κ) : List (Holder κ) :=
  (s.index.under p).map (·.2)

/-- Indexes a holder under its key, in place of any other. -/
def insert (s : PermanentStore κ) (reg : Registry κ) (h : Holder κ) :
    PermanentStore κ × Registry κ :=
  let displaced := (s.index.find? h.key).filter fun old => old.id ≠ h.id
  (⟨s.index.insert h.key h⟩, (reg.place h .permanent).release displaced.toList)

/-- Takes the holder of a key out. -/
def remove (s : PermanentStore κ) (reg : Registry κ) (k : κ) :
    Option (Holder κ) × PermanentStore κ × Registry κ :=
  let found := s.index.find? k
  (found, ⟨s.index.erase k⟩, reg.release found.toList)

/-- Takes every holder out. -/
def clear (s : PermanentStore κ) (reg : Registry κ) : PermanentStore κ × Registry κ :=
  (empty, reg.release s.index.values)

end PermanentStore

end TieredCache
