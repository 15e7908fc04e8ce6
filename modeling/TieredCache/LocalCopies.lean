import TieredCache.Entity
import TieredCache.OrderedMap

/-!
# Local copies

The entities that one unit of work has read, each under its own key. A later read of the same key
finds the copy, whatever has happened to the cache meanwhile.
-/

namespace TieredCache

/-- Entities by key. -/
structure LocalCopies (κ : Type) [Key κ] where
  copies : OrderedMap κ (Entity κ)

namespace LocalCopies

variable {κ : Type} [Key κ]

/-- No copy yet. -/
def empty : LocalCopies κ :=
  ⟨.empty⟩

/-- The number of copies. -/
def size (l : LocalCopies κ) : Nat :=
  l.copies.size

/-- Whether there is no copy. -/
def isEmpty (l : LocalCopies κ) : Bool :=
  l.size == 0

/-- The copy under a key. -/
def get? (l : LocalCopies κ) (k : κ) : Option (Entity κ) :=
  l.copies.find? k

/-- Keeps an entity under its own key, in place of an earlier copy. -/
def put (l : LocalCopies κ) (e : Entity κ) : LocalCopies κ :=
  ⟨l.copies.insert e.key e⟩

/-- Forgets the copy under a key and answers it. -/
def discard (l : LocalCopies κ) (k : κ) : Option (Entity κ) × LocalCopies κ :=
  (l.get? k, ⟨l.copies.erase k⟩)

/-- Forgets every copy. -/
def clear (_l : LocalCopies κ) : LocalCopies κ :=
  empty

/-- The number of copies in text. -/
def text (l : LocalCopies κ) : String :=
  "LocalCopyMap \x7b len: " ++ toString l.size ++ " \x7d"

end LocalCopies

end TieredCache
