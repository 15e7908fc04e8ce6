import TieredCache.OrderedMap

/-!
# Permanent certifications

The set of keys under which everything is known to be cached. No stored key covers another: a key
that is covered already is not added, and a key that is added replaces those it covers. A look at the
greatest stored key not after a key therefore decides whether the key is covered.
-/

namespace TieredCache

/-- The stored keys. -/
structure PermanentCoverage (κ : Type) [Key κ] where
  index : OrderedMap κ Unit

namespace PermanentCoverage

variable {κ : Type} [Key κ]

/-- Nothing is certified. -/
def empty : PermanentCoverage κ :=
  ⟨.empty⟩

/-- The stored keys, in increasing order. -/
def keys (c : PermanentCoverage κ) : List κ :=
  c.index.keys

/-- The number of stored keys. -/
def size (c : PermanentCoverage κ) : Nat :=
  c.index.size

/-- Whether a stored key covers `k`. -/
def covers (c : PermanentCoverage κ) (k : κ) : Bool :=
  (c.index.covering? k).isSome

/-- Certifies a key, in place of the keys it covers; whether it was not covered before. -/
def add (c : PermanentCoverage κ) (k : κ) : Bool × PermanentCoverage κ :=
  if c.covers k then (false, c)
  else
    let rest := (c.index.under k).foldl (fun m e => m.erase e.1) c.index
    (true, ⟨rest.insert k ()⟩)

end PermanentCoverage

end TieredCache
