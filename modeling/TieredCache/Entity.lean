import TieredCache.TypeTag

/-!
# Entities

What a cache holds: a payload under its own key, with the tag of its type. Each kind of key has a
kind of entity that lives under it.
-/

namespace TieredCache

/-- A payload, the key it is cached under and the tag of its type. -/
structure Entity (κ : Type) where
  key : κ
  payload : Int
  tag : TypeTag

namespace Entity

/-- The type of the entities under path keys. -/
def record : TypeTag :=
  .root "Record"

/-- The type of the entities under text keys. -/
def note : TypeTag :=
  .root "Note"

/-- The type of the entities under gated keys, derived from a general gated type. -/
def gated : TypeTag :=
  .derived "GatedEntity" (.root "Gated")

/-- The type of the entities under account keys. -/
def account : TypeTag :=
  .root "Account"

end Entity

end TieredCache
