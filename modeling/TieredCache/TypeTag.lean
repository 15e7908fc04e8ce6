import TieredCache.Text.Quoted

/-!
# Type tags

A tag names the type of an entity and, for a derived type, the type that it comes from directly. A
cache of one type admits that type and those derived directly from it.
-/

namespace TieredCache

/-- The name of a type and of the type it is derived from, if any. -/
structure TypeTag where
  name : String
  base : Option String
  deriving DecidableEq

namespace TypeTag

/-- The tag of a type that is derived from no other. -/
def root (name : String) : TypeTag :=
  ⟨name, none⟩

/-- The tag of a type derived from `base`. -/
def derived (name : String) (base : TypeTag) : TypeTag :=
  ⟨name, some base.name⟩

/-- A type admits itself and the types that name it as their base. -/
def admits (expected actual : TypeTag) : Bool :=
  actual == expected || actual.base == some expected.name

theorem admits_iff {expected actual : TypeTag} :
    expected.admits actual ↔ actual = expected ∨ actual.base = some expected.name := by
  simp [admits]

/-- Both names of a tag, quoted. -/
def text (t : TypeTag) : String :=
  let base := match t.base with
    | none => "None"
    | some name => "Some(" ++ Text.quoted name ++ ")"
  "TypeTag \x7b name: " ++ Text.quoted t.name ++ ", base: " ++ base ++ " \x7d"

end TypeTag

end TieredCache
