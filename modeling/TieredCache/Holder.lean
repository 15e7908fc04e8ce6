import TieredCache.Entity
import TieredCache.Key

/-!
# Holders

A holder stands for one key over time: what is known of the key, and which tier of a cache indexes
the holder, change while the holder stays the same. A holder without a value is a tombstone, the
knowledge that the key has no entity. Caches and their callers share holders, so the registry keeps
what changes, and a holder itself is only its number and its key.
-/

namespace TieredCache

/-- The tier that indexes a holder. -/
inductive Placement where
  | uncached
  | permanent
  | expiring
  deriving DecidableEq

/-- The name under which a placement is reported. -/
def Placement.text : Placement → String
  | uncached => "Uncached"
  | permanent => "Manual"
  | expiring => "Expiring"

/-- A holder: its number among all holders and the key that it stands for. -/
structure Holder (κ : Type) where
  id : Nat
  key : κ

/-- The key that a holder stands for, what is known of the key, and where the holder is indexed. -/
structure HolderState (κ : Type) where
  key : κ
  value : Option (Entity κ)
  placement : Placement

/-- The states of all holders, by number. -/
structure Registry (κ : Type) where
  states : Array (HolderState κ)

namespace Registry

variable {κ : Type}

/-- The registry without holders. -/
def empty : Registry κ :=
  ⟨#[]⟩

/-- The state of a holder; one that was never issued is an uncached tombstone. -/
def state (reg : Registry κ) (h : Holder κ) : HolderState κ :=
  (reg.states[h.id]?).getD ⟨h.key, none, .uncached⟩

/-- The value that a holder carries. -/
def value? (reg : Registry κ) (h : Holder κ) : Option (Entity κ) :=
  (reg.state h).value

/-- The tier that indexes a holder. -/
def placement (reg : Registry κ) (h : Holder κ) : Placement :=
  (reg.state h).placement

/-- Whether a holder carries no value. -/
def isTombstone (reg : Registry κ) (h : Holder κ) : Bool :=
  (reg.value? h).isNone

/-- Whether some tier indexes a holder. -/
def isCached (reg : Registry κ) (h : Holder κ) : Bool :=
  reg.placement h != .uncached

/-- A fresh holder for a key, not yet indexed. -/
def issue (reg : Registry κ) (key : κ) (value : Option (Entity κ)) : Holder κ × Registry κ :=
  (⟨reg.states.size, key⟩, ⟨reg.states.push ⟨key, value, .uncached⟩⟩)

/-- Writes over the value of a holder. -/
def setValue (reg : Registry κ) (h : Holder κ) (value : Option (Entity κ)) : Registry κ :=
  ⟨reg.states.modify h.id ({ · with value := value })⟩

/-- Records the tier that indexes a holder. -/
def place (reg : Registry κ) (h : Holder κ) (p : Placement) : Registry κ :=
  ⟨reg.states.modify h.id ({ · with placement := p })⟩

/-- Records that no tier indexes the given holders any more. -/
def release (reg : Registry κ) (holders : List (Holder κ)) : Registry κ :=
  holders.foldl (fun reg h => reg.place h .uncached) reg

/-! ## What each change leaves alone -/

theorem state_place (reg : Registry κ) (h x : Holder κ) (p : Placement) :
    (reg.place h p).state x =
      if h.id = x.id ∧ x.id < reg.states.size then { reg.state x with placement := p }
      else reg.state x := by
  simp only [state, place, Array.getElem?_modify]
  by_cases hx : x.id < reg.states.size <;> by_cases hi : h.id = x.id <;> simp [hx, hi]

theorem state_setValue (reg : Registry κ) (h x : Holder κ) (value : Option (Entity κ)) :
    (reg.setValue h value).state x =
      if h.id = x.id ∧ x.id < reg.states.size then { reg.state x with value := value }
      else reg.state x := by
  simp only [state, setValue, Array.getElem?_modify]
  by_cases hx : x.id < reg.states.size <;> by_cases hi : h.id = x.id <;> simp [hx, hi]

@[simp]
theorem value?_place (reg : Registry κ) (h x : Holder κ) (p : Placement) :
    (reg.place h p).value? x = reg.value? x := by
  rw [value?, state_place]
  split <;> rfl

@[simp]
theorem value?_release (reg : Registry κ) (holders : List (Holder κ)) (x : Holder κ) :
    (reg.release holders).value? x = reg.value? x := by
  induction holders generalizing reg with
  | nil => rfl
  | cons h rest ih => exact (ih (reg.place h .uncached)).trans (value?_place reg h x .uncached)

@[simp]
theorem placement_setValue (reg : Registry κ) (h x : Holder κ) (value : Option (Entity κ)) :
    (reg.setValue h value).placement x = reg.placement x := by
  rw [placement, state_setValue]
  split <;> rfl

/-- A holder in text: its key, its tier and whether it is a tombstone. -/
def text [Key κ] (reg : Registry κ) (h : Holder κ) : String :=
  "Holder \x7b key: " ++ Key.text h.key ++ ", state: " ++ (reg.placement h).text
    ++ ", tombstone: " ++ toString (reg.isTombstone h) ++ " \x7d"

end Registry

end TieredCache
