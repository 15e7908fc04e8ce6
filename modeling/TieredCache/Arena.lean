/-!
# Generational arenas

An arena keeps values in numbered slots and hands out an identity for each value: the slot's index
with the generation it has at that moment. Taking a value out moves its slot to the next generation,
so an identity that outlived its value never resolves again, whoever uses the slot later. Vacant
slots are used again before a new one is opened, the most recently vacated first.
-/

namespace TieredCache

/-- The identity of a value in an arena: a slot and the slot's generation. -/
structure SlotId where
  index : Nat
  generation : Nat
  deriving DecidableEq

/-- A place for one value, with the number of values it has already given up. -/
structure Slot (α : Type) where
  generation : Nat
  content : Option α

/-- Slots, the indices of the vacant ones and the number of the others. -/
structure Arena (α : Type) where
  slots : Array (Slot α)
  vacant : List Nat
  size : Nat

namespace Slot

variable {α : Type}

/-- The slot without its value, one generation on. -/
def vacate (s : Slot α) : Slot α :=
  ⟨s.generation + 1, none⟩

/-- The slot cleared: only an occupied one moves on. -/
def clear (s : Slot α) : Slot α :=
  if s.content.isSome then s.vacate else s

end Slot

namespace Arena

variable {α : Type}

/-- The arena without slots. -/
def empty : Arena α :=
  ⟨#[], [], 0⟩

instance : Inhabited (Arena α) :=
  ⟨empty⟩

/-- An arena that expects a number of values; the expectation shows in no answer. -/
def withCapacity (_expected : Nat) : Arena α :=
  empty

/-- Whether no slot is occupied. -/
def isEmpty (a : Arena α) : Bool :=
  a.size == 0

/-- The value that an identity stands for. -/
def get? (a : Arena α) (id : SlotId) : Option α := do
  let slot ← a.slots[id.index]?
  if slot.generation = id.generation then slot.content else none

/-- Whether an identity stands for a value. -/
def contains (a : Arena α) (id : SlotId) : Bool :=
  (a.get? id).isSome

/-- Puts a value into the most recently vacated slot, or into a new one when none is vacant. -/
def insert (a : Arena α) (v : α) : SlotId × Arena α :=
  match a.vacant with
  | [] => (⟨a.slots.size, 0⟩, ⟨a.slots.push ⟨0, some v⟩, [], a.size + 1⟩)
  | index :: rest =>
    let generation := (a.slots[index]?).elim 0 (·.generation)
    (⟨index, generation⟩, ⟨a.slots.modify index ({ · with content := some v }), rest, a.size + 1⟩)

/-- Takes the value of an identity out of its slot. -/
def remove (a : Arena α) (id : SlotId) : Option α × Arena α :=
  match a.get? id with
  | none => (none, a)
  | some v => (some v, ⟨a.slots.modify id.index .vacate, id.index :: a.vacant, a.size - 1⟩)

/-- Applies a function to the value of an identity, where it stands for one. -/
def modify? (a : Arena α) (id : SlotId) (f : α → α) : Option (Arena α) :=
  if a.contains id then
    some { a with slots := a.slots.modify id.index fun s => { s with content := s.content.map f } }
  else none

/-- Writes over the value of an identity and answers the value that was there. -/
def replace (a : Arena α) (id : SlotId) (v : α) : Option α × Arena α :=
  (a.get? id, (a.modify? id fun _ => v).getD a)

/-- Takes every value out and leaves every slot vacant, the last one to be used first. -/
def clear (a : Arena α) : Arena α :=
  ⟨a.slots.map .clear, (List.range a.slots.size).reverse, 0⟩

/-- The values with their identities, in the order of their slots. -/
def toList (a : Arena α) : List (SlotId × α) :=
  a.slots.toList.zipIdx.filterMap fun (slot, index) =>
    slot.content.map fun v => (⟨index, slot.generation⟩, v)

/-! ## What each operation does to the values -/

@[simp]
theorem get?_empty (id : SlotId) : (empty : Arena α).get? id = none := by
  simp [get?, empty]

/-- A removal takes away the value of its own identity and of no other. -/
theorem get?_remove (a : Arena α) (id x : SlotId) :
    (a.remove id).2.get? x = if x = id then none else a.get? x := by
  unfold remove
  cases h : a.get? id with
  | none =>
      by_cases hx : x = id
      · simp [hx, h]
      · simp [hx]
  | some v =>
      simp only [get?, Array.getElem?_modify]
      by_cases hi : id.index = x.index
      · cases hs : a.slots[x.index]? with
        | none => simp [get?, hi, hs] at h
        | some slot =>
            simp only [get?, hi, hs, Option.bind_eq_bind, Option.bind_some] at h
            split at h
            next hg =>
              have hne : x = id ↔ slot.generation = x.generation := by
                cases x
                cases id
                simp_all [eq_comm]
              by_cases hx : slot.generation = x.generation <;> simp [hi, Slot.vacate, hne, hx]
            next => simp at h
      · have hne : x ≠ id := fun hx => hi (congrArg SlotId.index hx.symm)
        simp [hi, hne]

end Arena

end TieredCache
