import Mathlib.Data.List.Nodup
import TieredCache.Arena

/-!
# Look-ups in a generational arena

The vacant list of an arena names each vacant slot once and no other slot. With that, an insertion
answers an identity that stood for nothing before and changes the value of no other identity.
-/

namespace TieredCache.Arena

variable {α : Type}

/-- The vacant list names every vacant slot exactly once. -/
structure WellFormed (a : Arena α) : Prop where
  vacant_nodup : a.vacant.Nodup
  mem_vacant_iff : ∀ i, i ∈ a.vacant ↔ ∃ slot, a.slots[i]? = some slot ∧ slot.content = none

theorem get?_eq_some_iff {a : Arena α} {id : SlotId} {v : α} :
    a.get? id = some v ↔ a.slots[id.index]? = some ⟨id.generation, some v⟩ := by
  rw [get?]
  cases h : a.slots[id.index]? with
  | none => simp
  | some slot =>
      obtain ⟨generation, content⟩ := slot
      by_cases hg : generation = id.generation <;> simp [hg]

@[simp]
theorem contains_iff {a : Arena α} {id : SlotId} : a.contains id ↔ ∃ v, a.get? id = some v := by
  rw [contains, Option.isSome_iff_exists]

theorem wellFormed_empty : (empty : Arena α).WellFormed where
  vacant_nodup := List.nodup_nil
  mem_vacant_iff i := by simp [empty]

/-! ## Insertion -/

theorem size_insert (a : Arena α) (v : α) : (a.insert v).2.size = a.size + 1 := by
  unfold insert
  split <;> rfl

/-- The identity that an insertion answers stood for no value before. -/
theorem get?_fst_insert {a : Arena α} (h : a.WellFormed) (v : α) :
    a.get? (a.insert v).1 = none := by
  unfold insert
  split
  next hv => simp [get?]
  next index rest hv =>
    obtain ⟨slot, hs, hc⟩ := (h.mem_vacant_iff index).mp (by simp [hv])
    simp [get?, hs, hc]

theorem get?_insert {a : Arena α} (h : a.WellFormed) (v : α) (x : SlotId) :
    (a.insert v).2.get? x = if x = (a.insert v).1 then some v else a.get? x := by
  obtain ⟨index, generation⟩ := x
  unfold insert
  split
  next hv =>
    simp only [get?, Array.getElem?_push, SlotId.mk.injEq]
    by_cases hi : index = a.slots.size
    · by_cases hg : generation = 0 <;> simp [hi, hg, eq_comm]
    · simp [hi]
  next i rest hv =>
    obtain ⟨slot, hs, hc⟩ := (h.mem_vacant_iff i).mp (by simp [hv])
    simp only [get?, Array.getElem?_modify, SlotId.mk.injEq]
    by_cases hi : i = index
    · subst hi
      by_cases hg : slot.generation = generation <;> simp [hs, hc, hg, eq_comm]
    · simp [hi, Ne.symm hi]

theorem WellFormed.insert {a : Arena α} (h : a.WellFormed) (v : α) :
    (a.insert v).2.WellFormed := by
  unfold Arena.insert
  split
  next hv =>
    refine ⟨List.nodup_nil, fun i => ?_⟩
    have hi := h.mem_vacant_iff i
    simp only [hv, List.not_mem_nil, false_iff, not_exists, not_and] at hi ⊢
    intro slot hs
    rw [Array.getElem?_push] at hs
    split at hs
    · cases hs
      simp
    · exact hi slot hs
  next index rest hv =>
    have hnodup := h.vacant_nodup
    rw [hv, List.nodup_cons] at hnodup
    refine ⟨hnodup.2, fun i => ?_⟩
    have hi := h.mem_vacant_iff i
    rw [hv, List.mem_cons] at hi
    simp only [Array.getElem?_modify]
    by_cases hx : index = i
    · subst hx
      simp [hnodup.1]
    · simpa [hx, Ne.symm hx] using hi

/-! ## Changes in place -/

/-- The value of an identity can be changed in place, which changes the value of no other. -/
theorem modify?_of_get? {a : Arena α} {id : SlotId} {v : α} (h : a.get? id = some v) (f : α → α) :
    ∃ b, a.modify? id f = some b ∧ (∀ x, b.get? x = if x = id then some (f v) else a.get? x) ∧
      b.size = a.size ∧ (a.WellFormed → b.WellFormed) := by
  have hs := get?_eq_some_iff.mp h
  refine ⟨_, if_pos (contains_iff.mpr ⟨v, h⟩), fun x => ?_, rfl, fun hw => ?_⟩
  · simp only [get?, Array.getElem?_modify]
    by_cases hi : id.index = x.index
    · have hx : x = id ↔ id.generation = x.generation := by
        cases x
        cases id
        simp_all [eq_comm]
      by_cases hg : id.generation = x.generation <;> simp [← hi, hs, hx, hg]
    · have hx : x ≠ id := fun hx => hi (congrArg SlotId.index hx.symm)
      simp [hi, hx]
  · refine ⟨hw.vacant_nodup, fun i => ?_⟩
    rw [hw.mem_vacant_iff]
    simp only [Array.getElem?_modify]
    by_cases hi : id.index = i
    · cases a.slots[i]? <;> simp [hi]
    · simp [hi]

/-! ## Removal -/

theorem fst_remove (a : Arena α) (id : SlotId) : (a.remove id).1 = a.get? id := by
  unfold remove
  split <;> simp_all

theorem size_remove {a : Arena α} {id : SlotId} {v : α} (h : a.get? id = some v) :
    (a.remove id).2.size = a.size - 1 := by
  simp [remove, h]

theorem WellFormed.remove {a : Arena α} (h : a.WellFormed) (id : SlotId) :
    (a.remove id).2.WellFormed := by
  unfold Arena.remove
  split
  next => exact h
  next v hv =>
    have hs := get?_eq_some_iff.mp hv
    have hmem : id.index ∉ a.vacant := by
      intro hi
      obtain ⟨slot, hslot, hc⟩ := (h.mem_vacant_iff _).mp hi
      simp [hs] at hslot
      simp [← hslot] at hc
    refine ⟨List.nodup_cons.mpr ⟨hmem, h.vacant_nodup⟩, fun i => ?_⟩
    rw [List.mem_cons, h.mem_vacant_iff]
    simp only [Array.getElem?_modify]
    by_cases hi : id.index = i
    · subst hi
      simp [hs, Slot.vacate]
    · simp [hi, Ne.symm hi]

/-! ## Clearing -/

@[simp]
theorem get?_clear (a : Arena α) (id : SlotId) : a.clear.get? id = none := by
  simp only [get?, clear, Array.getElem?_map]
  cases a.slots[id.index]? with
  | none => rfl
  | some slot =>
      cases hc : slot.content <;> simp [Slot.clear, Slot.vacate, hc]

theorem wellFormed_clear (a : Arena α) : a.clear.WellFormed := by
  refine ⟨List.nodup_reverse.mpr List.nodup_range, fun i => ?_⟩
  simp only [clear, List.mem_reverse, List.mem_range, Array.getElem?_map]
  by_cases hi : i < a.slots.size
  · simp only [hi, Array.getElem?_eq_getElem, Option.map_some, true_iff]
    refine ⟨_, rfl, ?_⟩
    cases hc : a.slots[i].content <;> simp [Slot.clear, Slot.vacate, hc]
  · simp [hi]

end TieredCache.Arena
