import Mathlib.Data.List.Induction
import Mathlib.Order.Bounds.Basic
import TieredCache.Proofs.Arena.Run

/-!
# The bookkeeping of an arena

Besides its slots an arena keeps the list of the vacant ones and the number of the others. Both are exact
after every run: each call changes them by what it does to the slots, whatever identity it is given. A new
slot is opened only when none is vacant, so there are as many slots as there ever were values at once.
-/

namespace TieredCache.Arena

variable {α : Type} {a : Arena α} {x : SlotId} {v : α}

/-! ## The occupied slots -/

/-- The number of occupied slots. -/
def occupants (slots : Array (Slot α)) : Nat :=
  slots.countP (·.content.isSome)

theorem occupants_le (slots : Array (Slot α)) : occupants slots ≤ slots.size :=
  Array.countP_le_size

/-- A change of one slot counts by what it does to this slot. -/
theorem occupants_modify {slots : Array (Slot α)} {i : Nat} {s : Slot α} (hs : slots[i]? = some s)
    (f : Slot α → Slot α) : occupants (slots.modify i f) + s.content.isSome.toNat =
      occupants slots + (f s).content.isSome.toNat := by
  obtain ⟨hi, rfl⟩ := Array.getElem?_eq_some_iff.mp hs
  have hset : slots.modify i f = slots.set i (f slots[i]) := by
    apply Array.toList_inj.mp
    rw [Array.toList_modify, Array.toList_set, List.modify_eq_set_getElem?]
    simp [hi]
  have hle : (if slots[i].content.isSome = true then 1 else 0) ≤ occupants slots :=
    Array.boole_getElem_le_countP (p := fun s : Slot α => s.content.isSome) hi
  rw [hset, occupants, Array.countP_set hi, ← occupants]
  cases hold : slots[i].content.isSome <;> cases (f slots[i]).content.isSome <;>
    simp [hold] at hle ⊢ <;> omega

/-- No slot is vacant when the vacant list is empty. -/
theorem occupants_eq_of_no_vacant (h : a.WellFormed) (hvacant : a.vacant = []) :
    occupants a.slots = a.slots.size := by
  rw [occupants, Array.countP_eq_size]
  intro slot hslot
  obtain ⟨i, hi, rfl⟩ := Array.mem_iff_getElem.mp hslot
  rw [Option.isSome_iff_ne_none]
  intro hnone
  have hmem := (h.mem_vacant_iff i).mpr ⟨_, Array.getElem?_eq_getElem hi, hnone⟩
  rw [hvacant] at hmem
  cases hmem

/-! ## The values in the order of their slots -/

theorem mem_toList_iff : (x, v) ∈ a.toList ↔ a.get? x = some v := by
  obtain ⟨index, generation⟩ := x
  rw [get?_eq_some_iff, toList, List.mem_filterMap]
  constructor
  · rintro ⟨⟨⟨g, content⟩, i⟩, hmem, heq⟩
    rw [List.mem_zipIdx_iff_getElem?] at hmem
    obtain ⟨w, rfl, hpair⟩ := Option.map_eq_some_iff.mp heq
    cases hpair
    simpa using hmem
  · intro hslot
    refine ⟨(⟨generation, some v⟩, index), ?_, rfl⟩
    rw [List.mem_zipIdx_iff_getElem?]
    simpa using hslot

theorem pairwise_toList (a : Arena α) : a.toList.Pairwise fun e f => e.1.index < f.1.index := by
  rw [toList, List.pairwise_filterMap]
  have hindices : (a.slots.toList.zipIdx.map (·.2)).Pairwise (· < ·) := by
    rw [List.zipIdx_map_snd]
    exact List.pairwise_lt_range'
  refine (List.pairwise_map.mp hindices).imp fun hlt e he f hf => ?_
  obtain ⟨_, -, rfl⟩ := Option.map_eq_some_iff.mp he
  obtain ⟨_, -, rfl⟩ := Option.map_eq_some_iff.mp hf
  exact hlt

theorem length_toList (a : Arena α) : a.toList.length = occupants a.slots :=
  calc a.toList.length = a.slots.toList.zipIdx.countP ((·.content.isSome) ∘ (·.1)) := by
        rw [toList, List.length_filterMap_eq_countP]
        simp [Function.comp_def]
    _ = (a.slots.toList.zipIdx.map (·.1)).countP (·.content.isSome) := List.countP_map.symm
    _ = occupants a.slots := by rw [List.zipIdx_map_fst, Array.countP_toList, occupants]

/-! ## One call -/

/-- The arena knows how many of its slots are occupied. -/
structure Counted (a : Arena α) : Prop extends a.WellFormed where
  size_eq : a.size = occupants a.slots

theorem counted_empty : (empty : Arena α).Counted where
  toWellFormed := wellFormed_empty
  size_eq := rfl

namespace Counted

theorem size_le (h : a.Counted) : a.size ≤ a.slots.size :=
  h.size_eq ▸ occupants_le a.slots

theorem insert (h : a.Counted) (v : α) : (a.insert v).2.Counted where
  toWellFormed := h.toWellFormed.insert v
  size_eq := by
    rw [size_insert, h.size_eq, Arena.insert]
    split
    next => simp [occupants]
    next i rest hv =>
      obtain ⟨slot, hs, hc⟩ := (h.mem_vacant_iff i).mp (by simp [hv])
      have hcount := occupants_modify hs ({ · with content := some v })
      simpa [hc] using hcount.symm

theorem remove (h : a.Counted) (id : SlotId) : (a.remove id).2.Counted where
  toWellFormed := h.toWellFormed.remove id
  size_eq := by
    rw [Arena.remove]
    split
    next => exact h.size_eq
    next v hv =>
      have hcount := occupants_modify (get?_eq_some_iff.mp hv) .vacate
      simp only [Slot.vacate, Option.isSome_some, Option.isSome_none, Bool.toNat_true,
        Bool.toNat_false, Nat.add_zero] at hcount
      rw [h.size_eq, ← hcount, Nat.add_sub_cancel]

theorem replace (h : a.Counted) (id : SlotId) (v : α) : (a.replace id v).2.Counted where
  toWellFormed := h.toWellFormed.replace id v
  size_eq := by
    rw [Arena.replace, modify?]
    split
    next hid =>
      obtain ⟨w, hw⟩ := contains_iff.mp hid
      have hcount := occupants_modify (get?_eq_some_iff.mp hw)
        fun s => { s with content := s.content.map fun _ => v }
      simpa [h.size_eq] using hcount.symm
    next => exact h.size_eq

theorem clear (a : Arena α) : a.clear.Counted where
  toWellFormed := wellFormed_clear a
  size_eq := by
    have hvacant : ∀ slot ∈ a.clear.slots, ¬ slot.content.isSome := by
      intro slot hslot
      obtain ⟨s, -, rfl⟩ := Array.mem_map.mp hslot
      cases hc : s.content <;> simp [Slot.clear, Slot.vacate, hc]
    exact (Array.countP_eq_zero.mpr hvacant).symm

theorem next (h : a.Counted) (call : Call α) : (a.next call).Counted := by
  cases call with
  | insert v => exact h.insert v
  | remove id => exact h.remove id
  | write id v => exact h.replace id v
  | clear => exact clear a

theorem after (h : a.Counted) (run : List (Call α)) : (a.after run).Counted := by
  induction run generalizing a with
  | nil => exact h
  | cons call rest ih => exact ih (h.next call)

/-- A call opens a slot only for a value that has no room in the others. -/
theorem slots_size_next (h : a.Counted) (call : Call α) :
    (a.next call).slots.size = max (a.next call).size a.slots.size := by
  have hroom := (h.next call).size_le
  suffices hgrown : (a.next call).slots.size = a.slots.size ∨
      (a.next call).slots.size = (a.next call).size ∧ a.slots.size ≤ (a.next call).size by omega
  cases call with
  | insert v =>
      have hsize := size_insert a v
      rw [h.size_eq] at hsize
      rw [Arena.next, hsize, Arena.insert]
      split
      next hvacant =>
        rw [occupants_eq_of_no_vacant h.toWellFormed hvacant]
        exact .inr ⟨Array.size_push _, Nat.le_succ _⟩
      next => exact .inl Array.size_modify
  | remove id =>
      rw [Arena.next, Arena.remove]
      split
      next => exact .inl rfl
      next => exact .inl Array.size_modify
  | write id v =>
      rw [Arena.next, Arena.replace, modify?]
      split
      next => exact .inl Array.size_modify
      next => exact .inl rfl
  | clear => exact .inl Array.size_map

end Counted

/-! ## Runs -/

/-- The numbers of values that an arena holds at some time of a run. -/
def sizes (a : Arena α) (run : List (Call α)) : Set Nat :=
  {n | ∃ before, before <+: run ∧ (a.after before).size = n}

theorem sizes_nil (a : Arena α) : a.sizes [] = {a.size} := by
  ext n
  simp [sizes, after_nil, eq_comm]

theorem sizes_concat (a : Arena α) (run : List (Call α)) (call : Call α) :
    a.sizes (run ++ [call]) = Insert.insert (a.after (run ++ [call])).size (a.sizes run) := by
  ext n
  simp only [sizes, List.prefix_concat_iff, Set.mem_insert_iff, Set.mem_ofPred_eq, or_and_right,
    exists_or, exists_eq_left]
  rw [eq_comm]

/-- There are as many slots as there were values at most. -/
theorem isGreatest_sizes (run : List (Call α)) :
    IsGreatest ((empty : Arena α).sizes run) ((empty : Arena α).after run).slots.size := by
  induction run using List.reverseRecOn with
  | nil =>
      rw [sizes_nil]
      exact isGreatest_singleton
  | append_singleton run call ih =>
      have hstep := (counted_empty.after run).slots_size_next call
      rw [sizes_concat, after_append, after_cons, after_nil, hstep]
      exact ih.insert _

/-- All that an arena keeps besides its slots, and all that it answers about them as a whole, agrees with
the slots. -/
structure Exact (a : Arena α) : Prop extends a.Counted where
  length_eq : a.toList.length = a.size
  increasing : a.toList.Pairwise fun e f => e.1.index < f.1.index
  mem_iff : ∀ x v, (x, v) ∈ a.toList ↔ a.get? x = some v

theorem Counted.exact (h : a.Counted) : a.Exact where
  toCounted := h
  length_eq := by rw [length_toList, h.size_eq]
  increasing := pairwise_toList a
  mem_iff _ _ := mem_toList_iff

/-- After every run of a new arena, with whatever identities, the vacant list names each vacant slot once
and no other one, the size is the number of occupied slots, the list of the values has this length, goes
up in the slots and holds what each identity stands for, and there are as many slots as there were values
at most at some time of the run. -/
theorem bookkeeping_exact {start : Arena α} (hstart : start = empty ∨ ∃ n, start = withCapacity n)
    (run : List (Call α)) :
    (start.after run).Exact ∧ IsGreatest (start.sizes run) (start.after run).slots.size := by
  obtain rfl : start = empty := by
    obtain rfl | ⟨n, rfl⟩ := hstart
    · rfl
    · rfl
  exact ⟨(counted_empty.after run).exact, isGreatest_sizes run⟩

/-- Two values come and go with stale and foreign identities in between, a third one takes the slot that
was vacated last, and a clearing leaves three slots, of which the next value takes the last. -/
theorem bookkeeping_exact_reused_slots :
    let start : Arena String := withCapacity 8
    let early : List (Call String) := [.insert "a", .insert "b", .insert "c", .remove ⟨1, 0⟩,
      .remove ⟨1, 0⟩, .remove ⟨7, 3⟩, .remove ⟨0, 0⟩, .insert "d"]
    let run := early ++ [.clear, .insert "e"]
    (start = empty ∨ ∃ n, start = withCapacity n) ∧ (start.after early).vacant = [1] ∧
      (start.after early).size = 2 ∧
      (start.after early).toList = [(⟨0, 1⟩, "d"), (⟨2, 0⟩, "c")] ∧
      (start.after run).vacant = [1, 0] ∧ (start.after run).toList = [(⟨2, 1⟩, "e")] ∧
      (start.after run).Exact ∧ (start.after run).slots.size = 3 ∧
      IsGreatest (start.sizes run) 3 := by
  intro start early run
  have hstart : start = empty ∨ ∃ n, start = withCapacity n := .inr ⟨8, rfl⟩
  obtain ⟨hexact, hgreatest⟩ := bookkeeping_exact hstart run
  have hslots : (start.after run).slots.size = 3 := by decide +kernel
  exact ⟨hstart, by decide +kernel, by decide +kernel, by decide +kernel, by decide +kernel,
    by decide +kernel, hexact, hslots, hslots ▸ hgreatest⟩

end TieredCache.Arena
