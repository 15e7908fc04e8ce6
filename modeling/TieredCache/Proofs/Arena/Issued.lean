import TieredCache.Proofs.Arena

/-!
# Identities that were handed out

Slots and generations of an arena only move on, so the arena itself tells which identities it has handed
out so far. An insertion hands out one that was not, and nothing else changes which ones were.
-/

namespace TieredCache

namespace Slot

variable {α : Type} {s : Slot α} {n : Nat}

/-- The slot has held a value at a generation: it has moved on from there, or holds the value now. -/
def Held (s : Slot α) (n : Nat) : Prop :=
  n < s.generation ∨ n = s.generation ∧ s.content.isSome

theorem held_vacate (h : s.content.isSome) : s.vacate.Held n ↔ s.Held n := by
  simp only [Held, vacate, h]
  grind

theorem held_clear : s.clear.Held n ↔ s.Held n := by
  rw [clear]
  split
  next h => exact held_vacate h
  next => rfl

theorem held_map (f : α → α) : ({ s with content := s.content.map f } : Slot α).Held n ↔ s.Held n := by
  simp [Held]

theorem held_fill (h : s.content = none) (v : α) :
    ({ s with content := some v } : Slot α).Held n ↔ n = s.generation ∨ s.Held n := by
  simp only [Held, h]
  grind

end Slot

namespace Arena

variable {α : Type} {a b : Arena α} {x : SlotId}

/-- The identity has been handed out. -/
def Issued (a : Arena α) (x : SlotId) : Prop :=
  ∃ s, a.slots[x.index]? = some s ∧ s.Held x.generation

theorem not_issued_empty : ¬ (empty : Arena α).Issued x := by
  rintro ⟨s, hs, -⟩
  simp [empty] at hs

/-- An identity that stands for a value was handed out. -/
theorem issued_of_get? {v : α} (h : a.get? x = some v) : a.Issued x :=
  ⟨_, get?_eq_some_iff.mp h, .inr ⟨rfl, rfl⟩⟩

/-- A change of one slot that leaves open at which generations it has held a value. -/
theorem issued_modify {i : Nat} {f : Slot α → Slot α} (hb : b.slots = a.slots.modify i f)
    (hf : ∀ s, a.slots[i]? = some s → ∀ n, (f s).Held n ↔ s.Held n) : b.Issued x ↔ a.Issued x := by
  simp only [Issued, hb, Array.getElem?_modify]
  by_cases hi : i = x.index
  · subst hi
    cases hs : a.slots[x.index]? with
    | none => simp
    | some s => simpa using hf s hs x.generation
  · simp [hi]

theorem issued_modify? {f : α → α} (h : a.modify? x f = some b) (y : SlotId) :
    b.Issued y ↔ a.Issued y := by
  unfold modify? at h
  split at h
  next =>
    cases h
    exact issued_modify rfl fun _ _ _ => Slot.held_map f
  next => cases h

theorem issued_remove (a : Arena α) (x y : SlotId) : (a.remove x).2.Issued y ↔ a.Issued y := by
  unfold remove
  split
  next => rfl
  next v hv =>
    apply issued_modify rfl
    intro s hs n
    have hslot := get?_eq_some_iff.mp hv
    cases hs.symm.trans hslot
    exact Slot.held_vacate rfl

theorem issued_clear (a : Arena α) (y : SlotId) : a.clear.Issued y ↔ a.Issued y := by
  simp only [Issued, clear, Array.getElem?_map, Option.map_eq_some_iff, exists_exists_and_eq_and,
    Slot.held_clear]

/-- The identity that an insertion hands out was not handed out before. -/
theorem not_issued_fst_insert (h : a.WellFormed) (v : α) : ¬ a.Issued (a.insert v).1 := by
  unfold insert
  split
  next =>
    rintro ⟨s, hs, -⟩
    simp at hs
  next index rest hv =>
    obtain ⟨s, hs, hnone⟩ := (h.mem_vacant_iff index).mp (by simp [hv])
    rintro ⟨t, ht, hheld⟩
    cases ht.symm.trans hs
    simp [Slot.Held, hs, hnone] at hheld

/-- An insertion hands out one more identity. -/
theorem issued_insert_iff (h : a.WellFormed) (v : α) (y : SlotId) :
    (a.insert v).2.Issued y ↔ y = (a.insert v).1 ∨ a.Issued y := by
  obtain ⟨index, generation⟩ := y
  unfold insert
  split
  next hv =>
    simp only [Issued, Array.getElem?_push, SlotId.mk.injEq]
    by_cases hi : index = a.slots.size
    · simp [hi, Slot.Held]
    · simp [hi]
  next i rest hv =>
    obtain ⟨s, hs, hnone⟩ := (h.mem_vacant_iff i).mp (by simp [hv])
    simp only [Issued, Array.getElem?_modify, SlotId.mk.injEq]
    by_cases hi : i = index
    · subst hi
      simp [hs, Slot.held_fill hnone]
    · simp [hi, Ne.symm hi]

end Arena

end TieredCache
