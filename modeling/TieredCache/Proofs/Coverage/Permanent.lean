import TieredCache.Coverage.Permanent
import TieredCache.Proofs.OrderedMap

/-!
# What permanent certifications cover

No stored key covers another one. What is covered is therefore what one of the stored keys covers, and a
key that is added covers what it covers besides what was covered before.
-/

namespace TieredCache.PermanentCoverage

variable {κ : Type} [Key κ] {c : PermanentCoverage κ} {k x : κ}

theorem antichain_empty : (empty : PermanentCoverage κ).index.Antichain := by
  intro a b ha
  simp [empty] at ha

theorem add_of_covers (hk : c.covers k = true) : c.add k = (false, c) :=
  if_pos hk

/-- A certification tells whether its key was not covered before. -/
theorem fst_add (c : PermanentCoverage κ) (k : κ) : (c.add k).1 = !c.covers k := by
  rw [add]
  cases c.covers k <;> rfl

variable [OrderedKey κ]

/-- A key that is not covered comes in place of those that it covers. -/
theorem find?_add (hk : c.covers k = false) (x : κ) :
    (c.add k).2.index.find? x = if compare k x = .eq then some ()
      else if Key.covers k x then none else c.index.find? x := by
  have hindex : (c.add k).2.index =
      ((c.index.under k).foldl (fun m e => m.erase e.1) c.index).insert k () := by
    rw [add, if_neg (by simp [hk])]
  rw [hindex, OrderedMap.find?_insert]
  split
  next => rfl
  next =>
    refine Option.ext fun _ => ?_
    rw [OrderedMap.find?_foldl_erase_eq_some_iff]
    constructor
    · rintro ⟨hx, hfind⟩
      rw [if_neg, hfind]
      intro hcov
      exact hx (List.mem_map_of_mem (OrderedMap.mem_under_iff.mpr ⟨hfind, hcov⟩))
    · intro hx
      split at hx
      next => cases hx
      next hcov =>
        refine ⟨fun hmem => hcov ?_, hx⟩
        obtain ⟨e, he, rfl⟩ := List.mem_map.mp hmem
        exact (OrderedMap.mem_under_iff.mp he).2

/-- What is stored after an addition is the key, or was stored before and is not covered by it. -/
theorem of_isSome_find?_add (hk : c.covers k = false)
    (hx : ((c.add k).2.index.find? x).isSome) :
    x = k ∨ (c.index.find? x).isSome ∧ ¬ Key.covers k x := by
  rw [find?_add hk] at hx
  split at hx
  next heq => exact .inl (Std.compare_eq_iff_eq.mp heq).symm
  next =>
    split at hx
    next => cases hx
    next hcov => exact .inr ⟨hx, hcov⟩

theorem isSome_find?_add_self (hk : c.covers k = false) : ((c.add k).2.index.find? k).isSome := by
  rw [find?_add hk, if_pos Std.compare_self]
  rfl

theorem covers_iff (h : c.index.Antichain) :
    c.covers k = true ↔ ∃ p, (c.index.find? p).isSome ∧ Key.covers p k :=
  OrderedMap.isSome_covering?_iff h

theorem antichain_add (h : c.index.Antichain) (k : κ) : (c.add k).2.index.Antichain := by
  cases hk : c.covers k with
  | true =>
      rw [add_of_covers hk]
      exact h
  | false =>
      apply h.replace
      · intro a ha hcov
        rw [(covers_iff h).mpr ⟨a, ha, hcov⟩] at hk
        cases hk
      · intro a ha
        exact of_isSome_find?_add hk ha

omit [OrderedKey κ] in
/-- A certification covers what its key covers, and nothing that was covered is given up. -/
theorem covers_add_iff [LawfulKey κ] (h : c.index.Antichain) :
    (c.add k).2.covers x = true ↔ c.covers x = true ∨ Key.covers k x := by
  cases hk : c.covers k with
  | true =>
      rw [add_of_covers hk, or_iff_left_of_imp]
      intro hx
      obtain ⟨p, hp, hcov⟩ := (covers_iff h).mp hk
      exact (covers_iff h).mpr ⟨p, hp, LawfulKey.covers_trans hcov hx⟩
  | false =>
      rw [covers_iff (antichain_add h k), covers_iff h]
      constructor
      · rintro ⟨p, hp, hcov⟩
        rcases of_isSome_find?_add hk hp with rfl | ⟨hp, -⟩
        · exact .inr hcov
        · exact .inl ⟨p, hp, hcov⟩
      · rintro (⟨p, hp, hcov⟩ | hx)
        · by_cases hkp : Key.covers k p
          · exact ⟨k, isSome_find?_add_self hk, LawfulKey.covers_trans hkp hcov⟩
          · refine ⟨p, ?_, hcov⟩
            rw [find?_add hk, if_neg hkp]
            split
            next => rfl
            next => exact hp
        · exact ⟨k, isSome_find?_add_self hk, hx⟩

end TieredCache.PermanentCoverage
