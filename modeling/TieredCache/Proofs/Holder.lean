import Mathlib.Data.List.Basic
import TieredCache.Holder

/-!
# The registry's account of holders

A registry issues holders and knows each of them by its number, so two issued holders of one number
are one holder. A change that is made on behalf of some keys leaves the holders of all other keys as
they are; such changes compose.
-/

namespace TieredCache.Registry

variable {κ : Type} {reg : Registry κ} {h x y : Holder κ}

/-- The registry issued a holder of this number for this key. -/
def Issued (reg : Registry κ) (h : Holder κ) : Prop :=
  (reg.states[h.id]?).map (·.key) = some h.key

theorem Issued.lt_size (hx : reg.Issued x) : x.id < reg.states.size := by
  rw [Issued, Option.map_eq_some_iff] at hx
  obtain ⟨state, hstate, -⟩ := hx
  exact (Array.getElem?_eq_some_iff.mp hstate).1

theorem Issued.eq_of_id_eq (hx : reg.Issued x) (hy : reg.Issued y) (hid : x.id = y.id) : x = y := by
  obtain ⟨i, k⟩ := x
  obtain ⟨j, m⟩ := y
  obtain rfl : i = j := hid
  have hkey : some k = some m := hx.symm.trans hy
  rw [Option.some.inj hkey]

/-- A holder is told from an issued one by its number. -/
theorem Issued.ne_iff (hx : reg.Issued x) (hy : reg.Issued y) : x ≠ y ↔ x.id ≠ y.id := by
  constructor
  · intro hne hid
    exact hne (hx.eq_of_id_eq hy hid)
  · rintro hid rfl
    exact hid rfl

/-! ## A fresh holder -/

theorem not_issued_empty : ¬ (empty : Registry κ).Issued x := by
  simp [Issued, empty]

theorem issued_issue_iff (reg : Registry κ) (k : κ) (v : Option (Entity κ)) :
    (reg.issue k v).2.Issued x ↔ reg.Issued x ∨ x = (reg.issue k v).1 := by
  obtain ⟨i, m⟩ := x
  simp only [Issued, issue, Array.getElem?_push, Holder.mk.injEq]
  by_cases hi : i = reg.states.size
  · simp [hi, eq_comm]
  · simp [hi]

theorem state_issue_of_issued (hx : reg.Issued x) (k : κ) (v : Option (Entity κ)) :
    (reg.issue k v).2.state x = reg.state x := by
  have hne : x.id ≠ reg.states.size := Nat.ne_of_lt hx.lt_size
  simp [state, issue, Array.getElem?_push, hne]

theorem state_fst_issue (reg : Registry κ) (k : κ) (v : Option (Entity κ)) :
    (reg.issue k v).2.state (reg.issue k v).1 = ⟨k, v, .uncached⟩ := by
  simp [state, issue]

/-! ## Changes in place -/

@[simp]
theorem issued_place_iff {p : Placement} : (reg.place h p).Issued x ↔ reg.Issued x := by
  simp only [Issued, place, Array.getElem?_modify]
  split <;> simp [Option.map_map, Function.comp_def]

@[simp]
theorem issued_setValue_iff {v : Option (Entity κ)} :
    (reg.setValue h v).Issued x ↔ reg.Issued x := by
  simp only [Issued, setValue, Array.getElem?_modify]
  split <;> simp [Option.map_map, Function.comp_def]

@[simp]
theorem issued_release_iff {gone : List (Holder κ)} :
    (reg.release gone).Issued x ↔ reg.Issued x := by
  induction gone generalizing reg with
  | nil => rfl
  | cons h rest ih => exact ih.trans issued_place_iff

theorem placement_place (hx : reg.Issued x) (h : Holder κ) (p : Placement) :
    (reg.place h p).placement x = if x.id = h.id then p else reg.placement x := by
  rw [placement, state_place]
  by_cases hid : x.id = h.id
  · rw [if_pos hid, if_pos ⟨hid.symm, hx.lt_size⟩]
  · rw [if_neg hid, if_neg fun hboth => hid hboth.1.symm]
    rfl

theorem placement_release (hx : reg.Issued x) (gone : List (Holder κ)) :
    (reg.release gone).placement x =
      if x.id ∈ gone.map (·.id) then .uncached else reg.placement x := by
  induction gone generalizing reg with
  | nil => simp [release]
  | cons h rest ih =>
      have hplaced : (reg.place h .uncached).Issued x := issued_place_iff.mpr hx
      refine (ih hplaced).trans ?_
      rw [placement_place hx]
      by_cases hid : x.id = h.id <;> simp [hid]

theorem value?_setValue (hx : reg.Issued x) (h : Holder κ) (v : Option (Entity κ)) :
    (reg.setValue h v).value? x = if x.id = h.id then v else reg.value? x := by
  rw [value?, state_setValue]
  by_cases hid : x.id = h.id
  · rw [if_pos hid, if_pos ⟨hid.symm, hx.lt_size⟩]
  · rw [if_neg hid, if_neg fun hboth => hid hboth.1.symm]
    rfl

@[simp]
theorem size_place (reg : Registry κ) (h : Holder κ) (p : Placement) :
    (reg.place h p).states.size = reg.states.size :=
  Array.size_modify

@[simp]
theorem size_setValue (reg : Registry κ) (h : Holder κ) (v : Option (Entity κ)) :
    (reg.setValue h v).states.size = reg.states.size :=
  Array.size_modify

@[simp]
theorem size_issue (reg : Registry κ) (k : κ) (v : Option (Entity κ)) :
    (reg.issue k v).2.states.size = reg.states.size + 1 :=
  Array.size_push _

/-- No holder is new, and what is known of each key stays. -/
structure SameValues (reg reg' : Registry κ) : Prop where
  size_eq : reg'.states.size = reg.states.size
  value?_eq : ∀ x, reg'.value? x = reg.value? x

namespace SameValues

variable {reg' reg'' : Registry κ}

theorem refl (reg : Registry κ) : SameValues reg reg where
  size_eq := rfl
  value?_eq _ := rfl

theorem trans (h : SameValues reg reg') (h' : SameValues reg' reg'') : SameValues reg reg'' where
  size_eq := h'.size_eq.trans h.size_eq
  value?_eq x := (h'.value?_eq x).trans (h.value?_eq x)

theorem place (reg : Registry κ) (h : Holder κ) (p : Placement) :
    SameValues reg (reg.place h p) where
  size_eq := size_place reg h p
  value?_eq x := value?_place reg h x p

theorem release (reg : Registry κ) (gone : List (Holder κ)) : SameValues reg (reg.release gone) where
  size_eq := by
    induction gone generalizing reg with
    | nil => rfl
    | cons h rest ih => exact (ih _).trans (size_place reg h .uncached)
  value?_eq x := value?_release reg gone x

end SameValues

/-- One holder carries `v` now, and what the others carry stays. -/
structure Writes (reg reg' : Registry κ) (h : Holder κ) (v : Option (Entity κ)) : Prop where
  value?_self : reg'.value? h = v
  value?_of_ne : ∀ x, x.id ≠ h.id → reg'.value? x = reg.value? x

namespace Writes

variable {reg' reg'' : Registry κ} {v : Option (Entity κ)}

theorem issue (reg : Registry κ) (k : κ) (v : Option (Entity κ)) :
    Writes reg (reg.issue k v).2 (reg.issue k v).1 v where
  value?_self := by rw [value?, state_fst_issue]
  value?_of_ne x hx := by
    have hne : x.id ≠ reg.states.size := hx
    simp [value?, state, Registry.issue, Array.getElem?_push, hne]

theorem setValue (hh : reg.Issued h) (v : Option (Entity κ)) :
    Writes reg (reg.setValue h v) h v where
  value?_self := by rw [value?_setValue hh, if_pos rfl]
  value?_of_ne x hx := by
    rw [value?, state_setValue, if_neg fun hid => hx hid.1.symm]
    rfl

theorem of_sameValues (hreg : SameValues reg reg') (h : Holder κ) :
    Writes reg reg' h (reg.value? h) where
  value?_self := hreg.value?_eq h
  value?_of_ne x _ := hreg.value?_eq x

theorem of_same_before (hreg : SameValues reg reg') (hreg' : Writes reg' reg'' h v) :
    Writes reg reg'' h v where
  value?_self := hreg'.value?_self
  value?_of_ne x hx := (hreg'.value?_of_ne x hx).trans (hreg.value?_eq x)

theorem trans_sameValues (hreg : Writes reg reg' h v) (hreg' : SameValues reg' reg'') :
    Writes reg reg'' h v where
  value?_self := (hreg'.value?_eq h).trans hreg.value?_self
  value?_of_ne x hx := (hreg'.value?_eq x).trans (hreg.value?_of_ne x hx)

end Writes

/-! ## Changes on behalf of some keys -/

/-- A change of the registry on behalf of the keys `mine`: every holder stays issued, the new ones are
for keys of `mine`, and what is known of a holder of any other key stays. -/
structure Within (mine : κ → Prop) (reg reg' : Registry κ) : Prop where
  issued : ∀ {x}, reg.Issued x → reg'.Issued x
  fresh : ∀ {x}, reg'.Issued x → reg.Issued x ∨ mine x.key
  state_eq : ∀ {x}, reg.Issued x → ¬ mine x.key → reg'.state x = reg.state x

namespace Within

variable {mine : κ → Prop} {reg' reg'' : Registry κ}

theorem refl (mine : κ → Prop) (reg : Registry κ) : Within mine reg reg where
  issued hx := hx
  fresh hx := .inl hx
  state_eq _ _ := rfl

theorem trans (h : Within mine reg reg') (h' : Within mine reg' reg'') : Within mine reg reg'' where
  issued hx := h'.issued (h.issued hx)
  fresh hx := by
    rcases h'.fresh hx with hx | hx
    · exact h.fresh hx
    · exact .inr hx
  state_eq hx hmine := (h'.state_eq (h.issued hx) hmine).trans (h.state_eq hx hmine)

theorem mono {wider : κ → Prop} (h : Within mine reg reg') (hw : ∀ k, mine k → wider k) :
    Within wider reg reg' where
  issued := h.issued
  fresh hx := (h.fresh hx).imp_right (hw _)
  state_eq hx hnot := h.state_eq hx fun hmine => hnot (hw _ hmine)

theorem issue {k : κ} (hk : mine k) (v : Option (Entity κ)) :
    Within mine reg (reg.issue k v).2 where
  issued hx := (issued_issue_iff reg k v).mpr (.inl hx)
  fresh hx := by
    rcases (issued_issue_iff reg k v).mp hx with hx | rfl
    · exact .inl hx
    · exact .inr hk
  state_eq hx _ := state_issue_of_issued hx k v

theorem place (hh : reg.Issued h) (hk : mine h.key) (p : Placement) :
    Within mine reg (reg.place h p) where
  issued hx := issued_place_iff.mpr hx
  fresh hx := .inl (issued_place_iff.mp hx)
  state_eq {x} hx hmine := by
    have hne : h ≠ x := fun he => hmine (he ▸ hk)
    rw [state_place, if_neg fun hid => (hh.ne_iff hx).mp hne hid.1]

theorem setValue (hh : reg.Issued h) (hk : mine h.key) (v : Option (Entity κ)) :
    Within mine reg (reg.setValue h v) where
  issued hx := issued_setValue_iff.mpr hx
  fresh hx := .inl (issued_setValue_iff.mp hx)
  state_eq {x} hx hmine := by
    have hne : h ≠ x := fun he => hmine (he ▸ hk)
    rw [state_setValue, if_neg fun hid => (hh.ne_iff hx).mp hne hid.1]

theorem release {gone : List (Holder κ)} (hgone : ∀ h ∈ gone, reg.Issued h ∧ mine h.key) :
    Within mine reg (reg.release gone) := by
  induction gone generalizing reg with
  | nil => exact refl mine reg
  | cons h rest ih =>
      obtain ⟨hh, hk⟩ := hgone h List.mem_cons_self
      refine (place hh hk .uncached).trans (ih fun x hx => ?_)
      obtain ⟨hissued, hmine⟩ := hgone x (List.mem_cons_of_mem h hx)
      exact ⟨issued_place_iff.mpr hissued, hmine⟩

end Within

end TieredCache.Registry
