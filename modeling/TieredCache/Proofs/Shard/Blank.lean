import TieredCache.Proofs.Holder
import TieredCache.Shard

/-!
# Expiring holders without values

A canonical cache writes values to the permanent tier alone, so that every holder in the expiring tier
is a tombstone. In between, a write gives a value to a holder before it moves the holder to the
permanent tier, so the statement also comes with an exception for one holder.
-/

namespace TieredCache

namespace Registry

variable {κ : Type} {reg : Registry κ} {h x : Holder κ}

/-- Every other holder that is recorded as expiring is a tombstone. -/
def BlankBut (reg : Registry κ) (h : Holder κ) : Prop :=
  ∀ x, x.id ≠ h.id → reg.placement x = .expiring → reg.value? x = none

/-- Every holder that is recorded as expiring is a tombstone. -/
def Blank (reg : Registry κ) : Prop :=
  ∀ x, reg.placement x = .expiring → reg.value? x = none

theorem Blank.but (hreg : reg.Blank) (h : Holder κ) : reg.BlankBut h :=
  fun x _ => hreg x

theorem blank_empty : (empty : Registry κ).Blank := by
  intro x hx
  cases hx

/-- What is recorded of a holder that is indexed depends on its number alone. -/
theorem state_eq_of_id_eq (hid : x.id = h.id) (hx : reg.placement x ≠ .uncached) :
    reg.state x = reg.state h := by
  rw [placement, state] at hx
  rw [state, state, ← hid]
  cases hstate : reg.states[x.id]? with
  | none => simp [hstate] at hx
  | some state => rfl

/-- The exception counts for nothing if it is not recorded as expiring, or has no value. -/
theorem BlankBut.blank (hreg : reg.BlankBut h)
    (hh : reg.placement h = .expiring → reg.value? h = none) : reg.Blank := by
  intro x hx
  by_cases hid : x.id = h.id
  · have hindexed : reg.placement x ≠ .uncached := by simp [hx]
    have hstate := state_eq_of_id_eq hid hindexed
    rw [placement, hstate] at hx
    rw [value?, hstate]
    exact hh hx
  · exact hreg x hid hx

/-- A holder is placed in the expiring tier only without a value. -/
theorem BlankBut.place (hreg : reg.BlankBut h) {p : Placement}
    (hp : p = .expiring → reg.value? h = none) : (reg.place h p).Blank := by
  have hstate (x : Holder κ) := state_place reg h x p
  have hothers : (reg.place h p).BlankBut h := by
    intro x hid hx
    rw [value?_place]
    rw [placement, hstate, if_neg fun hboth => hid hboth.1.symm] at hx
    exact hreg x hid hx
  apply hothers.blank
  intro hh
  rw [value?_place]
  rw [placement, hstate] at hh
  split at hh
  next => exact hp hh
  next hsize =>
    -- A holder without a state is recorded as uncached.
    have hnone : reg.states[h.id]? = none := by simpa using hsize
    simp [state, hnone] at hh

theorem BlankBut.release (hreg : reg.BlankBut h) (gone : List (Holder κ)) :
    (reg.release gone).BlankBut h := by
  induction gone generalizing reg with
  | nil => exact hreg
  | cons g rest ih =>
      apply ih
      intro x hid hx
      rw [value?_place]
      rw [placement, state_place] at hx
      split at hx
      next => cases hx
      next => exact hreg x hid hx

theorem Blank.release (hreg : reg.Blank) (gone : List (Holder κ)) : (reg.release gone).Blank := by
  induction gone generalizing reg with
  | nil => exact hreg
  | cons g rest ih => exact ih ((hreg.but g).place nofun)

theorem Blank.setValue (hreg : reg.Blank) (h : Holder κ) (v : Option (Entity κ)) :
    (reg.setValue h v).BlankBut h := by
  intro x hid hx
  rw [placement_setValue] at hx
  rw [value?, state_setValue, if_neg fun hboth => hid hboth.1.symm]
  exact hreg x hx

theorem Blank.issue (hreg : reg.Blank) (k : κ) (v : Option (Entity κ)) :
    (reg.issue k v).2.Blank := by
  have hothers : (reg.issue k v).2.BlankBut (reg.issue k v).1 := by
    intro x hid hx
    have hne : x.id ≠ reg.states.size := hid
    have hstate : (reg.issue k v).2.state x = reg.state x := by
      simp [state, Registry.issue, Array.getElem?_push, hne]
    rw [placement, hstate] at hx
    rw [value?, hstate]
    exact hreg x hx
  apply hothers.blank
  intro hh
  rw [placement, state_fst_issue] at hh
  cases hh

end Registry

open Registry

variable {κ : Type} [Key κ] {reg : Registry κ} {h : Holder κ} {now : Nat} {k : κ}

/-! ## Stores -/

theorem PermanentStore.blank_insert (s : PermanentStore κ) (hreg : reg.BlankBut h) :
    (s.insert reg h).2.Blank := by
  have hplaced : (reg.place h .permanent).Blank := hreg.place nofun
  exact hplaced.release _

theorem ExpiringStore.blank_insert (s : ExpiringStore κ) (hreg : reg.BlankBut h)
    (hh : reg.value? h = none) : (s.insert reg now h).2.Blank := by
  have hplaced : (reg.place h .expiring).Blank := hreg.place fun _ => hh
  rw [ExpiringStore.insert]
  cases s.index.find? h.key with
  | none => exact hplaced
  | some previous => exact hplaced.release _

theorem ExpiringStore.blankBut_remove (s : ExpiringStore κ) (hreg : reg.BlankBut h) :
    (s.remove reg k).2.2.BlankBut h := by
  rw [ExpiringStore.remove]
  cases s.index.find? k with
  | none => exact hreg
  | some handle => exact hreg.release _

theorem ExpiringStore.blank_remove (s : ExpiringStore κ) (hreg : reg.Blank) :
    (s.remove reg k).2.2.Blank := by
  rw [ExpiringStore.remove]
  cases s.index.find? k with
  | none => exact hreg
  | some handle => exact hreg.release _

/-! ## Shards -/

namespace Shard

theorem blank_expire (s : Shard κ) (hreg : reg.Blank) : (s.expire reg now).2.2.Blank :=
  hreg.release _

theorem blank_create (s : Shard κ) (hreg : reg.Blank) {v : Option (Entity κ)} {expiring : Bool}
    (hv : expiring = true → v = none) : (s.create reg now k v expiring).2.2.Blank := by
  have hissued : (reg.issue k v).2.BlankBut (reg.issue k v).1 := (hreg.issue k v).but _
  cases expiring with
  | false => exact s.permanent.blank_insert hissued
  | true =>
      apply s.expiring.blank_insert hissued
      rw [value?, state_fst_issue]
      exact hv rfl

/-- A holder that is moved or stays in the expiring tier has no value. -/
theorem blank_align (s : Shard κ) (hreg : reg.BlankBut h) (now : Nat) {expiring : Bool}
    (hh : expiring = true → reg.value? h = none) :
    match s.align reg now h expiring with
    | .ok (_, reg') => reg'.Blank
    | .error _ => reg.Blank := by
  have hasked (hflag : (expiring || reg.isTombstone h) = true) : reg.value? h = none := by
    rcases Bool.or_eq_true_iff.mp hflag with hexpiring | htombstone
    · exact hh hexpiring
    · exact Option.isNone_iff_eq_none.mp htombstone
  rw [align]
  cases hplaced : reg.placement h with
  | uncached => exact hreg.blank (by simp [hplaced])
  | permanent =>
      cases hflag : expiring || reg.isTombstone h with
      | false => exact hreg.blank (by simp [hplaced])
      | true =>
          apply ExpiringStore.blank_insert _ (hreg.release _)
          exact (value?_release reg _ h).trans (hasked hflag)
  | expiring =>
      cases hflag : expiring || reg.isTombstone h with
      | false => exact PermanentStore.blank_insert _ (s.expiring.blankBut_remove hreg)
      | true => exact hreg.blank fun _ => hasked hflag

theorem blank_get (s : Shard κ) (hreg : reg.Blank) (now : Nat) (k : κ) (negative : Bool) :
    (s.get reg now k negative).2.2.Blank := by
  have hswept : (s.expiring.get reg now k).2.2.Blank := hreg.release _
  rw [get]
  cases s.permanent.get? k with
  | some h => exact hreg
  | none =>
      dsimp only
      split
      next => exact hswept
      next =>
        split
        next => exact blank_create _ hswept fun _ => rfl
        next => exact hswept

theorem blank_getAll (s : Shard κ) (hreg : reg.Blank) (p : κ) (canonical : Bool) :
    (s.getAll reg now p canonical).2.2.Blank := by
  cases canonical with
  | true => exact hreg
  | false => exact hreg.release _

/-- Values are written to the permanent tier alone. -/
theorem blank_write (s : Shard κ) (hreg : reg.Blank) {v : Option (Entity κ)} {expiring : Bool}
    (hv : expiring = true → v = none) {overwrite : Bool} (hover : expiring = true → overwrite = true) :
    (s.write reg now k v expiring overwrite).2.2.Blank := by
  have hswept : (s.expire reg now).2.2.Blank := s.blank_expire hreg
  rw [write]
  generalize s.expire reg now = swept at hswept ⊢
  obtain ⟨count, s₁, reg₁⟩ := swept
  dsimp only at hswept ⊢
  cases s₁.peek? k with
  | none => exact s₁.blank_create hswept hv
  | some h =>
      let reg₂ := if overwrite then reg₁.setValue h v else reg₁
      have hbut : reg₂.BlankBut h := by
        cases overwrite with
        | false => exact hswept.but h
        | true => exact hswept.setValue h v
      have hnone : expiring = true → reg₂.value? h = none := by
        intro hexpiring
        obtain rfl := hv hexpiring
        obtain rfl := hover hexpiring
        change (reg₁.setValue h none).value? h = none
        rw [value?, state_setValue]
        split
        next => rfl
        next hsize =>
          have hstate : reg₁.states[h.id]? = none := by simpa using hsize
          simp [state, hstate]
      have haligned := s₁.blank_align hbut now hnone
      dsimp only
      generalize s₁.align reg₂ now h expiring = moved at haligned ⊢
      cases moved with
      | error fault => exact haligned
      | ok moved => exact haligned

theorem blank_invalidate (s : Shard κ) (hreg : reg.Blank) : (s.invalidate reg k).2.2.Blank := by
  rw [invalidate]
  split
  next store reg' hremove =>
    have hreg' : reg' = (s.permanent.remove reg k).2.2 := by rw [hremove]
    rw [hreg']
    exact hreg.release _
  next => exact s.expiring.blank_remove hreg

end Shard

end TieredCache
