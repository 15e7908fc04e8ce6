import TieredCache.Proofs.Cache.Lasting
import TieredCache.Proofs.Coverage.Lifetime

/-!
# Certifications along runs of look-ups

A scan refreshes the certification of the range that it belongs to. If every scan of a part of the range
has the key in its part, no certification of the key is refreshed after the holder of the key, and since
certifications live shorter than holders, a certified key has its holder.
-/

namespace TieredCache.Cache

open Shard

variable {κ : Type} [Key κ]

/-- A scan of a part of the range `p` has the key `k` in its part. -/
def Op.Spans (p k : κ) : Op κ → Answer κ → Prop
  | .getAll q, .holders (some _) => Key.covers p q → Key.covers q k
  | _, _ => True

namespace World

variable {w : World κ} {op : Op κ} {ops : List (Op κ)} {k p q : κ} {x : Holder κ}
  {value : Entity κ} {t : Nat}

/-- The time of the last refresh of a live certification. -/
def live? (w : World κ) (q : κ) : Option Nat :=
  w.cache.coverage.live? w.now q

/-- Every live certification that covers a key is that of one range, and was last refreshed no later
than some time. -/
def Vouched (w : World κ) (p k : κ) (t : Nat) : Prop :=
  ∀ q s, w.live? q = some s → Key.covers q k → q = p ∧ s ≤ t

section Certifications

variable (hw : w.Aging)

include hw

theorem live?_get [OrderedKey κ] (x q : κ) : (w.step (.get x)).2.live? q = w.live? q := by
  change (w.cache.get w.registry w.now x).2.1.coverage.live? w.now q = w.live? q
  rw [coverage_get]
  split
  next => exact Coverage.Kept.live?_covers hw.certified x false q
  next => rfl

theorem live?_getAll [OrderedKey κ] (x q : κ) : (w.step (.getAll x)).2.live? q =
    if Key.covers q x then (w.live? q).map fun _ => w.now else w.live? q := by
  obtain ⟨_, _, _, hcall, -, hcoverage, -⟩ := Cache.Sound.getAll hw.sound x
  have hstep : (w.step (.getAll x)).2.live? q =
      (w.cache.coverage.covers w.now x true).2.live? w.now q := by
    rw [World.step, hcall]
    exact congrArg (Coverage.live? w.now q) hcoverage
  rw [hstep, Coverage.Kept.live?_covers hw.certified, Bool.true_and]
  rfl

theorem certifies_iff [OrderedKey κ] :
    w.certifies k = true ↔ ∃ q s, w.live? q = some s ∧ Key.covers q k :=
  Coverage.Kept.covers_iff hw.certified hw.expiring k false

/-- A key that is certified was refreshed in time. -/
theorem Vouched.le (h : w.Vouched p k t) (hq : ∃ q s, w.live? q = some s ∧ Key.covers q k) :
    w.now ≤ t + w.cache.config.ttl.nanos := by
  obtain ⟨q, s, hlive, hcov⟩ := hq
  have hshort := Coverage.lifetime_le w.cache.config.ttl
  have hle := Coverage.Kept.le_of_live? hw.certified hlive
  have hst := (h q s hlive hcov).2
  omega

end Certifications

/-! ## Runs without scans that leave the key out -/

/-- A holder lasts, and the certifications of its key are no younger than its last refresh. -/
def Upheld (w : World κ) (p k : κ) (x : Holder κ) (value : Entity κ) : Prop :=
  ∃ t, w.Lasting k x value t ∧ w.Vouched p k t

namespace Upheld

variable (hw : w.Aging)

include hw

theorem get [OrderedKey κ] (h : w.Upheld p k x value) (y : κ) :
    (w.step (.get y)).2.Upheld p k x value := by
  obtain ⟨t, hlasting, hvouched⟩ := h
  have hkept {u : Nat} (hle : t ≤ u) : (w.step (.get y)).2.Vouched p k u := by
    intro q s hq hcov
    rw [live?_get hw] at hq
    obtain ⟨rfl, hs⟩ := hvouched q s hq hcov
    exact ⟨rfl, hs.trans hle⟩
  cases hreach : Op.reaches k (.get y) (w.step (.get y)).1 with
  | false =>
      refine ⟨t, ?_, hkept (Nat.le_refl t)⟩
      exact hlasting.pass hw trivial (Nat.le_refl _) hreach
  | true =>
      by_cases hlive : w.now ≤ t + w.cache.config.ttl.nanos
      · exact ⟨w.now, hlasting.renew hw hreach hlive, hkept hlasting.le⟩
      · obtain ⟨hnow, hvalues, -, hmiss⟩ := hw.sound.step_of_reaches hw.expiring hreach
        have hleads := (hw.sound.step (.get y) fun _ => hnow.ge).1
        have hnone := hlasting.current?_eq
        rw [if_neg hlive] at hnone
        refine ⟨t, ⟨?_, hleads.issued hlasting.issued, ?_, hlasting.le⟩, hkept (Nat.le_refl t)⟩
        · rw [hleads.config_eq, hnow, if_neg hlive]
          refine (hmiss hnone).resolve_right fun hknown => hlive ?_
          exact hvouched.le hw ((certifies_iff hw).mp hknown.1)
        · exact (hvalues hlasting.issued).trans hlasting.value?_eq

theorem getAll [LawfulKey κ] (h : w.Upheld p k x value) (y : κ)
    (hspans : Op.Spans p k (.getAll y) (w.step (.getAll y)).1) :
    (w.step (.getAll y)).2.Upheld p k x value := by
  obtain ⟨t, hlasting, hvouched⟩ := h
  obtain ⟨found, hanswer, hcertified, -⟩ := hw.sound.step_getAll hw.expiring y
  rw [hanswer] at hspans
  have hiff := Coverage.Kept.covers_iff hw.certified hw.expiring y true
  cases hreach : Op.reaches k (.getAll y) (w.step (.getAll y)).1 with
  | false =>
      refine ⟨t, hlasting.pass hw trivial (Nat.le_refl _) hreach, fun q s hq hcov => ?_⟩
      rw [live?_getAll hw] at hq
      split at hq
      next hqy =>
        -- A refresh of the range would have come upon the key as well.
        obtain ⟨s₀, hlive, rfl⟩ := Option.map_eq_some_iff.mp hq
        obtain ⟨rfl, -⟩ := hvouched q s₀ hlive hcov
        have hsome := hcertified.trans (hiff.mpr ⟨q, s₀, hlive, hqy⟩)
        obtain ⟨hs, rfl⟩ := Option.isSome_iff_exists.mp hsome
        rw [hanswer] at hreach
        exact absurd (hspans hqy) (by simpa [Op.reaches] using hreach)
      next => exact hvouched q s hq hcov
  | true =>
      rw [hanswer] at hreach
      cases found with
      | none => cases hreach
      | some hs =>
          have hyk : Key.covers y k = true := hreach
          obtain ⟨q, s, hlive, hqy⟩ := hiff.mp hcertified.symm
          have htime := hvouched.le hw ⟨q, s, hlive, LawfulKey.covers_trans hqy hyk⟩
          rw [← hanswer] at hreach
          refine ⟨w.now, hlasting.renew hw hreach htime, fun q s hq hcov => ?_⟩
          rw [live?_getAll hw] at hq
          split at hq
          next =>
            obtain ⟨s₀, hlive, rfl⟩ := Option.map_eq_some_iff.mp hq
            exact ⟨(hvouched q s₀ hlive hcov).1, Nat.le_refl _⟩
          next =>
            obtain ⟨rfl, hs⟩ := hvouched q s hq hcov
            exact ⟨rfl, hs.trans hlasting.le⟩

theorem step [LawfulKey κ] (h : w.Upheld p k x value) (hlooks : op.Looks)
    (hle : w.now ≤ (w.step op).2.now) (hspans : op.Spans p k (w.step op).1) :
    (w.step op).2.Upheld p k x value := by
  cases op with
  | get y => exact h.get hw y
  | getAll y => exact h.getAll hw y hspans
  | advance d =>
      obtain ⟨t, hlasting, hvouched⟩ := h
      refine ⟨t, hlasting.pass hw trivial hle rfl, fun q s hq hcov => ?_⟩
      exact hvouched q s (Coverage.live?_of_later hle hq) hcov
  | _ => exact hlooks.elim

theorem after [LawfulKey κ] (h : w.Upheld p k x value) (hlooks : ∀ op ∈ ops, op.Looks)
    (hops : w.Timely ops) (hspans : ∀ e ∈ ops.zip (w.answers ops), e.1.Spans p k e.2) :
    (w.after ops).Upheld p k x value := by
  induction ops generalizing w with
  | nil => exact h
  | cons op rest ih =>
      rw [answers, List.zip_cons_cons, List.forall_mem_cons] at hspans
      rw [List.forall_mem_cons] at hlooks
      apply ih (hw.step hops.1) _ hlooks.2 hops.2 hspans.2
      exact h.step hw hlooks.1 hops.1 hspans.1

/-- A scan that answers for a range with the key answers the holder. -/
theorem mem_getAll [LawfulKey κ] (h : w.Upheld p x.key x value) {hs : List (Holder κ)}
    (hq : Key.covers q x.key) (hanswer : (w.step (.getAll q)).1 = .holders (some hs)) :
    x ∈ hs ∧ (w.step (.getAll q)).2.registry.value? x = some value := by
  obtain ⟨t, hlasting, hvouched⟩ := h
  obtain ⟨found, hfound, hcertified, -⟩ := hw.sound.step_getAll hw.expiring q
  cases hfound.symm.trans hanswer
  obtain ⟨y, s, hlive, hyq⟩ :=
    (Coverage.Kept.covers_iff hw.certified hw.expiring q true).mp hcertified.symm
  have htime := hvouched.le hw ⟨y, s, hlive, LawfulKey.covers_trans hyq hq⟩
  have hcurrent := hlasting.current?_eq.trans (if_pos htime)
  obtain ⟨hmem, hsame⟩ := hw.mem_getAll_of_current hcurrent hq hanswer
  exact ⟨hmem, hsame.trans hlasting.value?_eq⟩

/-- A look-up of the key does not answer a tombstone. -/
theorem isTombstone_get [OrderedKey κ] (h : w.Upheld p k x value) {y : Holder κ}
    (hanswer : (w.step (.get k)).1 = .holder (some y)) :
    (w.step (.get k)).2.registry.isTombstone y = false := by
  obtain ⟨t, hlasting, hvouched⟩ := h
  by_cases htime : w.now ≤ t + w.cache.config.ttl.nanos
  · have hcurrent := hlasting.current?_eq.trans (if_pos htime)
    obtain ⟨rfl, hvalue⟩ := hw.eq_of_get_current hcurrent hanswer
    rw [Registry.isTombstone, hvalue, hlasting.value?_eq]
    rfl
  · obtain ⟨found, hfound, -, -, -, hmiss⟩ := hw.sound.step_get k
    rcases hmiss (hlasting.current?_eq.trans (if_neg htime)) with rfl | ⟨hknown, -⟩
    · cases hfound.symm.trans hanswer
    · exact absurd (hvouched.le hw ((certifies_iff hw).mp hknown)) htime

end Upheld

end World

end TieredCache.Cache
