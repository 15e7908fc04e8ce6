import Mathlib.Data.List.Chain
import TieredCache.Proofs.Cache.Lookups

/-!
# Holders along runs of look-ups

A run of look-ups refreshes a holder at the instants at which it comes upon the key. The holder stays as
long as no two of these instants in a row, nor the last one and the present, lie further apart than the
time to live. Once it is given up, look-ups leave nothing but tombstones in its place.
-/

namespace TieredCache.Cache

open Shard

variable {κ : Type} [Key κ]

/-- No two instants in a row lie further apart than a time to live. -/
def Unbroken (ttl : Duration) (times : List Nat) : Prop :=
  times.IsChain fun earlier later => later ≤ earlier + ttl.nanos

instance (ttl : Duration) (times : List Nat) : Decidable (Unbroken ttl times) :=
  inferInstanceAs (Decidable (List.IsChain _ times))

namespace World

variable {w : World κ} {op : Op κ} {ops : List (Op κ)} {k p q : κ} {x : Holder κ}
  {value : Entity κ} {t : Nat}

/-- A holder was last refreshed at the time `t`, and is current until it lapses. -/
structure Lasting (w : World κ) (k : κ) (x : Holder κ) (value : Entity κ) (t : Nat) : Prop where
  current?_eq : w.current? k =
    if w.now ≤ t + w.cache.config.ttl.nanos then some (x, .expiring t) else none
  issued : w.registry.Issued x
  value?_eq : w.registry.value? x = some value
  le : t ≤ w.now

/-- A holder is given up, and what is current in its place is a tombstone. -/
structure Lost (w : World κ) (k : κ) (x : Holder κ) : Prop where
  issued : w.registry.Issued x
  tombstone : ∀ y seat, w.current? k = some (y, seat) → y ≠ x ∧ w.registry.value? y = none

theorem Lasting.lost (h : w.Lasting k x value t) (hlapsed : ¬ w.now ≤ t + w.cache.config.ttl.nanos) :
    w.Lost k x where
  issued := h.issued
  tombstone y seat hy := by
    rw [h.current?_eq, if_neg hlapsed] at hy
    cases hy

variable [OrderedKey κ]

/-! ## Holders along look-ups -/

section Holders

variable (hw : w.Aging)

include hw

/-- A step that passes the key by does not refresh its holder. -/
theorem Lasting.pass (h : w.Lasting k x value t) (hlooks : op.Looks)
    (hle : w.now ≤ (w.step op).2.now) (hpast : op.reaches k (w.step op).1 = false) :
    (w.step op).2.Lasting k x value t := by
  obtain ⟨hvalues, hcurrent⟩ := hw.sound.step_of_not_reaches hw.expiring hlooks hle hpast
  have hleads := (hw.sound.step op fun _ => hle).1
  refine ⟨?_, hleads.issued h.issued, (hvalues h.issued).trans h.value?_eq, h.le.trans hle⟩
  rw [hcurrent, h.current?_eq, hleads.config_eq]
  by_cases hlater : (w.step op).2.now ≤ t + w.cache.config.ttl.nanos
  · rw [if_pos (hle.trans hlater), if_pos hlater, Option.filter_some, if_pos]
    simp only [Seat.lapsed, Bool.not_eq_true', decide_eq_false_iff_not]
    omega
  · rw [if_neg hlater]
    split
    next =>
      rw [Option.filter_some, if_neg]
      simp only [Seat.lapsed, Bool.not_eq_true', decide_eq_false_iff_not]
      omega
    next => rfl

/-- A step that comes upon the key in time refreshes its holder. -/
theorem Lasting.renew (h : w.Lasting k x value t) (hreach : op.reaches k (w.step op).1 = true)
    (hlive : w.now ≤ t + w.cache.config.ttl.nanos) : (w.step op).2.Lasting k x value w.now := by
  obtain ⟨hnow, hvalues, hhit, -⟩ := hw.sound.step_of_reaches hw.expiring hreach
  have hleads := (hw.sound.step op fun _ => hnow.ge).1
  have hcurrent := h.current?_eq
  rw [if_pos hlive] at hcurrent
  refine ⟨?_, hleads.issued h.issued, (hvalues h.issued).trans h.value?_eq, hnow.ge⟩
  rw [hhit x _ hcurrent, hnow, if_pos (Nat.le_add_right _ _)]
  rfl

theorem Lost.step (h : w.Lost k x) (hlooks : op.Looks) (hle : w.now ≤ (w.step op).2.now) :
    (w.step op).2.Lost k x := by
  have hleads := (hw.sound.step op fun _ => hle).1
  refine ⟨hleads.issued h.issued, fun y seat hy => ?_⟩
  have hkept {old : Seat} (hvalues : w.KeepsValues (w.step op).2)
      (hold : w.current? k = some (y, old)) :
      y ≠ x ∧ (w.step op).2.registry.value? y = none := by
    obtain ⟨hne, hnone⟩ := h.tombstone y old hold
    exact ⟨hne, (hvalues (hw.sound.issued_of_current? hold).2).trans hnone⟩
  cases hreach : op.reaches k (w.step op).1 with
  | false =>
      obtain ⟨hvalues, hcurrent⟩ := hw.sound.step_of_not_reaches hw.expiring hlooks hle hreach
      rw [hcurrent, Option.filter_eq_some_iff] at hy
      exact hkept hvalues hy.1
  | true =>
      obtain ⟨-, hvalues, hhit, hmiss⟩ := hw.sound.step_of_reaches hw.expiring hreach
      cases hk : w.current? k with
      | some e =>
          obtain ⟨z, old⟩ := e
          cases (hhit z old hk).symm.trans hy
          exact hkept hvalues hk
      | none =>
          rcases hmiss hk with hnone | ⟨-, z, hfresh, hissued, hvalue⟩
          · cases hnone.symm.trans hy
          · cases hfresh.symm.trans hy
            refine ⟨?_, hvalue⟩
            rintro rfl
            exact hissued h.issued

theorem Lost.after (h : w.Lost k x) (hlooks : ∀ op ∈ ops, op.Looks) (hops : w.Timely ops) :
    (w.after ops).Lost k x := by
  induction ops generalizing w with
  | nil => exact h
  | cons op rest ih =>
      rw [List.forall_mem_cons] at hlooks
      apply ih (hw.step hops.1) _ hlooks.2 hops.2
      exact h.step hw hlooks.1 hops.1

/-- A run of look-ups keeps a holder exactly if it comes upon the key in time again and again. -/
theorem Lasting.after (h : w.Lasting k x value t) (hlooks : ∀ op ∈ ops, op.Looks)
    (hops : w.Timely ops) :
    (Unbroken w.cache.config.ttl (t :: w.reached k ops ++ [(w.after ops).now]) →
        ∃ s, (w.after ops).current? k = some (x, .expiring s) ∧
          (w.after ops).registry.value? x = some value) ∧
      (¬ Unbroken w.cache.config.ttl (t :: w.reached k ops ++ [(w.after ops).now]) →
        (w.after ops).Lost k x) := by
  induction ops generalizing w t with
  | nil =>
      have hpair : Unbroken w.cache.config.ttl (t :: w.reached k [] ++ [(w.after []).now]) ↔
          w.now ≤ t + w.cache.config.ttl.nanos := by
        simp [Unbroken, reached]
      rw [hpair]
      refine ⟨fun hlive => ⟨t, ?_, h.value?_eq⟩, h.lost⟩
      exact h.current?_eq.trans (if_pos hlive)
  | cons op rest ih =>
      rw [List.forall_mem_cons] at hlooks
      have hnext := hw.step hops.1
      have hconfig := hw.config_step hops.1
      rw [after_cons]
      cases hreach : op.reaches k (w.step op).1 with
      | false =>
          have htimes : w.reached k (op :: rest) = (w.step op).2.reached k rest := by
            simp [reached, hreach]
          rw [htimes, ← hconfig]
          exact ih hnext (h.pass hw hlooks.1 hops.1 hreach) hlooks.2 hops.2
      | true =>
          have htimes : w.reached k (op :: rest) = w.now :: (w.step op).2.reached k rest := by
            simp [reached, hreach]
          have hsplit : Unbroken w.cache.config.ttl
              (t :: w.now :: (w.step op).2.reached k rest ++ [((w.step op).2.after rest).now]) ↔
                w.now ≤ t + w.cache.config.ttl.nanos ∧ Unbroken w.cache.config.ttl
                  (w.now :: (w.step op).2.reached k rest ++ [((w.step op).2.after rest).now]) :=
            List.isChain_cons_cons
          rw [htimes, hsplit]
          by_cases hlive : w.now ≤ t + w.cache.config.ttl.nanos
          · have hkept := ih hnext (h.renew hw hreach hlive) hlooks.2 hops.2
            rw [hconfig] at hkept
            simpa only [hlive, true_and] using hkept
          · refine ⟨fun hboth => absurd hboth.1 hlive, fun _ => ?_⟩
            apply Lost.after hnext _ hlooks.2 hops.2
            exact (h.lost hlive).step hw hlooks.1 hops.1

/-! ## Answers about one key -/

theorem Aging.mem_getAll_of_current {seat : Seat} {hs : List (Holder κ)}
    (hx : w.current? x.key = some (x, seat)) (hq : Key.covers q x.key)
    (hanswer : (w.step (.getAll q)).1 = .holders (some hs)) :
    x ∈ hs ∧ (w.step (.getAll q)).2.registry.value? x = w.registry.value? x := by
  obtain ⟨found, hfound, -, hvalues, -, hmem⟩ := hw.sound.step_getAll hw.expiring q
  cases hfound.symm.trans hanswer
  exact ⟨(hmem hs rfl x).mpr ⟨hq, seat, hx⟩, hvalues (hw.sound.issued_of_current? hx).2⟩

omit [OrderedKey κ] in
theorem Aging.eq_of_get_current {seat : Seat} {y : Holder κ} (hx : w.current? k = some (x, seat))
    (hanswer : (w.step (.get k)).1 = .holder (some y)) :
    y = x ∧ (w.step (.get k)).2.registry.value? x = w.registry.value? x := by
  obtain ⟨found, hfound, -, hvalues, hhit, -⟩ := hw.sound.step_get k
  have hy := hfound.symm.trans hanswer
  rw [hhit x seat hx] at hy
  exact ⟨(Option.some.inj (Answer.holder.inj hy)).symm, hvalues (hw.sound.issued_of_current? hx).2⟩

theorem Lost.not_mem_getAll (h : w.Lost x.key x) {hs : List (Holder κ)}
    (hanswer : (w.step (.getAll q)).1 = .holders (some hs)) : x ∉ hs := by
  obtain ⟨found, hfound, -, -, -, hmem⟩ := hw.sound.step_getAll hw.expiring q
  cases hfound.symm.trans hanswer
  intro hx
  obtain ⟨-, seat, hcurrent⟩ := (hmem hs rfl x).mp hx
  exact (h.tombstone x seat hcurrent).1 rfl

theorem Lost.isTombstone_get (h : w.Lost k x) {y : Holder κ}
    (hanswer : (w.step (.get k)).1 = .holder (some y)) :
    (w.step (.get k)).2.registry.isTombstone y = true := by
  obtain ⟨found, hfound, hcurrent, -⟩ := hw.sound.step_get k
  have hafter : (w.step (.get k)).2.Lost k x := h.step hw trivial (Nat.le_refl _)
  obtain ⟨e, rfl, hy⟩ : ∃ e, found = some e ∧ e.1 = y := by
    simpa using hfound.symm.trans hanswer
  have hself := (hcurrent k).trans (if_pos Std.compare_self)
  rw [Registry.isTombstone, ← hy, (hafter.tombstone e.1 e.2 hself).2]
  rfl

end Holders

end World

end TieredCache.Cache
