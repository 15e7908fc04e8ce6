import TieredCache.Proofs.Cache.Vouched

/-!
# Stores and certifications at one instant

A unit of work that loads a range stores what it found and certifies the range. As long as the clock
stands, calls that neither write nor remove a holder leave it as fresh as the store made it, and calls
other than certifications leave the certification alone.
-/

namespace TieredCache.Cache

open Shard

variable {κ : Type} [Key κ] {c : Cache κ} {reg : Registry κ} {now : Nat} {x : Holder κ} {k : κ}

/-- A call that neither writes nor removes the holder of a key. -/
def Op.Spares (k : κ) : Op κ → Prop
  | .recordFetch value _ | .recordStore value _ | .recordDelete value => compare value.key k ≠ .eq
  | .invalidate x => compare x k ≠ .eq
  | .advance _ => False
  | _ => True

/-- A call that certifies no range with the key. -/
def Op.Leaves (k : κ) : Op κ → Prop
  | .certify q => ¬ Key.covers q k
  | _ => True

theorem Op.Spares.now_eq {op : Op κ} (h : op.Spares k) (w : World κ) :
    (w.step op).2.now = w.now := by
  cases op with
  | advance d => exact h.elim
  | _ => rfl

theorem World.timely_of_spares {w : World κ} {ops : List (Op κ)}
    (hspares : ∀ op ∈ ops, op.Spares k) : w.Timely ops := by
  induction ops generalizing w with
  | nil => trivial
  | cons op rest ih =>
      rw [List.forall_mem_cons] at hspares
      exact ⟨(hspares.1.now_eq w).ge, ih hspares.2⟩

/-- A write changes neither the seats nor the holders of other keys. -/
theorem Sound.apply_of_ne (hc : Sound True now c reg) (a : Write κ)
    (hne : compare a.value.key k ≠ .eq) (hx : reg.Issued x) (hkey : x.key = k) :
    ∃ result c' reg', c.apply reg now a = (result, c', reg') ∧
      c'.current? now k = c.current? now k ∧ reg'.value? x = reg.value? x := by
  obtain ⟨result, c', reg', hcall, hleads, -, haccepted⟩ := hc.apply a
  refine ⟨result, c', reg', hcall, ?_⟩
  rcases haccepted with ⟨-, rfl, hshards⟩ | ⟨h, u, -, -, hissued, haccepts⟩
  · exact ⟨current?_congr hshards now k, rfl⟩
  · refine ⟨(haccepts.current?_eq trivial k).trans (if_neg hne), haccepts.writes.value?_of_ne x ?_⟩
    intro hid
    have heq := (hleads.issued hx).eq_of_id_eq hissued hid
    apply hne
    rw [← haccepts.key_eq, ← heq, hkey, Std.compare_self]

namespace World

variable {w : World κ} {op : Op κ} {ops : List (Op κ)} {p : κ} {value : Entity κ} {t : Nat}

section Holders

variable (hw : w.Sound True)

include hw

/-- A look-up keeps a holder that was refreshed at this instant. -/
theorem Sound.get_spares (h : w.current? k = some (x, .expiring w.now)) (y : κ) :
    (w.step (.get y)).2.current? k = some (x, .expiring w.now) ∧
      (w.step (.get y)).2.registry.value? x = w.registry.value? x := by
  obtain ⟨answer, c', reg', hcall, -, -, hfound⟩ := Cache.Sound.get hw y
  simp only [World.step, hcall]
  exact (hfound trivial).keeps_refreshed h (hw.issued_of_current? h).2

end Holders

section Spared

variable [OrderedKey κ] (hw : w.Aging)

include hw

/-- A call that spares a key keeps a holder of it that was refreshed at this instant. -/
theorem Aging.step_of_spares (hspares : op.Spares k)
    (h : w.current? k = some (x, .expiring w.now)) :
    (w.step op).2.current? k = some (x, .expiring w.now) ∧
      (w.step op).2.registry.value? x = w.registry.value? x := by
  obtain ⟨hkey, hissued⟩ := hw.sound.issued_of_current? h
  have hwrite {a : Write κ} (ha : op.write? = some a) (hne : compare a.value.key k ≠ .eq) :
      (w.step op).2.current? k = some (x, .expiring w.now) ∧
        (w.step op).2.registry.value? x = w.registry.value? x := by
    obtain ⟨result, c', reg', hcall, hcurrent, hvalue⟩ :=
      Cache.Sound.apply_of_ne hw.sound a hne hissued hkey
    rw [w.step_of_write ha, hcall]
    exact ⟨hcurrent.trans h, hvalue⟩
  cases op with
  | get y => exact hw.sound.get_spares h y
  | getAll q =>
      obtain ⟨found, -, -, hvalues, hcurrent, -⟩ := hw.sound.step_getAll hw.expiring q
      refine ⟨?_, hvalues hissued⟩
      rw [hcurrent, h]
      split <;> rfl
  | certify q =>
      obtain ⟨-, -, -, hshards⟩ := Cache.Sound.certify hw.sound q
      exact ⟨(current?_congr hshards w.now k).trans h, rfl⟩
  | getOrTombstone y =>
      obtain ⟨answer, c', reg', hcall, -, -, hbare, hfound⟩ := Cache.Sound.getOrTombstone hw.sound y
      simp only [World.step, hcall]
      cases hy : selector.ofKey y with
      | none =>
          obtain ⟨-, rfl, rfl⟩ := hbare hy
          exact ⟨h, rfl⟩
      | some i =>
          have hcached : (selector.ofKey y).isSome = true := by
            rw [hy]
            rfl
          exact (hfound trivial hcached).keeps_refreshed h hissued
  | recordFetch v expiring => exact hwrite rfl hspares
  | recordStore v expiring => exact hwrite rfl hspares
  | recordDelete v => exact hwrite rfl hspares
  | invalidate y =>
      obtain ⟨c', reg', hcall, -, -, hsame, -, -, hcurrent⟩ := Cache.Sound.invalidate hw.sound y
      simp only [World.step, hcall]
      exact ⟨(hcurrent k).trans ((if_neg hspares).trans h), hsame.value?_eq x⟩
  | purge =>
      obtain ⟨count, c', reg', hcall, -, -, hsame, hcurrent⟩ := Cache.Sound.purge hw.sound
      simp only [World.step, hcall]
      exact ⟨(hcurrent trivial k).trans h, hsame.value?_eq x⟩
  | read copies y =>
      rw [step_read]
      split
      next => exact ⟨h, rfl⟩
      next => exact hw.sound.get_spares h y
  | advance d => exact hspares.elim

/-- As long as the clock stands, a holder lasts through calls that spare its key. -/
theorem Lasting.spare (h : w.Lasting k x value w.now) (hspares : op.Spares k) :
    (w.step op).2.Lasting k x value (w.step op).2.now := by
  have hnow := hspares.now_eq w
  have hleads := (hw.sound.step op fun _ => hnow.ge).1
  have hcurrent := h.current?_eq.trans (if_pos (Nat.le_add_right _ _))
  obtain ⟨hkept, hvalue⟩ := hw.step_of_spares hspares hcurrent
  refine ⟨?_, hleads.issued h.issued, hvalue.trans h.value?_eq, Nat.le_refl _⟩
  rw [hkept, hnow, if_pos (Nat.le_add_right _ _)]

/-- As long as the clock stands, calls that certify no other range with a key keep what vouches for the
key. -/
theorem Vouched.spare (h : w.Vouched p k w.now) (hspares : op.Spares k) (hleaves : op.Leaves k) :
    (w.step op).2.Vouched p k (w.step op).2.now := by
  intro q s hq hqk
  have hnow := hspares.now_eq w
  have hlive : (w.step op).2.live? q = (w.step op).2.cache.coverage.live? w.now q := by
    rw [live?, hnow]
  rw [hlive] at hq
  rw [hnow]
  rcases coverage_step hw.sound op with heq | ⟨y, refresh, heq⟩ | ⟨y, rfl, heq⟩
  · rw [heq] at hq
    exact h q s hq hqk
  · rw [heq, Coverage.Kept.live?_covers hw.certified] at hq
    split at hq
    next =>
      obtain ⟨s₀, hbefore, rfl⟩ := Option.map_eq_some_iff.mp hq
      exact ⟨(h q s₀ hbefore hqk).1, Nat.le_refl _⟩
    next => exact h q s hq hqk
  · rw [heq, (Coverage.Kept.live?_add hw.certified hw.expiring y).2] at hq
    split at hq
    next =>
      split at hq
      next heq =>
        obtain rfl := Std.compare_eq_iff_eq.mp heq
        exact absurd hqk hleaves
      next =>
        split at hq
        next => cases hq
        next => exact h q s hq hqk
    next => exact h q s hq hqk

theorem Lasting.spare_after (h : w.Lasting k x value w.now) (hspares : ∀ op ∈ ops, op.Spares k) :
    (w.after ops).now = w.now ∧ (w.after ops).Lasting k x value w.now := by
  induction ops generalizing w with
  | nil => exact ⟨rfl, h⟩
  | cons op rest ih =>
      rw [List.forall_mem_cons] at hspares
      have hnow := hspares.1.now_eq w
      rw [← hnow]
      apply ih (hw.step hnow.ge) _ hspares.2
      exact h.spare hw hspares.1

theorem Vouched.spare_after (h : w.Vouched p k w.now) (hspares : ∀ op ∈ ops, op.Spares k)
    (hleaves : ∀ op ∈ ops, op.Leaves k) :
    (w.after ops).now = w.now ∧ (w.after ops).Vouched p k w.now := by
  induction ops generalizing w with
  | nil => exact ⟨rfl, h⟩
  | cons op rest ih =>
      rw [List.forall_mem_cons] at hspares hleaves
      have hnow := hspares.1.now_eq w
      rw [← hnow]
      apply ih (hw.step hnow.ge) _ hspares.2 hleaves.2
      exact h.spare hw hspares.1 hleaves.1

end Spared

/-! ## The two calls -/

section Calls

variable (hw : w.Sound True)

include hw

/-- A holder that an expiring store answers was refreshed by it. -/
theorem Sound.lasting_recordStore
    (hanswer : (w.step (.recordStore value true)).1 = .written (.ok (some x))) :
    (w.step (.recordStore value true)).2.Lasting value.key x value w.now ∧
      x.key = value.key ∧
      (w.step (.recordStore value true)).2.cache.coverage = w.cache.coverage := by
  obtain ⟨result, c', reg', hcall, hleads, hcoverage, haccepted⟩ :=
    Cache.Sound.apply hw (.store value true)
  rw [w.step_of_write rfl, hcall] at hanswer ⊢
  have hresult : result = .ok (some x) := Answer.written.inj hanswer
  obtain ⟨hnone, -⟩ | ⟨h, u, hok, -, hissued, haccepts⟩ := haccepted
  · exact absurd hresult (hnone x)
  cases hok.symm.trans hresult
  have hvalue : u = some value := haccepts.overwrites rfl
  refine ⟨⟨?_, hissued, haccepts.writes.value?_self.trans hvalue, Nat.le_refl _⟩,
    haccepts.key_eq, hcoverage⟩
  calc c'.current? w.now value.key
      = some (x, .taken w.now (true || u.isNone)) :=
        (haccepts.current?_eq trivial value.key).trans (if_pos Std.compare_self)
    _ = _ := (if_pos (Nat.le_add_right _ _)).symm

theorem Lasting.certify (h : w.Lasting k x value t) (p : κ) :
    (w.step (.certify p)).2.Lasting k x value t := by
  obtain ⟨hleads, -, -, hshards⟩ := Cache.Sound.certify hw p
  refine ⟨(current?_congr hshards w.now k).trans ?_, h.issued, h.value?_eq, h.le⟩
  rw [show (w.step (.certify p)).2.cache.config = w.cache.config from hleads.config_eq]
  exact h.current?_eq

end Calls

/-- A certification that was added alone vouches for the keys that it covers. -/
theorem Aging.vouched_certify [OrderedKey κ] (hw : w.Aging)
    (hanswer : (w.step (.certify p)).1 = .certified true) (hpk : Key.covers p k) :
    (w.step (.certify p)).2.Vouched p k w.now := by
  obtain ⟨-, hadded, hcoverage, -⟩ := Cache.Sound.certify hw.sound p
  have hadded : (w.cache.coverage.add w.now p).1 = true := by
    rw [← hadded]
    exact Answer.certified.inj hanswer
  obtain ⟨hnone, hlive⟩ := Coverage.Kept.live?_add hw.certified hw.expiring p
  intro q s hq hqk
  have hq : (w.cache.coverage.add w.now p).2.live? w.now q = some s := by
    rw [← hcoverage]
    exact hq
  rw [hlive, if_pos hadded] at hq
  split at hq
  next heq =>
    cases hq
    exact ⟨(Std.compare_eq_iff_eq.mp heq).symm, Nat.le_refl _⟩
  next =>
    split at hq
    next => cases hq
    next hpq =>
      have hqp := (OrderedMap.covers_or_covers hqk hpk).resolve_right hpq
      exact absurd ⟨q, s, hq, hqp⟩ (hnone.mp hadded)

/-- An expiring store that answers a holder and a certification that is added, in either order. Between
them the clock stands, no call writes or removes the holder, and a call after the certification certifies
no other range with the key. -/
def StoresAndCertifies (w : World κ) (value : Entity κ) (p : κ) (x : Holder κ)
    (ops : List (Op κ)) : Prop :=
  ∃ mid answers, (∀ op ∈ mid, op.Spares value.key) ∧
    ((ops = .recordStore value true :: mid ++ [.certify p] ∧
        w.answers ops = .written (.ok (some x)) :: answers ++ [.certified true]) ∨
      (ops = .certify p :: mid ++ [.recordStore value true] ∧
        w.answers ops = .certified true :: answers ++ [.written (.ok (some x))] ∧
        ∀ op ∈ mid, op.Leaves value.key))

/-- The answers of the first and of the last step of a run. -/
theorem answers_ends {first last : Op κ} {mid : List (Op κ)} {a b : Answer κ}
    {between : List (Answer κ)}
    (h : w.answers (first :: mid ++ [last]) = a :: between ++ [b]) :
    (w.step first).1 = a ∧ (((w.step first).2.after mid).step last).1 = b := by
  obtain ⟨hfirst, hrest⟩ := List.cons.inj h
  refine ⟨hfirst, ?_⟩
  have hsplit : (w.step first).2.answers mid ++
      [(((w.step first).2.after mid).step last).1] = between ++ [b] :=
    (answers_append _ mid [last]).symm.trans hrest
  exact (List.cons.inj (List.append_inj_right' hsplit rfl)).1

theorem after_ends (w : World κ) (first last : Op κ) (mid : List (Op κ)) :
    w.after (first :: mid ++ [last]) = (((w.step first).2.after mid).step last).2 :=
  after_append _ mid [last]

/-- After a store and a certification at one instant the holder lasts, and that certification alone
vouches for its key. -/
theorem StoresAndCertifies.lasting [OrderedKey κ] (h : w.StoresAndCertifies value p x ops)
    (hw : w.Aging) (hpk : Key.covers p value.key) :
    x.key = value.key ∧ (w.after ops).now = w.now ∧
      (w.after ops).Lasting value.key x value w.now ∧
      (w.after ops).Vouched p value.key w.now := by
  obtain ⟨mid, between, hspares, ⟨rfl, hanswers⟩ | ⟨rfl, hanswers, hleaves⟩⟩ := h
  · obtain ⟨hanswer, hadded⟩ := answers_ends hanswers
    obtain ⟨hlasting, hkey, -⟩ := hw.sound.lasting_recordStore hanswer
    have hfirst : (w.step (.recordStore value true)).2.Aging := hw.step (Nat.le_refl _)
    have hlast := hfirst.after (timely_of_spares hspares)
    obtain ⟨hnow, hkept⟩ := Lasting.spare_after hfirst hlasting hspares
    have hvouched := hlast.vouched_certify hadded hpk
    rw [after_ends]
    rw [hnow] at hvouched
    exact ⟨hkey, hnow, hkept.certify hlast.sound p, hvouched⟩
  · obtain ⟨hadded, hanswer⟩ := answers_ends hanswers
    have hfirst : (w.step (.certify p)).2.Aging := hw.step (Nat.le_refl _)
    have hlast := hfirst.after (timely_of_spares hspares)
    have hvouched := hw.vouched_certify hadded hpk
    obtain ⟨hnow, hkept⟩ := Vouched.spare_after hfirst hvouched hspares hleaves
    obtain ⟨hlasting, hkey, hcoverage⟩ := hlast.sound.lasting_recordStore hanswer
    rw [hnow] at hlasting
    rw [after_ends]
    refine ⟨hkey, hnow, hlasting, fun q s hq hqk => ?_⟩
    apply hkept q s _ hqk
    rw [live?, ← hcoverage]
    exact hq

end World

end TieredCache.Cache
