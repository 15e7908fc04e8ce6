import TieredCache.Key.Path
import TieredCache.Proofs.Cache.Canonical
import TieredCache.Proofs.Cache.Lookups

/-!
# Known absence

A tombstone says that a key has no entity. In a canonical cache it is wrong after a store in one case:
the key was invalidated after the store and no fetch has brought its value back. The certification of
its range outlives the invalidation, so that the next look-up leaves a tombstone.
-/

namespace TieredCache.Cache

open Shard

variable {κ : Type} [Key κ]

/-- A store or a deletion of the key that is accepted. -/
def Op.Overwrites (k : κ) : Op κ → Answer κ → Prop
  | .recordStore value _, .written (.ok _) => compare value.key k = .eq
  | .recordDelete value, .written (.ok _) => compare value.key k = .eq
  | _, _ => False

/-- A fetch of the key that answers a holder with a value. -/
def Op.Reloads (k : κ) (reg : Registry κ) : Op κ → Answer κ → Prop
  | .recordFetch value _, .written (.ok (some h)) =>
    compare value.key k = .eq ∧ reg.isTombstone h = false
  | _, _ => False

/-- An invalidation of the key. -/
def Op.Drops (k : κ) : Op κ → Prop
  | .invalidate x => compare x k = .eq
  | _ => False

namespace World

/-- Some step of a run is an accepted store or deletion of the key. -/
def Overwrites (k : κ) (w : World κ) : List (Op κ) → Prop
  | [] => False
  | op :: rest => op.Overwrites k (w.step op).1 ∨ Overwrites k (w.step op).2 rest

/-- Some step of a run brings the value of the key back. -/
def Reloads (k : κ) (w : World κ) : List (Op κ) → Prop
  | [] => False
  | op :: rest =>
    op.Reloads k (w.step op).2.registry (w.step op).1 ∨ Reloads k (w.step op).2 rest

/-- Some step of a run invalidates the key, and no later one brings its value back. -/
def Dropped (k : κ) (w : World κ) : List (Op κ) → Prop
  | [] => False
  | op :: rest =>
    op.Drops k ∧ ¬ Reloads k (w.step op).2 rest ∨ Dropped k (w.step op).2 rest

variable {w : World κ} {op : Op κ} {ops : List (Op κ)} {k : κ}

/-! ## The permanent holder of a key -/

/-- Apart from writes, only an invalidation of a key changes its permanent holder. -/
theorem Sound.stored?_of_no_write (hw : w.Sound False) (hop : op.write? = none)
    (hdrops : ¬ op.Drops k) : (w.step op).2.stored? k = w.stored? k := by
  have hget (x : κ) : (w.step (.get x)).2.stored? k = w.stored? k :=
    stored?_get w.cache w.registry w.now x k
  cases op with
  | get x => exact hget x
  | getAll p => exact stored?_getAll w.cache w.registry w.now p k
  | certify p =>
      obtain ⟨-, -, -, hshards⟩ := Cache.Sound.certify hw p
      exact stored?_congr hshards k
  | getOrTombstone x => exact stored?_getOrTombstone w.cache w.registry w.now x k
  | recordFetch value expiring => cases hop
  | recordStore value expiring => cases hop
  | recordDelete value => cases hop
  | invalidate x =>
      obtain ⟨c', reg', hcall, -, -, -, -, hothers, -⟩ := Cache.Sound.invalidate hw x
      simp only [World.step, hcall]
      exact hothers k hdrops
  | purge => exact stored?_purge w.cache w.registry w.now k
  | read copies x =>
      rw [step_read]
      split
      next => rfl
      next => exact hget x
  | advance d => rfl

section Stored

variable (hw : w.Canonical)

include hw

theorem Canonical.stored?_of_drops (hdrops : op.Drops k) : (w.step op).2.stored? k = none := by
  cases op with
  | invalidate x =>
      obtain rfl := Std.compare_eq_iff_eq.mp hdrops
      obtain ⟨c', reg', hcall, -, -, -, hnone, -⟩ := Cache.Sound.invalidate hw.sound x
      simp only [World.step, hcall]
      exact hnone
  | _ => exact hdrops.elim

/-- An accepted write of a value stores the holder that it answers, unless that is a tombstone. -/
theorem Canonical.accepts_of_write {a : Write κ} {h : Holder κ} (ha : op.write? = some a)
    (hflag : a.flag = a.expiring) (hanswer : (w.step op).1 = .written (.ok (some h))) :
    (w.step op).2.stored? a.value.key =
        (if (w.step op).2.registry.isTombstone h then none else some h) ∧
      (a.overwrite = true → (w.step op).2.registry.value? h = a.carried) ∧
      (a.overwrite = false → ∀ h₀, w.stored? a.value.key = some h₀ →
        (w.step op).2.registry.isTombstone h = false) := by
  obtain ⟨result, c', reg', hcall, -, -, haccepted⟩ := Cache.Sound.apply hw.sound a
  rw [w.step_of_write ha, hcall] at hanswer ⊢
  obtain ⟨hnone, -⟩ | ⟨x, u, hok, hrefusal, -, haccepts⟩ := haccepted
  · exact absurd (Answer.written.inj hanswer) (hnone h)
  cases hok.symm.trans (Answer.written.inj hanswer)
  have hexpiring : a.expiring = false := by
    rw [hflag] at hrefusal
    exact not_expiring_of_refusal?_eq_none hw.canonical hrefusal
  have hvalue := haccepts.writes.value?_self
  refine ⟨?_, fun hoverwrite => hvalue.trans (haccepts.overwrites hoverwrite), ?_⟩
  · refine haccepts.stored?_self.trans ?_
    rw [hexpiring, Registry.isTombstone, hvalue]
    rfl
  · intro hkeeps h₀ hstored
    have hsome := Cache.Sound.valued_of_stored? hw.sound hstored
    rw [← (haccepts.keeps hkeeps h₀ hstored).2] at hsome
    rw [Registry.isTombstone, hvalue, Option.isNone_eq_false_iff]
    exact hsome

theorem Canonical.stored?_of_reloads
    (hreloads : op.Reloads k (w.step op).2.registry (w.step op).1) :
    ((w.step op).2.stored? k).isSome := by
  cases op with
  | recordFetch value expiring =>
      cases hanswer : (w.step (.recordFetch value expiring)).1 with
      | written result =>
          rw [hanswer] at hreloads
          rcases result with fault | found
          · exact hreloads.elim
          · cases found with
            | none => exact hreloads.elim
            | some h =>
                obtain ⟨hkey, hvalue⟩ := hreloads
                obtain rfl := Std.compare_eq_iff_eq.mp hkey
                have hstored := (hw.accepts_of_write rfl rfl hanswer).1
                rw [hvalue] at hstored
                exact Option.isSome_of_eq_some hstored
      | _ =>
          rw [hanswer] at hreloads
          exact hreloads.elim
  | _ => exact hreloads.elim

/-- A write that answers no holder of a key leaves its permanent holder. -/
theorem Canonical.stored?_of_write {a : Write κ} (ha : op.write? = some a)
    (hnone : compare a.value.key k = .eq → ∀ h, (w.step op).1 ≠ .written (.ok (some h))) :
    (w.step op).2.stored? k = w.stored? k := by
  rw [w.step_of_write ha] at hnone ⊢
  apply Cache.Sound.stored?_apply hw.sound a
  intro hkey h hanswer
  exact hnone hkey h (congrArg Answer.written hanswer)

/-- A load that does not reload a key answers a tombstone of it, or no holder. -/
theorem Canonical.stored?_of_fetch {value : Entity κ} {expiring : Bool}
    (hreloads : ¬ (Op.recordFetch value expiring).Reloads k
      (w.step (.recordFetch value expiring)).2.registry (w.step (.recordFetch value expiring)).1) :
    (w.step (.recordFetch value expiring)).2.stored? k = none ↔ w.stored? k = none := by
  by_cases hfound : compare value.key k = .eq ∧
      ∃ h, (w.step (.recordFetch value expiring)).1 = .written (.ok (some h))
  · obtain ⟨hkey, h, hanswer⟩ := hfound
    obtain rfl := Std.compare_eq_iff_eq.mp hkey
    rw [hanswer] at hreloads
    have htombstone : (w.step (.recordFetch value expiring)).2.registry.isTombstone h = true := by
      by_contra hvalue
      exact hreloads ⟨hkey, by simpa using hvalue⟩
    obtain ⟨hstored, -, hbefore⟩ := hw.accepts_of_write rfl rfl hanswer
    rw [htombstone] at hstored hbefore
    refine iff_of_true hstored (Option.eq_none_iff_forall_ne_some.mpr fun h₀ hsome => ?_)
    cases hbefore rfl h₀ hsome
  · have hsame : (w.step (.recordFetch value expiring)).2.stored? k = w.stored? k := by
      apply hw.stored?_of_write rfl
      intro hkey h hanswer
      exact hfound ⟨hkey, h, hanswer⟩
    rw [hsame]

/-- The other steps leave it to the key whether it has a permanent holder. -/
theorem Canonical.stored?_of_not (hdrops : ¬ op.Drops k)
    (hreloads : ¬ op.Reloads k (w.step op).2.registry (w.step op).1)
    (hoverwrites : ¬ op.Overwrites k (w.step op).1) :
    (w.step op).2.stored? k = none ↔ w.stored? k = none := by
  cases op with
  | recordFetch value expiring => exact hw.stored?_of_fetch hreloads
  | recordStore value expiring =>
      have hsame : (w.step (.recordStore value expiring)).2.stored? k = w.stored? k := by
        apply hw.stored?_of_write rfl
        intro hkey h hanswer
        rw [hanswer] at hoverwrites
        exact hoverwrites hkey
      rw [hsame]
  | recordDelete value =>
      have hsame : (w.step (.recordDelete value)).2.stored? k = w.stored? k := by
        apply hw.stored?_of_write rfl
        intro hkey h hanswer
        rw [hanswer] at hoverwrites
        exact hoverwrites hkey
      rw [hsame]
  | _ => rw [hw.sound.stored?_of_no_write rfl hdrops]

/-- A run without another accepted store or deletion leaves the key without a permanent holder if it
drops the key, or never had a holder and does not reload it. -/
theorem Canonical.stored?_after (hlast : ¬ w.Overwrites k ops) :
    (w.after ops).stored? k = none ↔
      w.Dropped k ops ∨ w.stored? k = none ∧ ¬ w.Reloads k ops := by
  induction ops generalizing w with
  | nil => simp [Dropped, Reloads]
  | cons op rest ih =>
      rw [Overwrites, not_or] at hlast
      rw [after_cons, ih (hw.step op) hlast.2, Dropped, Reloads]
      by_cases hdrops : op.Drops k
      · have hnone := hw.stored?_of_drops hdrops
        simp only [hdrops, hnone, true_and]
        by_cases hlater : Reloads k (w.step op).2 rest <;> simp [hlater]
      · by_cases hreloads : op.Reloads k (w.step op).2.registry (w.step op).1
        · have hsome := Option.isSome_iff_ne_none.mp (hw.stored?_of_reloads hreloads)
          simp [hdrops, hreloads, hsome]
        · have hsame := hw.stored?_of_not hdrops hreloads hlast.1
          simp [hdrops, hreloads, hsame]

/-- An accepted store puts the holder that it answers into the permanent tier. -/
theorem Canonical.stored?_recordStore {value : Entity κ} {expiring : Bool} {h : Holder κ}
    (hanswer : (w.step (.recordStore value expiring)).1 = .written (.ok (some h))) :
    (w.step (.recordStore value expiring)).2.stored? value.key = some h := by
  obtain ⟨hstored, hcarried, -⟩ := hw.accepts_of_write rfl rfl hanswer
  refine hstored.trans ?_
  rw [Registry.isTombstone, hcarried rfl]
  rfl

end Stored

/-! ## Certifications that outlive what they certify -/

section Certifications

variable [LawfulKey κ] {p : κ} (hw : w.Canonical) (hcert : w.Certified False)

include hw hcert

/-- No step takes the certification of a key away. -/
theorem Canonical.certifies_step (hk : w.certifies k = true) : (w.step op).2.certifies k = true := by
  have hlater {cov : Coverage κ} (hcov : cov.Kept False w.now w.cache.config) :
      (cov.covers (w.step op).2.now k false).1 = (cov.covers w.now k false).1 :=
    hcov.covers_congr hw.canonical
  have hkept : w.cache.coverage.Kept False w.now w.cache.config := hcert
  rw [certifies]
  rcases coverage_step hw.sound op with heq | ⟨x, refresh, heq⟩ | ⟨p, -, heq⟩
  · rw [heq, hlater hkept]
    exact hk
  · rw [heq, hkept.snd_covers hw.canonical, hlater hkept]
    exact hk
  · rw [heq]
    exact (hkept.covers_add_iff hw.canonical).mpr (.inl hk)

theorem Canonical.certifies_certify (hpk : Key.covers p k) :
    (w.step (.certify p)).2.certifies k = true := by
  obtain ⟨-, -, hcoverage, -⟩ := Cache.Sound.certify hw.sound p
  have hkept : w.cache.coverage.Kept False w.now w.cache.config := hcert
  change ((w.step (.certify p)).2.cache.coverage.covers w.now k false).1 = true
  rw [show (w.step (.certify p)).2.cache.coverage = (w.cache.coverage.add w.now p).2 from hcoverage]
  exact (hkept.covers_add_iff hw.canonical).mpr (.inr hpk)

/-- After a run the keys of every range that it certified are certified. -/
theorem Canonical.certifies_after
    (hk : w.certifies k = true ∨ .certify p ∈ ops ∧ Key.covers p k) :
    (w.after ops).certifies k = true := by
  induction ops generalizing w with
  | nil => exact hk.resolve_right fun hmem => List.not_mem_nil hmem.1
  | cons op rest ih =>
      apply ih (hw.step op) (hcert.step hw.sound op nofun)
      rcases hk with hk | ⟨hmem, hpk⟩
      · exact .inl (hw.certifies_step hcert hk)
      · rcases List.mem_cons.mp hmem with rfl | hmem
        · exact .inl (hw.certifies_certify hcert hpk)
        · exact .inr ⟨hmem, hpk⟩

end Certifications

/-- After an accepted store, with no other accepted store or deletion of the key since, a look-up of a
canonical cache answers a tombstone exactly if the key was invalidated and no fetch brought its value
back. If a range with the key was ever certified, the look-up does answer a holder. -/
theorem isTombstone_iff_dropped {tag : TypeTag} {config : Config} {c : Cache κ}
    (hc : Cache.create tag config = .ok c) (hcanonical : config.canonical = true)
    {before rest : List (Op κ)} {value : Entity κ} {expiring : Bool} {x : Holder κ}
    (hstore : (((start c).after before).step (.recordStore value expiring)).1 =
      .written (.ok (some x)))
    (hlast : ¬ ((start c).after (before ++ [.recordStore value expiring])).Overwrites value.key rest) :
    let w₀ := (start c).after (before ++ [.recordStore value expiring])
    let w := w₀.after rest
    (∀ y, (w.step (.get value.key)).1 = .holder (some y) →
        ((w.step (.get value.key)).2.registry.isTombstone y = true ↔ w₀.Dropped value.key rest)) ∧
      ∀ [LawfulKey κ] {p}, .certify p ∈ before ++ rest → Key.covers p value.key →
        ∃ y, (w.step (.get value.key)).1 = .holder (some y) := by
  have hstart : (start c).Canonical := canonical_start hc hcanonical
  have hbefore := hstart.after before
  have hstored := hbefore.stored?_recordStore hstore
  rw [after_append] at hlast ⊢
  intro w₀ w
  have hw₀ : w₀.Canonical := hbefore.step _
  have hw : w.Canonical := hw₀.after rest
  have hstored : w₀.stored? value.key = some x := hstored
  constructor
  · intro y hanswer
    rw [hw.isTombstone_get hanswer, hw₀.stored?_after hlast, hstored]
    simp
  · intro hlawful p hmem hpk
    have hcertified : w.certifies value.key = true := by
      have hafter : w = (start c).after (before ++ [.recordStore value expiring] ++ rest) := by
        rw [after_append, after_append]
      rw [hafter]
      apply hstart.certifies_after (certified_start hc)
      refine .inr ⟨?_, hpk⟩
      rw [List.append_assoc]
      rcases List.mem_append.mp hmem with hmem | hmem
      · exact List.mem_append_left _ hmem
      · exact List.mem_append_right _ (List.mem_cons_of_mem _ hmem)
    have hshard : (selector.ofKey value.key).isSome := by
      obtain ⟨i, hi, -⟩ := Option.bind_eq_some_iff.mp hstored
      exact Option.isSome_of_eq_some hi
    have hanswer := w.cache.isSome_get w.registry hshard hcertified
    obtain ⟨y, hy⟩ := Option.isSome_iff_exists.mp hanswer
    exact ⟨y, congrArg Answer.holder hy⟩

/-- An entity of a certified range that is stored and then invalidated. -/
theorem isTombstone_iff_dropped_invalidated :
    ∃ c : Cache PathKey,
      Cache.create Entity.record ((Config.ofTtl ⟨1000⟩).withCanonical true) = .ok c ∧
      let v : Entity PathKey := ⟨⟨[1, 2]⟩, 7, Entity.record⟩
      let w₀ := (start c).after ([.certify ⟨[1]⟩] ++ [.recordStore v false])
      let w := w₀.after [.invalidate v.key]
      w₀.stored? v.key = some ⟨0, v.key⟩ ∧
        (w.step (.get v.key)).1 = .holder (some ⟨1, v.key⟩) ∧
        (w.step (.get v.key)).2.registry.isTombstone ⟨1, v.key⟩ = true := by
  let c : Cache PathKey := ⟨Entity.record, (Config.ofTtl ⟨1000⟩).withCanonical true,
    .replicate shardCount (.empty ⟨1000⟩), .permanent .empty, .zero⟩
  have hc : Cache.create Entity.record ((Config.ofTtl ⟨1000⟩).withCanonical true) = .ok c :=
    create_eq_ok_iff.mpr ⟨rfl, rfl⟩
  refine ⟨c, hc, ?_⟩
  intro v w₀ w
  have hstore : (((start c).after [.certify ⟨[1]⟩]).step (.recordStore v false)).1 =
      .written (.ok (some ⟨0, v.key⟩)) := by
    simp only [v, c]
    rfl
  have hstored : w₀.stored? v.key = some ⟨0, v.key⟩ := by
    simp only [w₀, v, c]
    rfl
  have hanswer : (w.step (.get v.key)).1 = .holder (some ⟨1, v.key⟩) := by
    simp only [w, w₀, v, c]
    rfl
  have hdropped : w₀.Dropped v.key [.invalidate v.key] := by
    simp [Dropped, Reloads, Op.Drops]
  have hlast : ¬ w₀.Overwrites v.key [.invalidate v.key] := by
    simp [Overwrites, Op.Overwrites]
  refine ⟨hstored, hanswer, ?_⟩
  have hiff := (isTombstone_iff_dropped hc rfl hstore hlast).1 ⟨1, v.key⟩ hanswer
  simp only [w, w₀] at hdropped ⊢
  rw [hiff]
  exact hdropped

end World

end TieredCache.Cache
