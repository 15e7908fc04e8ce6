import TieredCache.Key.Gated
import TieredCache.Proofs.Cache.Faultless

/-!
# Refused writes

A write is refused for one of two reasons, both of which are looked at before anything changes: it asks a
canonical cache for the expiring tier, or its value is of a type that the cache does not admit. A refusal
is counted, and apart from the count the world stays as it is, with every shard, every touch and every
certified range. A write that is not refused for a key without a group code does not even count.
-/

namespace TieredCache

/-- The tag is neither the expected one nor derived directly from it. -/
def TypeTag.ForeignTo (actual expected : TypeTag) : Prop :=
  actual ≠ expected ∧ ∀ name, actual ≠ .derived name expected

theorem TypeTag.admits_eq_false_iff {expected actual : TypeTag} :
    expected.admits actual = false ↔ actual.ForeignTo expected := by
  have hderived : actual.base = some expected.name ↔ ∃ name, actual = .derived name expected := by
    constructor
    · intro hbase
      refine ⟨actual.name, ?_⟩
      rw [derived, ← hbase]
    · rintro ⟨name, rfl⟩
      rfl
  rw [← Bool.not_eq_true, admits_iff, hderived, not_or, not_exists, ForeignTo]

namespace Cache

variable {κ : Type} [Key κ] {c : Cache κ} {reg : Registry κ} {now : Nat} {value : Entity κ}
  {asked : Bool}

/-! ## The two reasons -/

theorem refusal?_eq_expiringOnCanonical_iff :
    c.refusal? value asked = some .expiringOnCanonical ↔
      c.config.canonical = true ∧ asked = true := by
  rw [refusal?]
  cases c.config.canonical <;> cases asked <;> cases c.elementType.admits value.tag <;> simp

theorem refusal?_eq_typeMismatch_iff {expected actual : TypeTag} :
    c.refusal? value asked = some (.typeMismatch expected actual) ↔
      (expected = c.elementType ∧ actual = value.tag) ∧
        ¬ (c.config.canonical = true ∧ asked = true) ∧ value.tag.ForeignTo c.elementType := by
  rw [refusal?, ← TypeTag.admits_eq_false_iff]
  cases c.config.canonical <;> cases asked <;> cases c.elementType.admits value.tag <;>
    simp [eq_comm]

theorem refusal?_eq_none_iff :
    c.refusal? value asked = none ↔
      ¬ (c.config.canonical = true ∧ asked = true ∨ value.tag.ForeignTo c.elementType) := by
  rw [refusal?, ← TypeTag.admits_eq_false_iff]
  cases c.config.canonical <;> cases asked <;> cases c.elementType.admits value.tag <;> simp

/-- A fault that is not of a shard comes from a refusal. -/
theorem fst_apply_eq_error_iff {a : Write κ} {fault : WriteFault}
    (hfault : ∀ f, fault ≠ .invariant f) :
    (c.apply reg now a).1 = .error fault ↔ c.refusal? a.value a.flag = some fault := by
  cases hrefusal : c.refusal? a.value a.flag with
  | some refusal =>
      rw [apply_of_refusal hrefusal]
      simp
  | none =>
      refine iff_of_false (fun hanswer => ?_) nofun
      cases hk : selector.ofKey a.value.key with
      | none =>
          rw [apply_of_no_shard hrefusal hk] at hanswer
          cases hanswer
      | some i =>
          simp only [apply, Cache.write, hrefusal, hk] at hanswer
          generalize ((c.shard i).write _ _ _ _ _ _).1 = result at hanswer
          cases result with
          | ok h => cases hanswer
          | error f =>
              cases hanswer
              exact hfault f rfl

/-- The cache forbids a write of a value that asks for the expiring tier, or does not ask for it. -/
def Forbids (c : Cache κ) (value : Entity κ) (asked : Bool) : Prop :=
  c.config.canonical = true ∧ asked = true ∨ value.tag.ForeignTo c.elementType

theorem isSome_refusal?_iff : (c.refusal? value asked).isSome ↔ c.Forbids value asked := by
  rw [Option.isSome_iff_ne_none, ne_eq, refusal?_eq_none_iff, not_not, Forbids]

/-- A write of a value that asks for the expiring tier, or does not ask for it; a deletion never asks. -/
inductive Op.Writes (value : Entity κ) : Bool → Op κ → Prop where
  | fetch (expiring : Bool) : Writes value expiring (.recordFetch value expiring)
  | store (expiring : Bool) : Writes value expiring (.recordStore value expiring)
  | delete : Writes value false (.recordDelete value)

theorem Op.Writes.exists_write? {op : Op κ} (hop : op.Writes value asked) :
    ∃ a, op.write? = some a ∧ a.value = value ∧ a.flag = asked := by
  cases hop with
  | fetch => exact ⟨.fetch value asked, rfl, rfl, rfl⟩
  | store => exact ⟨.store value asked, rfl, rfl, rfl⟩
  | delete => exact ⟨.delete value, rfl, rfl, rfl⟩

namespace World

variable {w : World κ} {op : Op κ} {fault : WriteFault}

/-- The world in which the count of refused writes is greater by one, and all else is as before. -/
def countRefusal (w : World κ) : World κ :=
  let m := w.cache.metrics
  let counted : Counter := ⟨m.rejectedWrites.value + 1⟩
  { w with cache := { w.cache with metrics := { m with rejectedWrites := counted } } }

theorem step_of_refusal (hop : op.Writes value asked)
    (hrefusal : w.cache.refusal? value asked = some fault) :
    w.step op = (.written (.error fault), w.countRefusal) := by
  obtain ⟨a, ha, rfl, rfl⟩ := hop.exists_write?
  rw [w.step_of_write ha, apply_of_refusal hrefusal]
  rfl

theorem fst_step_eq_error_iff (hop : op.Writes value asked) (hfault : ∀ f, fault ≠ .invariant f) :
    (w.step op).1 = .written (.error fault) ↔ w.cache.refusal? value asked = some fault := by
  obtain ⟨a, ha, rfl, rfl⟩ := hop.exists_write?
  rw [w.step_of_write ha, Answer.written.injEq, fst_apply_eq_error_iff hfault]

/-- In a sound world a write fails exactly if it is forbidden. -/
theorem Sound.exists_error_iff {timely : Prop} (hw : w.Sound timely)
    (hop : op.Writes value asked) :
    (∃ fault, (w.step op).1 = .written (.error fault)) ↔ w.cache.Forbids value asked := by
  rw [← isSome_refusal?_iff, Option.isSome_iff_exists]
  constructor
  · rintro ⟨fault, hanswer⟩
    refine ⟨fault, (fst_step_eq_error_iff hop ?_).mp hanswer⟩
    rintro f rfl
    exact hw.fst_step_ne op f hanswer
  · rintro ⟨fault, hrefusal⟩
    exact ⟨fault, congrArg Prod.fst (step_of_refusal hop hrefusal)⟩

/-- In every world whatsoever, a write of a canonical cache that asks for the expiring tier is refused,
any other write of a value of a foreign type is, and a refusal changes nothing but the count of refusals,
which grows by one. A write that is not forbidden, for a key without a group code, changes nothing at all.
In the worlds that a run reaches no write fails for any other reason. -/
theorem refusal_atomic (hop : op.Writes value asked) :
    ((w.step op).1 = .written (.error .expiringOnCanonical) ↔
        w.cache.config.canonical = true ∧ asked = true) ∧
      (∀ expected actual, (w.step op).1 = .written (.error (.typeMismatch expected actual)) ↔
        (expected = w.cache.elementType ∧ actual = value.tag) ∧
          ¬ (w.cache.config.canonical = true ∧ asked = true) ∧
          value.tag.ForeignTo w.cache.elementType) ∧
      (w.cache.Forbids value asked → (w.step op).2 = w.countRefusal) ∧
      (¬ w.cache.Forbids value asked → Key.groupCode value.key = none →
        w.step op = (.written (.ok none), w)) ∧
      ∀ tag config c ops, Cache.create tag config = .ok c → w = (start c).after ops →
        w.cache.elementType = tag ∧ w.cache.config = config ∧
          ((∃ fault, (w.step op).1 = .written (.error fault)) ↔ w.cache.Forbids value asked) := by
  refine ⟨?_, fun expected actual => ?_, fun hforbids => ?_, fun hallowed hcode => ?_, ?_⟩
  · rw [fst_step_eq_error_iff hop (by simp), refusal?_eq_expiringOnCanonical_iff]
  · rw [fst_step_eq_error_iff hop (by simp), refusal?_eq_typeMismatch_iff]
  · obtain ⟨fault, hrefusal⟩ := Option.isSome_iff_exists.mp (isSome_refusal?_iff.mpr hforbids)
    rw [step_of_refusal hop hrefusal]
  · obtain ⟨a, ha, rfl, rfl⟩ := hop.exists_write?
    have haccepted : w.cache.refusal? a.value a.flag = none := by
      rw [← Option.not_isSome_iff_eq_none, isSome_refusal?_iff]
      exact hallowed
    rw [w.step_of_write ha, apply_of_no_shard haccepted (ofKey_of_no_groupCode hcode)]
  · rintro tag config c ops hc rfl
    have hstart : (start c).Sound False := sound_start hc
    have hw : ((start c).after ops).Sound False := hstart.after nofun
    refine ⟨?_, ?_, hw.exists_error_iff hop⟩
    · rw [hstart.elementType_after nofun]
      obtain ⟨-, rfl⟩ := create_eq_ok_iff.mp hc
      rfl
    · rw [hstart.config_after nofun]
      obtain ⟨-, rfl⟩ := create_eq_ok_iff.mp hc
      rfl

/-- A canonical cache refuses an expiring load of a foreign type for the tier, a deletion of that type
for the type, and passes over a value of a derived type behind a closed gate. -/
theorem refusal_atomic_gated :
    ∃ c : Cache GatedKey, Cache.create Entity.gated ⟨⟨1000⟩, true⟩ = .ok c ∧
      let v : Entity GatedKey := ⟨⟨[1, 2]⟩, 7, Entity.gated⟩
      let foreign : Entity GatedKey := ⟨⟨[1, 2]⟩, 8, Entity.note⟩
      let hidden : Entity GatedKey := ⟨⟨[0, 5]⟩, 9, .derived "Hidden" Entity.gated⟩
      let w := (start c).after [.recordStore v false]
      (w.step (.recordFetch foreign true)).1 = .written (.error .expiringOnCanonical) ∧
        (w.step (.recordFetch foreign true)).2 = w.countRefusal ∧
        (w.step (.recordDelete foreign)).1 =
          .written (.error (.typeMismatch Entity.gated Entity.note)) ∧
        (w.step (.recordDelete foreign)).2 = w.countRefusal ∧
        (w.step (.recordDelete foreign)).2.cache.metrics.rejectedWrites.value = 1 ∧
        w.step (.recordStore hidden false) = (.written (.ok none), w) := by
  let c : Cache GatedKey := ⟨Entity.gated, ⟨⟨1000⟩, true⟩,
    .replicate shardCount (.empty ⟨1000⟩), .permanent .empty, .zero⟩
  have hc : Cache.create Entity.gated ⟨⟨1000⟩, true⟩ = .ok c := create_eq_ok_iff.mpr ⟨rfl, rfl⟩
  refine ⟨c, hc, ?_⟩
  intro v foreign hidden w
  have hfetch := refusal_atomic (w := w) (.fetch true : Op.Writes foreign true _)
  have hdelete := refusal_atomic (w := w) (.delete : Op.Writes foreign false _)
  have hstore := refusal_atomic (w := w) (.store false : Op.Writes hidden false _)
  obtain ⟨htype, hconfig, -⟩ := hfetch.2.2.2.2 _ _ c _ hc rfl
  have hforeign : foreign.tag.ForeignTo w.cache.elementType := by
    rw [htype, ← TypeTag.admits_eq_false_iff]
    decide
  have hhidden : ¬ hidden.tag.ForeignTo w.cache.elementType := by
    rw [htype, ← TypeTag.admits_eq_false_iff]
    decide
  have hcounted := hdelete.2.2.1 (.inr hforeign)
  refine ⟨hfetch.1.mpr ⟨?_, rfl⟩, hfetch.2.2.1 (.inr hforeign),
    (hdelete.2.1 _ _).mpr ⟨⟨htype.symm, rfl⟩, nofun, hforeign⟩, hcounted, ?_,
    hstore.2.2.2.1 ?_ rfl⟩
  · rw [hconfig]
  · rw [hcounted]
    rfl
  · rintro (⟨-, hasked⟩ | hnot)
    · cases hasked
    · exact hhidden hnot

end World

end Cache

end TieredCache
