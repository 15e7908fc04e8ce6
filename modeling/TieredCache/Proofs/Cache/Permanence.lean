import TieredCache.Proofs.Cache.KnownAbsence
import TieredCache.Proofs.Cache.Membership
import TieredCache.Proofs.Cache.Retired

/-!
# Values that time does not take away

In a canonical cache the permanent tier indexes the holders with values, and the expiring tier the
tombstones. A value that was stored therefore stays with its holder, whatever time passes and whatever
else is called, until its key is stored, deleted or invalidated again.
-/

namespace TieredCache.Cache

open Shard

variable {κ : Type} [Key κ] {c : Cache κ} {k : κ} {h : Holder κ} {v : Entity κ}

/-- A look-up finds the permanent holder of its key. -/
theorem get_of_stored? (hk : c.stored? k = some h) (reg : Registry κ) (now : Nat) :
    (c.get reg now k).1 = some h := by
  obtain ⟨i, hi, hpermanent⟩ := Option.bind_eq_some_iff.mp hk
  have hshard (negative : Bool) :
      (c.shard i).get reg now k negative = (some h, c.shard i, reg) := by
    rw [Shard.get, show (c.shard i).permanent.get? k = some h from hpermanent]
  rw [Cache.get, hi]
  dsimp only
  rw [hshard]

namespace World

variable {w : World κ} {op : Op κ}

/-! ## Values by tier -/

/-- The tier that indexes a holder tells whether the holder carries a value. -/
theorem Canonical.tier_of_indexedAt (hw : w.Canonical) {i : Fin shardCount}
    (hh : w.cache.IndexedAt i k h) :
    ((w.registry.value? h).isSome ↔ w.registry.placement h = .permanent) ∧
      (w.registry.isTombstone h = true ↔ w.registry.placement h = .expiring) := by
  obtain ⟨seat, hseat⟩ := (Cache.Sound.indexedAt_iff hw.sound).mp hh
  obtain ⟨-, -, -, hplaced⟩ := Cache.Sound.seated hw.sound hseat
  rw [Registry.isTombstone, Option.isNone_iff_eq_none, hplaced]
  cases seat with
  | permanent =>
      obtain ⟨l, -, -, hvalued, -⟩ := Cache.Sound.kept hw.sound i
      have hvalue : (w.registry.value? h).isSome := hvalued (seat?_eq_permanent_iff.mp hseat)
      refine ⟨iff_of_true hvalue rfl, iff_of_false (Option.isSome_iff_ne_none.mp hvalue) ?_⟩
      simp [Seat.placement]
  | expiring t =>
      have hnone : w.registry.value? h = none := hw.blank h hplaced
      rw [hnone]
      refine ⟨iff_of_false Bool.false_ne_true ?_, iff_of_true rfl rfl⟩
      simp [Seat.placement]

/-! ## The value of a permanent holder -/

/-- The permanent holder of a key carries a value. -/
structure Pins (w : World κ) (k : κ) (h : Holder κ) (v : Entity κ) : Prop where
  stored : w.stored? k = some h
  carries : w.registry.value? h = some v

namespace Pins

theorem issued (hpins : w.Pins k h v) (hw : w.Canonical) : h.key = k ∧ w.registry.Issued h :=
  Cache.Sound.issued_of_seat? hw.sound (seat?_of_stored? hpins.stored)

/-- A step that neither writes nor invalidates the key leaves it alone. -/
theorem of_no_write (hpins : w.Pins k h v) (hw : w.Canonical) (hop : op.write? = none)
    (hdrops : ¬ op.Drops k) : (w.step op).2.Pins k h v where
  stored := (hw.sound.stored?_of_no_write hop hdrops).trans hpins.stored
  carries := ((w.spares_step hop).value?_eq (hpins.issued hw).2 trivial).trans hpins.carries

/-- A write leaves the key alone unless it overwrites what the holder of the key carries. -/
theorem of_write (hpins : w.Pins k h v) (hw : w.Canonical) {a : Write κ} (hop : op.write? = some a)
    (hkeeps : compare a.value.key k = .eq → (∃ y, (w.step op).1 = .written (.ok (some y))) →
      a.overwrite = false ∧ a.flag = a.expiring) : (w.step op).2.Pins k h v := by
  obtain ⟨hkey, hissued⟩ := hpins.issued hw
  obtain ⟨result, c', reg', hcall, hleads, -, haccepted⟩ := Cache.Sound.apply hw.sound a
  rw [w.step_of_write hop, hcall] at hkeeps ⊢
  rcases haccepted with ⟨-, rfl, hshards⟩ | ⟨y, u, rfl, hrefusal, hy, haccepts⟩
  · exact ⟨(stored?_congr hshards k).trans hpins.stored, hpins.carries⟩
  · by_cases hsame : compare a.value.key k = .eq
    · -- The write keeps the permanent holder that it finds, with its value, where it is.
      obtain ⟨hoverwrite, hflag⟩ := hkeeps hsame ⟨y, rfl⟩
      obtain rfl := Std.compare_eq_iff_eq.mp hsame
      obtain ⟨rfl, rfl⟩ := haccepts.keeps hoverwrite h hpins.stored
      have hexpiring : a.expiring = false := by
        rw [hflag] at hrefusal
        exact not_expiring_of_refusal?_eq_none hw.canonical hrefusal
      refine ⟨haccepts.stored?_self.trans ?_, haccepts.writes.value?_self.trans hpins.carries⟩
      rw [hexpiring, hpins.carries]
      rfl
    · have hother : h.id ≠ y.id := by
        intro hid
        apply hsame
        rw [← haccepts.key_eq, ← hkey, (hleads.issued hissued).eq_of_id_eq hy hid]
        exact Std.compare_self
      exact ⟨(haccepts.stored?_of_ne k hsame).trans hpins.stored,
        (haccepts.writes.value?_of_ne h hother).trans hpins.carries⟩

theorem step (hpins : w.Pins k h v) (hw : w.Canonical) (hdrops : ¬ op.Drops k)
    (hoverwrites : ¬ op.Overwrites k (w.step op).1) : (w.step op).2.Pins k h v := by
  cases op with
  | recordFetch value expiring => exact hpins.of_write hw rfl fun _ _ => ⟨rfl, rfl⟩
  | recordStore value expiring =>
      apply hpins.of_write hw rfl
      rintro hsame ⟨y, hanswer⟩
      rw [hanswer] at hoverwrites
      exact absurd hsame hoverwrites
  | recordDelete value =>
      apply hpins.of_write hw rfl
      rintro hsame ⟨y, hanswer⟩
      rw [hanswer] at hoverwrites
      exact absurd hsame hoverwrites
  | _ => exact hpins.of_no_write hw rfl hdrops

theorem after (hpins : w.Pins k h v) (hw : w.Canonical) {ops : List (Op κ)}
    (hdrops : ∀ op ∈ ops, ¬ op.Drops k) (hoverwrites : ¬ w.Overwrites k ops) :
    (w.after ops).Pins k h v := by
  induction ops generalizing w with
  | nil => exact hpins
  | cons op rest ih =>
      rw [Overwrites, not_or] at hoverwrites
      apply ih (hpins.step hw (hdrops op List.mem_cons_self) hoverwrites.1) (hw.step op)
      · intro op hop
        exact hdrops op (List.mem_cons_of_mem _ hop)
      · exact hoverwrites.2

/-- A look-up answers the holder with its value. -/
theorem get (hpins : w.Pins k h v) (hw : w.Canonical) :
    (w.step (.get k)).1 = .holder (some h) ∧
      (w.step (.get k)).2.registry.value? h = some v := by
  have hkept : (w.step (.get k)).2.Pins k h v := hpins.of_no_write hw rfl id
  exact ⟨congrArg Answer.holder (get_of_stored? hpins.stored w.registry w.now), hkept.carries⟩

end Pins

/-- An accepted store pins the value to the holder that it answers. -/
theorem Canonical.pins_recordStore (hw : w.Canonical) {expiring : Bool}
    (hanswer : (w.step (.recordStore v expiring)).1 = .written (.ok (some h))) :
    (w.step (.recordStore v expiring)).2.Pins v.key h v where
  stored := hw.stored?_recordStore hanswer
  carries := (hw.accepts_of_write rfl rfl hanswer).2.1 rfl

/-- In every state of a canonical cache an indexed holder carries a value exactly if it is permanent, and
is a tombstone exactly if it is expiring. What a store answers for a key is what look-ups of the key
answer, with the stored value, until the key is stored, deleted or invalidated again. -/
theorem value_lasts {tag : TypeTag} {config : Config} {c : Cache κ}
    (hc : Cache.create tag config = .ok c) (hcanonical : config.canonical = true)
    (before : List (Op κ)) :
    let w := (start c).after before
    (∀ i k h, w.cache.IndexedAt i k h →
      ((w.registry.value? h).isSome ↔ w.registry.placement h = .permanent) ∧
        (w.registry.isTombstone h = true ↔ w.registry.placement h = .expiring)) ∧
    ∀ v x, (w.step (.recordStore v false)).1 = .written (.ok (some x)) →
      ∀ rest, (∀ op ∈ rest, ¬ op.Drops v.key) →
        ¬ (w.step (.recordStore v false)).2.Overwrites v.key rest →
        let later := (w.step (.recordStore v false)).2.after rest
        (later.step (.get v.key)).1 = .holder (some x) ∧
          (later.step (.get v.key)).2.registry.value? x = some v := by
  intro w
  have hw : w.Canonical := (canonical_start hc hcanonical).after before
  constructor
  · intro i k h hh
    exact hw.tier_of_indexedAt hh
  · intro v x hanswer rest hdrops hoverwrites later
    have hnext := hw.step (.recordStore v false)
    have hpins := (hw.pins_recordStore hanswer).after hnext hdrops hoverwrites
    exact hpins.get (hnext.after rest)

/-- A tombstone that turns into a value, which a load of another value, a refused store and a long time
leave as it is. -/
theorem value_lasts_after_deletion :
    ∃ c : Cache PathKey,
      Cache.create Entity.record ((Config.ofTtl ⟨1000⟩).withCanonical true) = .ok c ∧
      let v : Entity PathKey := ⟨⟨[1, 2]⟩, 7, Entity.record⟩
      let v' : Entity PathKey := ⟨⟨[1, 2]⟩, 8, Entity.record⟩
      let w := ((start c).after [.recordDelete v]).step (.recordStore v false)
      let later := w.2.after [.recordFetch v' false, .recordStore v' true, .advance ⟨60000⟩, .purge]
      w.1 = .written (.ok (some ⟨0, v.key⟩)) ∧
        (later.step (.get v.key)).1 = .holder (some ⟨0, v.key⟩) ∧
        (later.step (.get v.key)).2.registry.value? ⟨0, v.key⟩ = some v := by
  let c : Cache PathKey := ⟨Entity.record, (Config.ofTtl ⟨1000⟩).withCanonical true,
    .replicate shardCount (.empty ⟨1000⟩), .permanent .empty, .zero⟩
  have hc : Cache.create Entity.record ((Config.ofTtl ⟨1000⟩).withCanonical true) = .ok c :=
    create_eq_ok_iff.mpr ⟨rfl, rfl⟩
  refine ⟨c, hc, ?_⟩
  intro v v' w later
  have hanswer : w.1 = .written (.ok (some ⟨0, v.key⟩)) := by
    simp only [w, v, c]
    rfl
  have hrefused : ((w.2.after [.recordFetch v' false]).step (.recordStore v' true)).1 =
      .written (.error .expiringOnCanonical) := by
    simp only [w, v, v', c]
    rfl
  have hdrops : ∀ op ∈ [Op.recordFetch v' false, .recordStore v' true, .advance ⟨60000⟩, .purge],
      ¬ op.Drops v.key := by
    simp [Op.Drops]
  have hoverwrites : ¬ w.2.Overwrites v.key
      [.recordFetch v' false, .recordStore v' true, .advance ⟨60000⟩, .purge] := by
    rw [after_cons, after_nil] at hrefused
    simp [Overwrites, Op.Overwrites, hrefused]
  have hlasts := (value_lasts hc rfl [.recordDelete v]).2
  refine ⟨hanswer, ?_⟩
  simp only [later, w] at hdrops hoverwrites hanswer ⊢
  exact hlasts v ⟨0, v.key⟩ hanswer _ hdrops hoverwrites

end World

end TieredCache.Cache
