import TieredCache.Key.Path
import TieredCache.Proofs.Cache.Certified
import TieredCache.Proofs.Cache.Reports
import TieredCache.Proofs.Coverage.Size

/-!
# Counters account for runs

After a run the counters of a cache say how often each kind of call came to each outcome, and how many
holders the purges took out. They wrap around, so this needs a run whose calls and purged holders can be
counted in a word.
-/

namespace TieredCache.Cache

open Metrics

variable {κ : Type} [Key κ] {c : Cache κ}

/-- A call of the cache, not a move of its clock. -/
def Op.isCall : Op κ → Bool
  | .advance _ => false
  | _ => true

/-! ## What a step counts -/

namespace Moment

/-- How far a step moves a counter. -/
def tally (m : Moment κ) : Field → Nat
  | .getCalls => m.lookedUp?.isSome.toNat
  | .getHits => m.resolved?.isSome.toNat
  | .getMisses => (m.lookedUp?.isSome && m.resolved?.isNone).toNat
  | .tombstoneHits => (m.resolved?.any m.next.registry.isTombstone).toNat
  | .getAllCalls => (m.op matches .getAll _).toNat
  | .getAllCertified => ((m.op matches .getAll _) && m.answer.isPositive).toNat
  | .getAllUncertified => ((m.op matches .getAll _) && !m.answer.isPositive).toNat
  | .certifications => ((m.op matches .certify _) && m.answer.isPositive).toNat
  | .fetchWrites => ((m.op matches .recordFetch ..) && m.answer.isPositive).toNat
  | .storeWrites => ((m.op matches .recordStore ..) && m.answer.isPositive).toNat
  | .deleteWrites => ((m.op matches .recordDelete _) && m.answer.isPositive).toNat
  | .rejectedWrites => m.answer.isFault.toNat
  | .invalidations => ((m.op matches .invalidate _) && m.answer.isPositive).toNat
  | .purgedEntries => m.answer.removed

/-- A look-up resolves to a holder or misses. -/
theorem tally_getCalls (m : Moment κ) :
    m.tally .getCalls = m.tally .getHits + m.tally .getMisses := by
  simp only [tally, resolved?]
  cases m.lookedUp? with
  | none => rfl
  | some k =>
      rw [Option.bind_some]
      cases (m.world.cache.get m.world.registry m.world.now k).1 <;> rfl

theorem tally_getAllCalls (m : Moment κ) :
    m.tally .getAllCalls = m.tally .getAllCertified + m.tally .getAllUncertified := by
  simp only [tally]
  cases (m.op matches .getAll _) <;> cases m.answer.isPositive <;> rfl

/-- The event that a step reports moves every counter as the step is counted. -/
theorem weight_event? (m : Moment κ) (f : Field) : m.event?.elim 0 f.weight = m.tally f := by
  rcases m with ⟨w, op⟩
  have hwritten {a : Write κ} (ha : op.write? = some a) :
      ∃ result, (Moment.mk w op).answer = .written result :=
    ⟨_, congrArg Prod.fst (w.step_of_write ha)⟩
  rw [event?, tally.eq_def]
  cases op with
  | get k =>
      generalize (Moment.mk w (.get k)).resolved? = found
      cases found <;> cases f <;> rfl
  | getAll p => cases f <;> rfl
  | certify p =>
      have hanswer : (Moment.mk w (.certify p)).answer = .certified (w.cache.certify w.now p).1 := rfl
      rw [hanswer]
      cases (w.cache.certify w.now p).1 <;> cases f <;> rfl
  | getOrTombstone k => cases f <;> rfl
  | recordFetch value expiring | recordStore value expiring | recordDelete value =>
      obtain ⟨result, hanswer⟩ := hwritten rfl
      rw [hanswer]
      rcases result with fault | (_ | h) <;> cases f <;> rfl
  | invalidate k =>
      have hanswer : (Moment.mk w (.invalidate k)).answer =
        .holder (w.cache.invalidate w.registry k).1 := rfl
      rw [hanswer]
      cases (w.cache.invalidate w.registry k).1 <;> cases f <;> rfl
  | purge => cases f <;> rfl
  | read copies k =>
      cases hkey : (Moment.mk w (.read copies k)).lookedUp? with
      | none =>
          rw [resolved?, hkey]
          cases f <;> rfl
      | some key =>
          generalize (Moment.mk w (.read copies k)).resolved? = found
          cases found <;> cases f <;> rfl
  | advance d => cases f <;> rfl

/-- What the events of some steps add up to. -/
theorem total_event? (f : Field) (ms : List (Moment κ)) :
    f.total (ms.filterMap event?) = (ms.map fun m => m.tally f).sum := by
  induction ms with
  | nil => rfl
  | cons m rest ih =>
      rw [List.filterMap_cons, List.map_cons, List.sum_cons, ← ih, ← m.weight_event?]
      cases m.event? with
      | none => exact (Nat.zero_add _).symm
      | some e => rfl

end Moment

theorem sum_toNat_eq_countP {α : Type} (p : α → Bool) (l : List α) :
    (l.map fun a => (p a).toNat).sum = l.countP p := by
  induction l with
  | nil => rfl
  | cons a rest ih => cases h : p a <;> simp [h, ih, Nat.add_comm]

namespace World

variable {w : World κ}

/-- How many holders the purges of a run took out. -/
def removed (w : World κ) (ops : List (Op κ)) : Nat :=
  ((w.answers ops).map Answer.removed).sum

theorem answers_eq_map (w : World κ) (ops : List (Op κ)) :
    w.answers ops = (w.moments ops).map Moment.answer := by
  induction ops generalizing w with
  | nil => rfl
  | cons op rest ih => exact congrArg _ (ih (w.step op).2)

theorem total_purgedEntries (w : World κ) (ops : List (Op κ)) :
    Field.purgedEntries.total (w.events ops) = w.removed ops := by
  rw [events, Moment.total_event?, removed, answers_eq_map, List.map_map]
  rfl

/-- A move of the clock reports nothing. -/
theorem length_events_le (w : World κ) (ops : List (Op κ)) :
    (w.events ops).length ≤ ops.countP Op.isCall := by
  induction ops generalizing w with
  | nil => exact Nat.le_refl _
  | cons op rest ih =>
      have hrest := ih (w.step op).2
      rw [events, moments, List.filterMap_cons, List.countP_cons]
      cases hevent : (Moment.mk w op).event? with
      | none => exact Nat.le_add_right_of_le hrest
      | some e =>
          have hcall : op.isCall = true := by
            cases op with
            | advance d => cases hevent
            | _ => rfl
          rw [if_pos hcall]
          exact Nat.succ_le_succ hrest

/-- Where calls and purged holders can be counted in a word, every counter holds what the steps of the run
have counted. -/
theorem toNat_counter_after {tag : TypeTag} {config : Config}
    (hc : Cache.create tag config = .ok c) {ops : List (Op κ)}
    (hcalls : ops.countP Op.isCall < 2 ^ 64) (hremoved : (start c).removed ops < 2 ^ 64) (f : Field) :
    (f.counter ((start c).after ops).cache.metrics).value.toNat =
      (((start c).moments ops).map fun m => m.tally f).sum := by
  have hstart : (start c).Sound False := sound_start hc
  have hzero : c.metrics = .zero := by
    obtain ⟨-, rfl⟩ := create_eq_ok_iff.mp hc
    rfl
  have hword : f.total ((start c).events ops) < 2 ^ 64 := by
    by_cases hf : f = .purgedEntries
    · rw [hf, total_purgedEntries]
      exact hremoved
    · calc f.total ((start c).events ops)
          ≤ ((start c).events ops).length := f.total_le_length hf _
        _ ≤ ops.countP Op.isCall := (start c).length_events_le ops
        _ < 2 ^ 64 := hcalls
  calc (f.counter ((start c).after ops).cache.metrics).value.toNat
      = (f.counter (Metrics.zero.recordAll ((start c).events ops))).value.toNat := by
        rw [hstart.metrics_after ops, ← hzero]
        rfl
    _ = f.total ((start c).events ops) := f.toNat_recordAll hword
    _ = (((start c).moments ops).map fun m => m.tally f).sum := Moment.total_event? f _

/-- A certified range is stored by a certification that tells of a new one. -/
theorem Sound.size_coverage_after (hw : w.Sound False) (ops : List (Op κ)) :
    (w.after ops).cache.coverage.size ≤
      w.cache.coverage.size + ((w.moments ops).map fun m => m.tally .certifications).sum := by
  induction ops generalizing w with
  | nil => exact Nat.le_refl _
  | cons op rest ih =>
      have hstep : (w.step op).2.cache.coverage.size ≤
          w.cache.coverage.size + (Moment.mk w op).tally .certifications := by
        rcases coverage_step hw op with heq | ⟨k, refresh, heq⟩ | ⟨p, rfl, heq⟩
        · rw [heq]
          exact Nat.le_add_right _ _
        · rw [heq]
          exact (Coverage.size_covers_le _ w.now k refresh).trans (Nat.le_add_right _ _)
        · have hadded := (Cache.Sound.certify hw p).2.1
          have htally : (Moment.mk w (.certify p)).tally .certifications =
              (w.cache.coverage.add w.now p).1.toNat := congrArg Bool.toNat hadded
          rw [heq, htally]
          exact Coverage.size_add_le _ w.now p
      calc ((w.step op).2.after rest).cache.coverage.size
          ≤ (w.step op).2.cache.coverage.size +
              (((w.step op).2.moments rest).map fun m => m.tally .certifications).sum :=
            ih (hw.step op nofun).1.sound
        _ ≤ w.cache.coverage.size +
              ((w.moments (op :: rest)).map fun m => m.tally .certifications).sum := by
            rw [moments, List.map_cons, List.sum_cons]
            omega

/-- A snapshot accounts for a run: every counter that it shows is the number of calls of one kind that came
to one outcome, and purges count the holders that they take out. -/
structure Accounts (w : World κ) (ops : List (Op κ)) (s : Snapshot) : Prop where
  getCalls : s.metrics.getCalls.value.toNat =
    (w.moments ops).countP fun m => m.lookedUp?.isSome
  getCalls_eq : s.metrics.getCalls.value.toNat =
    s.metrics.getHits.value.toNat + s.metrics.getMisses.value.toNat
  getHits : s.metrics.getHits.value.toNat =
    (w.moments ops).countP fun m => m.resolved?.isSome
  tombstoneHits : s.metrics.tombstoneHits.value.toNat =
    (w.moments ops).countP fun m => m.resolved?.any m.next.registry.isTombstone
  getAllCalls : s.metrics.getAllCalls.value.toNat =
    (w.moments ops).countP fun m => m.op matches .getAll _
  getAllCalls_eq : s.metrics.getAllCalls.value.toNat =
    s.metrics.getAllCertified.value.toNat + s.metrics.getAllUncertified.value.toNat
  getAllCertified : s.metrics.getAllCertified.value.toNat =
    (w.moments ops).countP fun m => (m.op matches .getAll _) && m.answer.isPositive
  certifications : s.metrics.certifications.value.toNat =
    (w.moments ops).countP fun m => (m.op matches .certify _) && m.answer.isPositive
  coverageSize : s.coverageSize ≤ s.metrics.certifications.value.toNat
  fetchWrites : s.metrics.fetchWrites.value.toNat =
    (w.moments ops).countP fun m => (m.op matches .recordFetch ..) && m.answer.isPositive
  storeWrites : s.metrics.storeWrites.value.toNat =
    (w.moments ops).countP fun m => (m.op matches .recordStore ..) && m.answer.isPositive
  deleteWrites : s.metrics.deleteWrites.value.toNat =
    (w.moments ops).countP fun m => (m.op matches .recordDelete _) && m.answer.isPositive
  rejectedWrites : s.metrics.rejectedWrites.value.toNat =
    (w.moments ops).countP fun m => m.answer.isFault
  invalidations : s.metrics.invalidations.value.toNat =
    (w.moments ops).countP fun m => (m.op matches .invalidate _) && m.answer.isPositive
  purgedEntries : s.metrics.purgedEntries.value.toNat = w.removed ops

/-- After a run from a fresh cache, on any clock, the snapshot accounts for the run. -/
theorem snapshot_accounts {tag : TypeTag} {config : Config} (hc : Cache.create tag config = .ok c)
    (ops : List (Op κ)) (hcalls : ops.countP Op.isCall < 2 ^ 64)
    (hremoved : (start c).removed ops < 2 ^ 64) :
    (start c).Accounts ops ((start c).after ops).cache.snapshot := by
  have hcount (f : Field) := toNat_counter_after hc hcalls hremoved f
  have hsplit {f g h : Field} (hf : ∀ m : Moment κ, m.tally f = m.tally g + m.tally h) :
      (f.counter ((start c).after ops).cache.metrics).value.toNat =
        (g.counter ((start c).after ops).cache.metrics).value.toNat +
          (h.counter ((start c).after ops).cache.metrics).value.toNat := by
    rw [hcount f, hcount g, hcount h, ← List.sum_map_add]
    simp only [hf]
  have hempty : (start c).cache.coverage.size = 0 := by
    obtain ⟨-, rfl⟩ := create_eq_ok_iff.mp hc
    exact Coverage.size_empty config.canonical config.ttl
  have hsize := (sound_start hc).size_coverage_after ops
  rw [hempty, Nat.zero_add, ← hcount] at hsize
  exact {
    getCalls := (hcount .getCalls).trans (sum_toNat_eq_countP _ _)
    getCalls_eq := hsplit Moment.tally_getCalls
    getHits := (hcount .getHits).trans (sum_toNat_eq_countP _ _)
    tombstoneHits := (hcount .tombstoneHits).trans (sum_toNat_eq_countP _ _)
    getAllCalls := (hcount .getAllCalls).trans (sum_toNat_eq_countP _ _)
    getAllCalls_eq := hsplit Moment.tally_getAllCalls
    getAllCertified := (hcount .getAllCertified).trans (sum_toNat_eq_countP _ _)
    certifications := (hcount .certifications).trans (sum_toNat_eq_countP _ _)
    coverageSize := hsize
    fetchWrites := (hcount .fetchWrites).trans (sum_toNat_eq_countP _ _)
    storeWrites := (hcount .storeWrites).trans (sum_toNat_eq_countP _ _)
    deleteWrites := (hcount .deleteWrites).trans (sum_toNat_eq_countP _ _)
    rejectedWrites := (hcount .rejectedWrites).trans (sum_toNat_eq_countP _ _)
    invalidations := (hcount .invalidations).trans (sum_toNat_eq_countP _ _)
    purgedEntries := by
      rw [removed, answers_eq_map, List.map_map]
      exact hcount .purgedEntries }

/-- A tombstone that a look-up leaves counts as a hit, a read with a local copy does not count, a write of a
foreign type counts as a refusal alone, and a purge counts the holder that has lapsed. -/
theorem snapshot_accounts_mixed :
    ∃ c : Cache PathKey, Cache.create Entity.record (.ofTtl ⟨1000⟩) = .ok c ∧
      let k : PathKey := ⟨[1, 2]⟩
      let v : Entity PathKey := ⟨k, 7, Entity.record⟩
      let ops : List (Op PathKey) :=
        [.certify ⟨[1]⟩, .get k, .recordStore v true, .read .empty k, .read (LocalCopies.empty.put v) k,
          .recordFetch ⟨k, 8, Entity.note⟩ false, .getAll ⟨[1]⟩, .getAll ⟨[2]⟩, .advance ⟨2000⟩, .purge,
          .get k, .recordDelete v, .invalidate k]
      let s := ((start c).after ops).cache.snapshot
      ops.countP Op.isCall < 2 ^ 64 ∧ (start c).removed ops < 2 ^ 64 ∧ (start c).Accounts ops s ∧
        s.metrics = ⟨⟨3⟩, ⟨2⟩, ⟨1⟩, ⟨1⟩, ⟨2⟩, ⟨1⟩, ⟨1⟩, ⟨1⟩, ⟨0⟩, ⟨1⟩, ⟨1⟩, ⟨1⟩, ⟨1⟩, ⟨1⟩⟩ := by
  let c : Cache PathKey := ⟨Entity.record, .ofTtl ⟨1000⟩,
    .replicate shardCount (.empty ⟨1000⟩), .aging (.empty ⟨800⟩), .zero⟩
  have hc : Cache.create Entity.record (.ofTtl ⟨1000⟩) = .ok c :=
    create_ofTtl rfl (by decide +kernel)
  refine ⟨c, hc, ?_⟩
  intro k v ops s
  have hcalls : ops.countP Op.isCall < 2 ^ 64 := by decide
  have hremoved : (start c).removed ops < 2 ^ 64 := by
    have hone : (start c).removed ops = 1 := by
      simp only [ops, v, k, c]
      rfl
    omega
  refine ⟨hcalls, hremoved, snapshot_accounts hc ops hcalls hremoved, ?_⟩
  simp only [s, ops, v, k, c]
  rfl

end World

end TieredCache.Cache
