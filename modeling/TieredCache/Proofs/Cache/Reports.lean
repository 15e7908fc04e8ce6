import TieredCache.Proofs.Cache.Run
import TieredCache.Proofs.Metrics

/-!
# What a run reports

A step of a run reports one event or none, and which one can be read off the step: a look-up reports what
it resolves to, a scan whether it answers, a write whether it is refused or accepted. After a run the
counters are those of the reported events in their order.
-/

namespace TieredCache.Cache

variable {κ : Type} [Key κ] {c : Cache κ} {reg : Registry κ} {timely : Prop} {now : Nat}

/-- The answer hands something out, or says yes. -/
def Answer.isPositive : Answer κ → Bool
  | .holder found => found.isSome
  | .holders found => found.isSome
  | .certified added => added
  | .written (.ok found) => found.isSome
  | .value found => found.isSome
  | _ => false

/-- The answer is a fault. -/
def Answer.isFault : Answer κ → Bool
  | .written (.error _) => true
  | _ => false

/-- The number of holders that a purge answers. -/
def Answer.removed : Answer κ → Nat
  | .purged count => count
  | _ => 0

/-- The event that is reported for a call with this answer: a fault is a refused write, whatever the call
was, and without a positive answer nothing is reported. -/
def Answer.report (event : Event) (answer : Answer κ) : Option Event :=
  bif answer.isFault then some .rejectedWrite else bif answer.isPositive then some event else none

/-- A step of a run: a call or a move of the clock, and the world that it meets. -/
structure Moment (κ : Type) [Key κ] where
  world : World κ
  op : Op κ

namespace Moment

/-- The answer to the step. -/
def answer (m : Moment κ) : Answer κ :=
  (m.world.step m.op).1

/-- The world after the step. -/
def next (m : Moment κ) : World κ :=
  (m.world.step m.op).2

/-- The key that is looked up, by a look-up or by a read that finds no local copy. -/
def lookedUp? (m : Moment κ) : Option κ :=
  match m.op with
  | .get k => some k
  | .read copies k => if (copies.get? k).isSome then none else some k
  | _ => none

/-- The holder to which the key that is looked up resolves. -/
def resolved? (m : Moment κ) : Option (Holder κ) :=
  m.lookedUp?.bind fun k => (m.world.cache.get m.world.registry m.world.now k).1

/-- The event that the step reports. -/
def event? (m : Moment κ) : Option Event :=
  match m.op with
  | .get _ | .read .. => m.lookedUp?.map fun _ =>
    m.resolved?.elim .getMiss fun h => .getHit (m.next.registry.isTombstone h)
  | .getAll _ => some (.getAll m.answer.isPositive)
  | .certify _ => m.answer.report .certification
  | .getOrTombstone _ => none
  | .recordFetch .. => m.answer.report .fetchWrite
  | .recordStore .. => m.answer.report .storeWrite
  | .recordDelete _ => m.answer.report .deleteWrite
  | .invalidate _ => m.answer.report .invalidation
  | .purge => some (.purge m.answer.removed)
  | .advance _ => none

end Moment

/-! ## The counters after one call -/

theorem metrics_get (c : Cache κ) (reg : Registry κ) (now : Nat) (k : κ) :
    (c.get reg now k).2.1.metrics = c.metrics.record ((c.get reg now k).1.elim .getMiss
      fun h => .getHit ((c.get reg now k).2.2.isTombstone h)) := by
  rw [Cache.get]
  cases selector.ofKey k with
  | none => rfl
  | some i =>
      dsimp only
      rcases (c.shard i).get reg now k (c.coverage.covers now k false).1 with ⟨found, s, reg'⟩
      cases found <;> rfl

theorem metrics_getAll (c : Cache κ) (reg : Registry κ) (now : Nat) (p : κ) :
    (c.getAll reg now p).2.1.metrics =
      c.metrics.record (.getAll (c.getAll reg now p).1.isSome) := by
  rw [Cache.getAll]
  rcases c.coverage.covers now p true with ⟨certified, coverage⟩
  cases certified <;> rfl

theorem metrics_certify (c : Cache κ) (now : Nat) (p : κ) :
    (c.certify now p).2.metrics =
      if (c.certify now p).1 then c.metrics.record .certification else c.metrics := by
  rw [Cache.certify]
  rcases c.coverage.add now p with ⟨added, coverage⟩
  cases added <;> rfl

theorem metrics_getOrTombstone (c : Cache κ) (reg : Registry κ) (now : Nat) (k : κ) :
    (c.getOrTombstone reg now k).2.1.metrics = c.metrics := by
  rw [Cache.getOrTombstone]
  cases selector.ofKey k <;> rfl

theorem metrics_invalidate (c : Cache κ) (reg : Registry κ) (k : κ) :
    (c.invalidate reg k).2.1.metrics =
      if (c.invalidate reg k).1.isSome then c.metrics.record .invalidation else c.metrics := by
  rw [Cache.invalidate]
  cases selector.ofKey k with
  | none => rfl
  | some i =>
      dsimp only
      split <;> rfl

/-- A write is counted before it reaches its shard. It never fails there, so what is counted is what is
answered. -/
theorem Sound.metrics_apply (hc : Sound timely now c reg) (a : Write κ) :
    (c.apply reg now a).2.1.metrics = match (c.apply reg now a).1 with
      | .error _ => c.metrics.record .rejectedWrite
      | .ok none => c.metrics
      | .ok (some _) => c.metrics.record a.event := by
  cases hrefusal : c.refusal? a.value a.flag with
  | some fault =>
      rw [apply_of_refusal hrefusal]
      rfl
  | none =>
      cases hk : selector.ofKey a.value.key with
      | none => rw [apply_of_no_shard hrefusal hk]
      | some i =>
          obtain ⟨h, u, s', reg', hcall, -⟩ := hc.written a hk hrefusal
          rw [hcall]
          rfl

/-! ## The counters after a run -/

namespace Moment

variable {w : World κ} {op : Op κ}

theorem event?_of_write {a : Write κ} (ha : op.write? = some a) :
    (Moment.mk w op).event? =
      (Answer.written (w.cache.apply w.registry w.now a).1).report a.event := by
  have hanswer : (Moment.mk w op).answer = .written (w.cache.apply w.registry w.now a).1 :=
    congrArg Prod.fst (w.step_of_write ha)
  rw [← hanswer]
  cases op <;> cases ha <;> rfl

/-- A read is a look-up for the counters too, or is not counted. -/
theorem event?_read (copies : LocalCopies κ) (k : κ) :
    (Moment.mk w (.read copies k)).event? =
      if (copies.get? k).isSome then none else (Moment.mk w (.get k)).event? := by
  have hnext : (Moment.mk w (.read copies k)).next = _ := w.step_read copies k
  simp only [event?, resolved?, lookedUp?, hnext]
  cases copies.get? k <;> rfl

/-- A step of a sound world counts the event that it reports. -/
theorem metrics_next (hw : w.Sound timely) (op : Op κ) :
    (w.step op).2.cache.metrics = w.cache.metrics.recordAll (Moment.mk w op).event?.toList := by
  have hwrite {a : Write κ} (ha : op.write? = some a) : (w.step op).2.cache.metrics =
      w.cache.metrics.recordAll (Moment.mk w op).event?.toList := by
    rw [w.step_of_write ha, event?_of_write ha]
    refine (Cache.Sound.metrics_apply hw a).trans ?_
    rcases (w.cache.apply w.registry w.now a).1 with fault | (_ | h) <;> rfl
  cases op with
  | get k => exact metrics_get w.cache w.registry w.now k
  | getAll p =>
      refine (metrics_getAll w.cache w.registry w.now p).trans ?_
      simp only [event?, answer, World.step]
      cases (w.cache.getAll w.registry w.now p).1 <;> rfl
  | certify p =>
      refine (metrics_certify w.cache w.now p).trans ?_
      simp only [event?, answer, World.step]
      cases (w.cache.certify w.now p).1 <;> rfl
  | getOrTombstone k => exact metrics_getOrTombstone w.cache w.registry w.now k
  | recordFetch value expiring => exact hwrite rfl
  | recordStore value expiring => exact hwrite rfl
  | recordDelete value => exact hwrite rfl
  | invalidate k =>
      refine (metrics_invalidate w.cache w.registry k).trans ?_
      simp only [event?, answer, World.step]
      cases (w.cache.invalidate w.registry k).1 <;> rfl
  | purge => rfl
  | read copies k =>
      rw [w.step_read, event?_read]
      split
      next => rfl
      next => exact metrics_get w.cache w.registry w.now k
  | advance d => rfl

end Moment

namespace World

variable {w : World κ}

/-- The steps of a run, in order. -/
def moments (w : World κ) : List (Op κ) → List (Moment κ)
  | [] => []
  | op :: rest => ⟨w, op⟩ :: moments (w.step op).2 rest

/-- The events that a run reports, in order. -/
def events (w : World κ) (ops : List (Op κ)) : List Event :=
  (w.moments ops).filterMap Moment.event?

theorem Sound.metrics_after (hw : w.Sound False) (ops : List (Op κ)) :
    (w.after ops).cache.metrics = w.cache.metrics.recordAll (w.events ops) := by
  induction ops generalizing w with
  | nil => rfl
  | cons op rest ih =>
      rw [after_cons, ih (hw.step op nofun).1.sound, Moment.metrics_next hw, ← Metrics.recordAll_append]
      congr 1
      rw [events, events, moments, List.filterMap_cons]
      cases (Moment.mk w op).event? <;> rfl

end World

end TieredCache.Cache
