import TieredCache.Key.Path
import TieredCache.Proofs.Cache.Membership
import TieredCache.Proofs.Shard.Faultless

/-!
# Writes without faults

The only fault that a shard can report is a holder that no tier indexes and that is to change its tier.
No run of a cache or of a single shard comes to it, on any clock: a holder that a write moves is recorded
in one of the tiers, and that tier indexes it and no other does.
-/

namespace TieredCache.Cache

open Shard

variable {κ : Type} [Key κ] {c : Cache κ} {reg : Registry κ} {timely : Prop} {now : Nat}

/-- A refusal names no fault of a shard. -/
theorem refusal?_ne_invariant (c : Cache κ) (value : Entity κ) (expiring : Bool)
    (fault : InvariantFault) : c.refusal? value expiring ≠ some (.invariant fault) := by
  rw [refusal?]
  split
  next => nofun
  next =>
    split
    next => nofun
    next => nofun

/-- A write of a sound cache is refused, passed over or accepted. -/
theorem Sound.fst_apply_ne (hc : Sound timely now c reg) (a : Write κ) (fault : InvariantFault) :
    (c.apply reg now a).1 ≠ .error (.invariant fault) := by
  cases hrefusal : c.refusal? a.value a.flag with
  | some refusal =>
      rw [apply_of_refusal hrefusal]
      intro heq
      cases heq
      exact c.refusal?_ne_invariant _ _ fault hrefusal
  | none =>
      cases hk : selector.ofKey a.value.key with
      | none =>
          rw [apply_of_no_shard hrefusal hk]
          nofun
      | some i =>
          obtain ⟨h, u, c', reg', hcall, -⟩ := hc.accepts a hk hrefusal
          rw [hcall]
          nofun

namespace World

variable {w : World κ}

theorem Sound.fst_step_ne (hw : w.Sound timely) (op : Op κ) (fault : InvariantFault) :
    (w.step op).1 ≠ .written (.error (.invariant fault)) := by
  have hwrite {a : Write κ} (ha : op.write? = some a) :
      (w.step op).1 ≠ .written (.error (.invariant fault)) := by
    rw [w.step_of_write ha]
    intro heq
    exact Cache.Sound.fst_apply_ne hw a fault (Answer.written.inj heq)
  cases op with
  | recordFetch value expiring => exact hwrite rfl
  | recordStore value expiring => exact hwrite rfl
  | recordDelete value => exact hwrite rfl
  | _ => nofun

theorem Sound.answers_ne (hw : w.Sound False) (ops : List (Op κ)) (fault : InvariantFault) :
    ∀ answer ∈ w.answers ops, answer ≠ .written (.error (.invariant fault)) := by
  induction ops generalizing w with
  | nil => simp [answers]
  | cons op rest ih =>
      intro answer hmem
      rcases List.mem_cons.mp hmem with rfl | hmem
      · exact hw.fst_step_ne op fault
      · exact ih (hw.step op False.elim).1.sound answer hmem

/-- No write of a cache, and no write of a single shard, ever answers a fault of a shard. Every holder
that a write moves to another tier, or refreshes in its tier, is in the tier in which it is recorded and
nowhere else. -/
theorem no_invariant_fault {tag : TypeTag} {config : Config} (hc : Cache.create tag config = .ok c)
    (ops : List (Op κ)) (ttl : Duration) (calls : List (Shard.Op κ)) :
    let w := (start c).after ops
    let v := (Session.start ttl : Session κ).after calls
    ((∀ answer ∈ (start c).answers ops, ∀ fault, answer ≠ .written (.error (.invariant fault))) ∧
      ∀ i now k value overwrite h s reg,
        (w.cache.shard i).moving? w.registry now k value overwrite = some (h, s, reg) →
          s.Houses reg h ∧ ∀ j x, w.cache.IndexedAt j x h → j = i ∧ x = k) ∧
      (∀ answer ∈ (Session.start ttl).answers calls, ∀ fault, answer ≠ .written (.error fault)) ∧
      ∀ now k value overwrite h s reg,
        v.shard.moving? v.registry now k value overwrite = some (h, s, reg) → s.Houses reg h := by
  have hstart : (start c).Sound False := sound_start hc
  have hw : ((start c).after ops).Sound False := hstart.after nofun
  have hv := (Session.sound_start (κ := κ) ttl).after calls
  intro w v
  refine ⟨⟨fun answer hmem fault => hstart.answers_ne ops fault answer hmem, ?_⟩, hv.2, ?_⟩
  · intro i now k value overwrite h s reg hmove
    obtain ⟨l, ht, -⟩ := Cache.Sound.kept hw i
    obtain ⟨hkey, howns, hhouses⟩ := ht.moving hmove
    refine ⟨hhouses, fun j x hindexed => ?_⟩
    obtain ⟨seat, hseat⟩ := (Cache.Sound.indexedAt_iff hw).mp hindexed
    obtain ⟨hx, hj, -⟩ := Cache.Sound.seated hw hseat
    obtain rfl : k = x := hkey.symm.trans hx
    exact ⟨hj.eq howns, rfl⟩
  · intro now k value overwrite h s reg hmove
    obtain ⟨l, ht⟩ := hv.1
    exact (ht.moving hmove).2.2

/-- An entity that is stored again after its clock has wrapped around, and a shard that is given a value
under a key that is not its own. -/
theorem no_invariant_fault_wrapped :
    ∃ (c : Cache PathKey) (i : Fin shardCount), Cache.create Entity.record (.ofTtl ⟨1000⟩) = .ok c ∧
      let v : Entity PathKey := ⟨⟨[1, 2]⟩, 7, Entity.record⟩
      let ops : List (Op PathKey) :=
        [.advance ⟨UInt64.size - 1⟩, .recordStore v true, .advance ⟨5000⟩, .recordStore v false]
      let calls : List (Shard.Op PathKey) := [.recordStore ⟨[3]⟩ v true, .recordFetch ⟨[3]⟩ v false]
      let w := (start c).after ops
      ((w.cache.shard i).moving? w.registry w.now v.key none true).map (·.1) =
          some ⟨0, v.key⟩ ∧
        (∀ answer ∈ (start c).answers ops, ∀ fault, answer ≠ .written (.error (.invariant fault))) ∧
        ∀ answer ∈ (Session.start ⟨1000⟩).answers calls, ∀ fault, answer ≠ .written (.error fault) := by
  let c : Cache PathKey := ⟨Entity.record, .ofTtl ⟨1000⟩,
    .replicate shardCount (.empty ⟨1000⟩), .aging (.empty ⟨800⟩), .zero⟩
  have hc : Cache.create Entity.record (.ofTtl ⟨1000⟩) = .ok c :=
    create_ofTtl rfl (by decide +kernel)
  refine ⟨c, ⟨1, by decide⟩, hc, ?_⟩
  intro v ops calls w
  have hfaultless := no_invariant_fault hc ops ⟨1000⟩ calls
  refine ⟨?_, hfaultless.1.1, hfaultless.2.1⟩
  simp only [w, ops, v, c]
  rfl

end World

end TieredCache.Cache
