import TieredCache.Key.Path
import TieredCache.Proofs.Cache.Run
import TieredCache.Proofs.Shard.Retired

/-!
# Retired holders of a cache

Once no tier of a cache indexes a holder that was handed out, nothing that is called afterwards brings it
back, at whatever times: the holder keeps what it carries, no call answers it, and a write of its key
answers another one. The same is true of a shard on its own, which can also be cleared.
-/

namespace TieredCache.Cache

open Shard Registry

variable {κ : Type} [Key κ] {c : Cache κ} {reg : Registry κ} {timely : Prop} {now : Nat} {k : κ}
  {h x : Holder κ}

/-! ## Calls that leave every holder alone -/

theorem spares_get (c : Cache κ) (reg : Registry κ) (now : Nat) (k : κ) :
    Spares (fun _ => True) reg (c.get reg now k).2.2 := by
  rw [Cache.get]
  cases selector.ofKey k with
  | none => exact .refl _ reg
  | some i =>
      have hshard := (c.shard i).spares_get reg now k (c.coverage.covers now k false).1
      dsimp only
      split
      next => exact hshard
      next => exact hshard

theorem spares_getOrTombstone (c : Cache κ) (reg : Registry κ) (now : Nat) (k : κ) :
    Spares (fun _ => True) reg (c.getOrTombstone reg now k).2.2 := by
  rw [Cache.getOrTombstone]
  cases selector.ofKey k with
  | none => exact .refl _ reg
  | some i => exact (c.shard i).spares_get reg now k true

theorem spares_visit {β : Type} {f : Shard κ → Registry κ → β × Shard κ × Registry κ}
    (hf : ∀ s reg, Spares (fun _ => True) reg (f s reg).2.2) (shards : List (Shard κ))
    (reg : Registry κ) : Spares (fun _ => True) reg (visit f shards reg).2.2 := by
  induction shards generalizing reg with
  | nil => exact .refl _ reg
  | cons s rest ih => exact (hf s reg).before (ih _)

theorem spares_getAll (c : Cache κ) (reg : Registry κ) (now : Nat) (p : κ) :
    Spares (fun _ => True) reg (c.getAll reg now p).2.2 := by
  rw [Cache.getAll]
  dsimp only
  split
  next => exact spares_visit (fun s reg => s.spares_getAll reg now p _) _ reg
  next => exact .refl _ reg

theorem spares_purge (c : Cache κ) (reg : Registry κ) (now : Nat) :
    Spares (fun _ => True) reg (c.purge reg now).2.2 :=
  spares_visit (f := fun s reg => s.expire reg now) (fun s reg => s.spares_expire reg now) _ reg

theorem spares_invalidate (c : Cache κ) (reg : Registry κ) (k : κ) :
    Spares (fun _ => True) reg (c.invalidate reg k).2.2 := by
  rw [Cache.invalidate]
  cases selector.ofKey k with
  | none => exact .refl _ reg
  | some i => exact (c.shard i).spares_invalidate reg k

/-! ## Writes -/

theorem Sound.sparesRetired_apply (hc : Sound timely now c reg) (a : Write κ) :
    SparesRetired reg (c.apply reg now a).2.2 := by
  rw [Cache.apply, Cache.write]
  cases c.refusal? a.value a.flag with
  | some fault => exact .refl _ reg
  | none =>
      cases selector.ofKey a.value.key with
      | none => exact .refl _ reg
      | some i =>
          obtain ⟨l, ht, -⟩ := hc.kept i
          exact ht.sparesRetired_write now a.value.key a.carried a.expiring a.overwrite

/-- The holder that a write answers is seated under the key that is written. -/
theorem Sound.seat?_of_apply (hc : Sound timely now c reg) {a : Write κ}
    (hh : (c.apply reg now a).1 = .ok (some h)) :
    ∃ seat, (c.apply reg now a).2.1.seat? a.value.key = some (h, seat) := by
  cases hrefusal : c.refusal? a.value a.flag with
  | some fault =>
      rw [apply_of_refusal hrefusal] at hh
      cases hh
  | none =>
      cases hk : selector.ofKey a.value.key with
      | none =>
          rw [apply_of_no_shard hrefusal hk] at hh
          cases hh
      | some i =>
          obtain ⟨y, u, s', reg', hcall, -, hwritten⟩ := hc.written a hk hrefusal
          rw [hcall] at hh ⊢
          cases hh
          refine ⟨.taken now (a.expiring || u.isNone), ?_⟩
          rw [seat?_of_owns hk, shard_setShard_self]
          exact hwritten.seat?_self

/-- A seated holder is indexed, and its key may be cached. -/
theorem Sound.indexed_of_seat? (hc : Sound timely now c reg) {seat : Seat}
    (hk : c.seat? k = some (h, seat)) :
    reg.placement h ≠ .uncached ∧ (selector.ofKey h.key).isSome := by
  have hkey := (hc.issued_of_seat? hk).1
  rw [seat?, Option.bind_eq_some_iff] at hk
  obtain ⟨i, hi, hk⟩ := hk
  obtain ⟨l, ht, -⟩ := hc.kept i
  exact ⟨ht.placement_ne hk, hkey ▸ Option.isSome_of_eq_some hi⟩

/-! ## Runs -/

namespace World

variable {w : World κ} {op : Op κ}

/-- Only a write changes what a holder carries, or indexes one that has been issued. -/
theorem spares_step (w : World κ) (hop : op.write? = none) :
    Spares (fun _ => True) w.registry (w.step op).2.registry := by
  cases op with
  | get k => exact w.cache.spares_get _ w.now k
  | getAll p => exact w.cache.spares_getAll _ w.now p
  | certify p => exact .refl _ _
  | getOrTombstone k => exact w.cache.spares_getOrTombstone _ w.now k
  | recordFetch value expiring => cases hop
  | recordStore value expiring => cases hop
  | recordDelete value => cases hop
  | invalidate k => exact w.cache.spares_invalidate _ k
  | purge => exact w.cache.spares_purge _ w.now
  | read copies k =>
      rw [step_read]
      split
      next => exact .refl _ _
      next => exact w.cache.spares_get _ w.now k
  | advance d => exact .refl _ _

theorem Sound.sparesRetired_step (hw : w.Sound timely) (op : Op κ) :
    SparesRetired w.registry (w.step op).2.registry := by
  cases hop : op.write? with
  | none => exact (w.spares_step hop).of_all
  | some a =>
      rw [w.step_of_write hop]
      exact Cache.Sound.sparesRetired_apply hw a

/-- A holder that is handed out is seated after the call, or was before it if the call took it out. -/
theorem Sound.seated_of_holders (hw : w.Sound timely) (hh : h ∈ (w.step op).1.holders?) :
    (∃ k seat, w.cache.seat? k = some (h, seat)) ∨
      ∃ k seat, (w.step op).2.cache.seat? k = some (h, seat) := by
  have hwrite {a : Write κ} (ha : op.write? = some a) :
      ∃ k seat, (w.step op).2.cache.seat? k = some (h, seat) := by
    rw [w.step_of_write ha] at hh ⊢
    exact ⟨_, Cache.Sound.seat?_of_apply hw (Answer.mem_holders?_written.mp hh)⟩
  cases op with
  | get k =>
      obtain ⟨answer, c', reg', hcall, -, hseated, -⟩ := Cache.Sound.get hw k
      simp only [World.step, hcall] at hh ⊢
      exact .inr ⟨k, hseated h (by simpa [Answer.holders?] using hh)⟩
  | getAll p =>
      obtain ⟨answer, c', reg', hcall, -, -, -, hseated, -⟩ := Cache.Sound.getAll hw p
      simp only [World.step, hcall] at hh ⊢
      cases answer with
      | none => simp [Answer.holders?] at hh
      | some hs => exact .inr ⟨h.key, hseated hs rfl h hh⟩
  | certify p => simp [World.step, Answer.holders?] at hh
  | getOrTombstone k =>
      obtain ⟨answer, c', reg', hcall, -, hseated, -⟩ := Cache.Sound.getOrTombstone hw k
      simp only [World.step, hcall] at hh ⊢
      exact .inr ⟨k, hseated h (by simpa [Answer.holders?] using hh)⟩
  | recordFetch value expiring => exact .inr (hwrite rfl)
  | recordStore value expiring => exact .inr (hwrite rfl)
  | recordDelete value => exact .inr (hwrite rfl)
  | invalidate k =>
      obtain ⟨c', reg', hcall, -⟩ := Cache.Sound.invalidate hw k
      simp only [World.step, hcall, Answer.holders?, Option.mem_toList,
        Option.map_eq_some_iff] at hh
      obtain ⟨⟨y, seat⟩, hk, rfl⟩ := hh
      exact .inl ⟨k, seat, hk⟩
  | purge => simp [World.step, Answer.holders?] at hh
  | read copies k => simp [World.step, Answer.holders?] at hh
  | advance d => simp [World.step, Answer.holders?] at hh

/-- A call of a sound cache does not hand out a retired holder. -/
theorem Sound.id_ne_of_holders (hw : w.Sound False) (hx : w.registry.Retired x)
    (hh : h ∈ (w.step op).1.holders?) : h.id ≠ x.id := by
  rcases hw.seated_of_holders hh with ⟨k, seat, hk⟩ | ⟨k, seat, hk⟩
  · exact hx.id_ne (Cache.Sound.indexed_of_seat? hw hk).1
  · have hnext := (hw.step op nofun).1.sound
    exact (hx.later (hw.sparesRetired_step op)).id_ne (hnext.indexed_of_seat? hk).1

/-- A retired holder stays so in every run, keeps what it carries and is not handed out. -/
theorem Sound.retired_after (hw : w.Sound False) (hx : w.registry.Retired x) (ops : List (Op κ)) :
    (w.after ops).registry.Retired x ∧
      (w.after ops).registry.value? x = w.registry.value? x ∧
      ∀ answer ∈ w.answers ops, ∀ h ∈ answer.holders?, h.id ≠ x.id := by
  induction ops generalizing w with
  | nil => exact ⟨hx, rfl, by simp [answers]⟩
  | cons op rest ih =>
      have hspares := hw.sparesRetired_step op
      obtain ⟨hretired, hvalue, hothers⟩ :=
        ih (hw.step op False.elim).1.sound (hx.later hspares)
      refine ⟨hretired, hvalue.trans (hx.value?_eq hspares), fun answer hmem h hh => ?_⟩
      rcases List.mem_cons.mp hmem with rfl | hmem
      · exact hw.id_ne_of_holders hx hh
      · exact hothers answer hmem h hh

/-- The key of a holder that a run hands out may be cached. -/
theorem Sound.isSome_ofKey (hw : w.Sound False) {ops : List (Op κ)} {answer : Answer κ}
    (hanswer : answer ∈ w.answers ops) (hh : h ∈ answer.holders?) :
    (selector.ofKey h.key).isSome := by
  induction ops generalizing w with
  | nil => cases hanswer
  | cons op rest ih =>
      have hnext := (hw.step op nofun).1.sound
      rcases List.mem_cons.mp hanswer with rfl | hmem
      · rcases hw.seated_of_holders hh with ⟨k, seat, hk⟩ | ⟨k, seat, hk⟩
        · exact (Cache.Sound.indexed_of_seat? hw hk).2
        · exact (hnext.indexed_of_seat? hk).2
      · exact ih hnext hmem

/-- Whatever is called and whatever the clock shows, a holder stays where it is: no tier indexes it, it
keeps what it carries, no call hands it out, and a write of its key that is not refused answers another
holder. -/
structure Retires (w : World κ) (x : Holder κ) : Prop where
  uncached : ∀ ops, (w.after ops).registry.placement x = .uncached
  value?_eq : ∀ ops, (w.after ops).registry.value? x = w.registry.value? x
  not_handed_out : ∀ ops, ∀ answer ∈ w.answers ops, ∀ h ∈ answer.holders?, h.id ≠ x.id
  replaced : ∀ ops op a, op.write? = some a → a.value.key = x.key →
    (w.after ops).cache.refusal? a.value a.flag = none →
    ∃ h, ((w.after ops).step op).1 = .written (.ok (some h)) ∧ h.key = x.key ∧ h.id ≠ x.id

theorem Sound.retires (hw : w.Sound False) (hx : w.registry.Retired x)
    (hcached : (selector.ofKey x.key).isSome) : w.Retires x where
  uncached ops := (hw.retired_after hx ops).1.uncached
  value?_eq ops := (hw.retired_after hx ops).2.1
  not_handed_out ops := (hw.retired_after hx ops).2.2
  replaced ops op a ha hkey hrefusal := by
    have hafter : (w.after ops).Sound False := hw.after nofun
    obtain ⟨i, hi⟩ := Option.isSome_iff_exists.mp hcached
    rw [← hkey] at hi
    obtain ⟨h, u, c', reg', hcall, -, -, -, haccepts⟩ :=
      Cache.Sound.accepts hafter a hi hrefusal
    have hanswer : ((w.after ops).step op).1 = .written (.ok (some h)) := by
      rw [(w.after ops).step_of_write ha, hcall]
    refine ⟨h, hanswer, haccepts.key_eq.trans hkey, ?_⟩
    apply hafter.id_ne_of_holders (hw.retired_after hx ops).1
    rw [hanswer]
    exact Answer.mem_holders?_written.mpr rfl

/-- A holder that a cache, or a shard on its own, has handed out and indexes no more never comes back:
whatever is called from then on, it keeps what it carries and writes of its key answer another holder. -/
theorem retires_of_uncached (x : Holder κ) :
    (∀ (tag : TypeTag) (config : Config) (c : Cache κ) (ops : List (Op κ)),
      Cache.create tag config = .ok c →
      (∃ answer ∈ (start c).answers ops, x ∈ answer.holders?) →
      ((start c).after ops).registry.placement x = .uncached →
      ((start c).after ops).Retires x) ∧
    ∀ (ttl : Duration) (ops : List (Shard.Op κ)),
      x ∈ (Session.start ttl).handedOut ops →
      ((Session.start ttl).after ops).registry.placement x = .uncached →
      ((Session.start ttl).after ops).Retires x := by
  constructor
  · rintro tag config c ops hc ⟨answer, hanswer, hx⟩ huncached
    have hstart : (start c).Sound False := sound_start hc
    have hissued : ((start c).after ops).registry.Issued x :=
      (hstart.issued_after nofun).2 answer hanswer x hx
    have hafter : ((start c).after ops).Sound False := hstart.after nofun
    exact hafter.retires ⟨hissued, huncached⟩ (hstart.isSome_ofKey hanswer hx)
  · intro ttl ops hx huncached
    have hstart : (Session.start ttl : Session κ).Sound := Session.sound_start ttl
    have hissued := hstart.issued_of_handedOut hx
    exact (hstart.after ops).1.retires ⟨hissued, huncached⟩

/-- A holder that lapses in a cache, and one that a clearing takes out of a shard after a deletion moved
it between the tiers. -/
theorem retires_of_uncached_lapsed :
    let v : Entity PathKey := ⟨⟨[1, 2]⟩, 7, Entity.record⟩
    let x : Holder PathKey := ⟨0, v.key⟩
    (∃ c : Cache PathKey, Cache.create Entity.record (.ofTtl ⟨1000⟩) = .ok c ∧
      let w := (start c).after [.recordStore v true, .advance ⟨1001⟩, .purge]
      w.registry.value? x = some v ∧ w.Retires x) ∧
    let u := (Session.start ⟨1000⟩).after [.recordStore v.key v false, .recordDelete v.key, .clear]
    u.registry.value? x = none ∧ u.Retires x := by
  intro v x
  constructor
  · let c : Cache PathKey := ⟨Entity.record, .ofTtl ⟨1000⟩,
      .replicate shardCount (.empty ⟨1000⟩), .aging (.empty ⟨800⟩), .zero⟩
    have hc : Cache.create Entity.record (.ofTtl ⟨1000⟩) = .ok c :=
      create_ofTtl rfl (by decide +kernel)
    refine ⟨c, hc, ?_⟩
    intro w
    have hvalue : w.registry.value? x = some v := by
      simp only [w, x, v, c]
      rfl
    have huncached : w.registry.placement x = .uncached := by
      simp only [w, x, v, c]
      rfl
    refine ⟨hvalue, (retires_of_uncached x).1 _ _ c _ hc ?_ huncached⟩
    exact ⟨.written (.ok (some x)), List.mem_cons_self, List.mem_singleton.mpr rfl⟩
  · intro u
    have hvalue : u.registry.value? x = none := by
      simp only [u, x, v]
      rfl
    have huncached : u.registry.placement x = .uncached := by
      simp only [u, x, v]
      rfl
    refine ⟨hvalue, (retires_of_uncached x).2 _ _ ?_ huncached⟩
    exact List.mem_append_left _ (List.mem_singleton.mpr rfl)

end World

end TieredCache.Cache
