import TieredCache.Proofs.Cache.Stored

/-!
# Canonical caches along runs

A canonical cache refuses values that are to expire, so that its expiring tier never holds anything but
tombstones. A look-up then tells a value from a tombstone by the permanent tier alone.
-/

namespace TieredCache.Cache

open Shard

variable {κ : Type} [Key κ] {c : Cache κ} {reg : Registry κ} {now : Nat} {k : κ}

/-! ## Tombstones in the expiring tier -/

theorem blank_get (c : Cache κ) (hreg : reg.Blank) (now : Nat) (k : κ) :
    (c.get reg now k).2.2.Blank := by
  rw [Cache.get]
  cases selector.ofKey k with
  | none => exact hreg
  | some i =>
      have hshard := (c.shard i).blank_get hreg now k (c.coverage.covers now k false).1
      dsimp only
      split
      next => exact hshard
      next => exact hshard

theorem blank_getOrTombstone (c : Cache κ) (hreg : reg.Blank) (now : Nat) (k : κ) :
    (c.getOrTombstone reg now k).2.2.Blank := by
  rw [Cache.getOrTombstone]
  cases selector.ofKey k with
  | none => exact hreg
  | some i => exact (c.shard i).blank_get hreg now k true

theorem blank_visit {β : Type} {f : Shard κ → Registry κ → β × Shard κ × Registry κ}
    (hf : ∀ s reg, reg.Blank → (f s reg).2.2.Blank) (shards : List (Shard κ)) (hreg : reg.Blank) :
    (visit f shards reg).2.2.Blank := by
  induction shards generalizing reg with
  | nil => exact hreg
  | cons s rest ih => exact ih (hf s reg hreg)

theorem blank_getAll (c : Cache κ) (hreg : reg.Blank) (now : Nat) (p : κ) :
    (c.getAll reg now p).2.2.Blank := by
  rw [Cache.getAll]
  dsimp only
  split
  next => exact blank_visit (fun s _ hreg => s.blank_getAll hreg p _) _ hreg
  next => exact hreg

theorem blank_purge (c : Cache κ) (hreg : reg.Blank) (now : Nat) : (c.purge reg now).2.2.Blank :=
  blank_visit (f := fun s reg => s.expire reg now) (fun s _ hreg => s.blank_expire hreg) _ hreg

theorem blank_invalidate (c : Cache κ) (hreg : reg.Blank) (k : κ) :
    (c.invalidate reg k).2.2.Blank := by
  rw [Cache.invalidate]
  cases selector.ofKey k with
  | none => exact hreg
  | some i => exact (c.shard i).blank_invalidate hreg

/-- Every write asks for the permanent tier, or has no value for the holder that it overwrites. -/
theorem blank_apply (c : Cache κ) (hcanonical : c.config.canonical = true) (hreg : reg.Blank)
    (now : Nat) {a : Write κ}
    (ha : a.flag = a.expiring ∨ a.carried = none ∧ a.overwrite = true) :
    (c.apply reg now a).2.2.Blank := by
  rw [Cache.apply, Cache.write]
  cases hrefusal : c.refusal? a.value a.flag with
  | some fault => exact hreg
  | none =>
      have hexpiring (h : a.expiring = true) : a.carried = none ∧ a.overwrite = true := by
        refine ha.resolve_left fun hflag => ?_
        rw [hflag, h] at hrefusal
        cases not_expiring_of_refusal?_eq_none hcanonical hrefusal
      cases selector.ofKey a.value.key with
      | none => exact hreg
      | some i =>
          exact (c.shard i).blank_write hreg (fun h => (hexpiring h).1) fun h => (hexpiring h).2

namespace World

variable {w : World κ}

/-- A world with a canonical cache in good order, on any clock. -/
structure Canonical (w : World κ) : Prop where
  sound : w.Sound False
  canonical : w.cache.config.canonical = true
  blank : w.registry.Blank

namespace Canonical

theorem blank_step (hw : w.Canonical) (op : Op κ) : (w.step op).2.registry.Blank := by
  have hwrite {a : Write κ} (ha : op.write? = some a)
      (hasked : a.flag = a.expiring ∨ a.carried = none ∧ a.overwrite = true) :
      (w.step op).2.registry.Blank := by
    rw [w.step_of_write ha]
    exact w.cache.blank_apply hw.canonical hw.blank w.now hasked
  cases op with
  | get k => exact w.cache.blank_get hw.blank w.now k
  | getAll p => exact w.cache.blank_getAll hw.blank w.now p
  | certify p => exact hw.blank
  | getOrTombstone k => exact w.cache.blank_getOrTombstone hw.blank w.now k
  | recordFetch value expiring => exact hwrite rfl (.inl rfl)
  | recordStore value expiring => exact hwrite rfl (.inl rfl)
  | recordDelete value => exact hwrite rfl (.inr ⟨rfl, rfl⟩)
  | invalidate k => exact w.cache.blank_invalidate hw.blank k
  | purge => exact w.cache.blank_purge hw.blank w.now
  | read copies k =>
      rw [step_read]
      split
      next => exact hw.blank
      next => exact w.cache.blank_get hw.blank w.now k
  | advance d => exact hw.blank

theorem step (hw : w.Canonical) (op : Op κ) : (w.step op).2.Canonical where
  sound := (hw.sound.step op nofun).1.sound
  canonical := by rw [(hw.sound.step op nofun).1.config_eq, hw.canonical]
  blank := hw.blank_step op

theorem after (hw : w.Canonical) (ops : List (Op κ)) : (w.after ops).Canonical := by
  induction ops generalizing w with
  | nil => exact hw
  | cons op rest ih => exact ih (hw.step op)

end Canonical

theorem canonical_start {tag : TypeTag} {config : Config} (hc : Cache.create tag config = .ok c)
    (hcanonical : config.canonical = true) : (start c).Canonical where
  sound := sound_start hc
  canonical := by
    obtain ⟨-, rfl⟩ := create_eq_ok_iff.mp hc
    exact hcanonical
  blank := Registry.blank_empty

/-! ## Look-ups -/

/-- The permanent holder of a key. -/
def stored? (w : World κ) (k : κ) : Option (Holder κ) :=
  w.cache.stored? k

/-- A look-up that answers a holder answers a tombstone exactly if the key has no permanent holder. -/
theorem Canonical.isTombstone_get (hw : w.Canonical) {y : Holder κ}
    (hanswer : (w.step (.get k)).1 = .holder (some y)) :
    (w.step (.get k)).2.registry.isTombstone y = true ↔ w.stored? k = none := by
  have hnext := hw.step (.get k)
  have hsame : (w.step (.get k)).2.cache.stored? k = w.stored? k :=
    stored?_get w.cache w.registry w.now k k
  obtain ⟨answer, c', reg', hcall, -, hseated, -⟩ := Cache.Sound.get hw.sound k
  have hstep : w.step (.get k) = (.holder answer, { w with cache := c', registry := reg' }) := by
    rw [World.step, hcall]
  rw [hstep] at hanswer hnext hsame ⊢
  obtain ⟨seat, hseat⟩ := hseated y (Answer.holder.inj hanswer)
  rw [← hsame, Registry.isTombstone, Option.isNone_iff_eq_none]
  cases hstored : c'.stored? k with
  | some h =>
      cases hseat.symm.trans (seat?_of_stored? hstored)
      have hvalue := Cache.Sound.valued_of_stored? hnext.sound hstored
      simpa using Option.isSome_iff_ne_none.mp hvalue
  | none =>
      refine iff_of_true (hnext.blank y ?_) rfl
      exact Cache.Sound.placement_of_seat? hnext.sound hseat hstored

end World

end TieredCache.Cache
