import TieredCache.Proofs.Cache.Certified
import TieredCache.Proofs.Shard.Blank

/-!
# The permanent tier of a canonical cache

Only writes of a key and its invalidation change the permanent holder of the key; look-ups, scans,
sweeps and certifications leave the permanent tier alone, whatever the clock does. In a canonical cache
a value is always in the permanent tier, so that a look-up answers a tombstone exactly if it finds no
permanent holder.
-/

namespace TieredCache

open Shard

variable {κ : Type} [Key κ]

namespace Shard

theorem permanent_get (s : Shard κ) (reg : Registry κ) (now : Nat) (k : κ) (negative : Bool) :
    (s.get reg now k negative).2.1.permanent = s.permanent := by
  rw [get]
  cases s.permanent.get? k with
  | some h => rfl
  | none =>
      dsimp only
      split
      next => rfl
      next =>
        split
        next => rfl
        next => rfl

/-- A look-up that is to leave a tombstone where it finds nothing always answers a holder. -/
theorem isSome_get (s : Shard κ) (reg : Registry κ) (now : Nat) (k : κ) :
    (s.get reg now k true).1.isSome := by
  rw [get]
  cases s.permanent.get? k with
  | some h => rfl
  | none =>
      dsimp only
      split
      next => rfl
      next => rfl

theorem permanent_getAll (s : Shard κ) (reg : Registry κ) (now : Nat) (p : κ) (canonical : Bool) :
    (s.getAll reg now p canonical).2.1.permanent = s.permanent := by
  cases canonical <;> rfl

end Shard

namespace Cache

variable {c : Cache κ} {reg : Registry κ} {timely : Prop} {now : Nat} {k : κ} {h : Holder κ}

/-! ## Calls that leave the permanent tier alone -/

theorem stored?_get (c : Cache κ) (reg : Registry κ) (now : Nat) (k x : κ) :
    (c.get reg now k).2.1.stored? x = c.stored? x := by
  rw [Cache.get]
  cases hk : selector.ofKey k with
  | none => rfl
  | some i =>
      dsimp only
      have hset : (c.setShard i
          ((c.shard i).get reg now k (c.coverage.covers now k false).1).2.1).stored? x = c.stored? x :=
        stored?_setShard fun _ => by rw [permanent_get]
      split
      next => exact hset
      next => exact hset

/-- A look-up of a certified key answers a holder, unless the key is never cached. -/
theorem isSome_get (c : Cache κ) (reg : Registry κ) (hk : (selector.ofKey k).isSome)
    (hcertified : (c.coverage.covers now k false).1 = true) : (c.get reg now k).1.isSome := by
  obtain ⟨i, hi⟩ := Option.isSome_iff_exists.mp hk
  obtain ⟨h, hfound⟩ := Option.isSome_iff_exists.mp ((c.shard i).isSome_get reg now k)
  rw [Cache.get, hi]
  dsimp only
  rw [hcertified, hfound]
  rfl

theorem stored?_getOrTombstone (c : Cache κ) (reg : Registry κ) (now : Nat) (k x : κ) :
    (c.getOrTombstone reg now k).2.1.stored? x = c.stored? x := by
  rw [Cache.getOrTombstone]
  cases selector.ofKey k with
  | none => rfl
  | some i => exact stored?_setShard fun _ => by rw [permanent_get]

theorem stored?_visitShards {β : Type} {f : Shard κ → Registry κ → β × Shard κ × Registry κ}
    (hf : ∀ s reg reg', (f s reg).1 = (f s reg').1 ∧ (f s reg).2.1 = (f s reg').2.1)
    (hpermanent : ∀ s reg, (f s reg).2.1.permanent = s.permanent) (c : Cache κ)
    (reg : Registry κ) (x : κ) : (c.visitShards reg f).2.1.stored? x = c.stored? x := by
  have hshards := (visitShards_eq hf c reg).1
  rw [stored?, stored?]
  congr 1
  funext i
  rw [hshards, hpermanent]

theorem stored?_getAll (c : Cache κ) (reg : Registry κ) (now : Nat) (p x : κ) :
    (c.getAll reg now p).2.1.stored? x = c.stored? x := by
  rw [Cache.getAll]
  dsimp only
  split
  next =>
    exact stored?_visitShards (fun s reg reg' => getAll_congr s reg reg' now p _)
      (fun s reg => permanent_getAll s reg now p _) _ reg x
  next => rfl

theorem stored?_purge (c : Cache κ) (reg : Registry κ) (now : Nat) (x : κ) :
    (c.purge reg now).2.1.stored? x = c.stored? x :=
  stored?_visitShards (f := fun s reg => s.expire reg now) (fun _ _ _ => ⟨rfl, rfl⟩)
    (fun _ _ => rfl) c reg x

/-! ## Writes -/

theorem Sound.valued_of_stored? (hc : Sound timely now c reg) (hk : c.stored? k = some h) :
    (reg.value? h).isSome := by
  rw [stored?, Option.bind_eq_some_iff] at hk
  obtain ⟨i, -, hk⟩ := hk
  obtain ⟨l, -, -, hv, -⟩ := hc.kept i
  exact hv hk

/-- A seated holder without a permanent seat is recorded as expiring. -/
theorem Sound.placement_of_seat? (hc : Sound timely now c reg) {seat : Seat}
    (hk : c.seat? k = some (h, seat)) (hstored : c.stored? k = none) :
    reg.placement h = .expiring := by
  rw [seat?, Option.bind_eq_some_iff] at hk
  obtain ⟨i, hi, hk⟩ := hk
  obtain ⟨l, ht, -⟩ := hc.kept i
  cases seat with
  | permanent =>
      rw [stored?_of_owns hi, seat?_eq_permanent_iff.mp hk] at hstored
      cases hstored
  | expiring t => exact (ht.seated hk).2.2.2

/-- A write that answers no holder, or a holder of another key, leaves the permanent holder of a key
alone. -/
theorem Sound.stored?_apply (hc : Sound timely now c reg) (a : Write κ)
    (hnone : compare a.value.key k = .eq → ∀ h, (c.apply reg now a).1 ≠ .ok (some h)) :
    (c.apply reg now a).2.1.stored? k = c.stored? k := by
  obtain ⟨result, c', reg', hcall, -, -, haccepted⟩ := hc.apply a
  rw [hcall] at hnone ⊢
  rcases haccepted with ⟨-, -, hshards⟩ | ⟨h, u, rfl, -, -, haccepts⟩
  · exact stored?_congr hshards k
  · apply haccepts.stored?_of_ne
    intro hkey
    exact hnone hkey h rfl

/-- A canonical cache refuses values that are to expire. -/
theorem not_expiring_of_refusal?_eq_none (hcanonical : c.config.canonical = true) {value : Entity κ}
    {expiring : Bool} (haccepted : c.refusal? value expiring = none) : expiring = false := by
  cases expiring with
  | false => rfl
  | true => simp [refusal?, hcanonical] at haccepted

end Cache

end TieredCache
