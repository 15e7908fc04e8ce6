import TieredCache.Key.Path
import TieredCache.Proofs.Cache.Run

/-!
# Single membership

Whatever is called, in any order and at any times, a cache has at most one holder for every key: in the
shard that the key's group code picks, under the holder's own key and in one of the two tiers. What the
registry records of a holder is where the cache indexes it, and a holder that is not indexed any more is
recorded as uncached.
-/

namespace TieredCache.Cache

open RecencyRing Shard

variable {κ : Type} [Key κ] {c : Cache κ} {reg : Registry κ} {timely : Prop} {now : Nat} {k : κ}
  {h : Holder κ} {i : Fin shardCount}

/-- The permanent tier of a shard indexes a holder under a key. -/
def PermanentAt (c : Cache κ) (i : Fin shardCount) (k : κ) (h : Holder κ) : Prop :=
  (c.shard i).permanent.get? k = some h

/-- The expiring tier of a shard indexes a holder under a key. -/
def ExpiringAt (c : Cache κ) (i : Fin shardCount) (k : κ) (h : Holder κ) : Prop :=
  (c.shard i).expiring.peek? k = some h

/-- One of the tiers of a shard indexes a holder under a key. -/
def IndexedAt (c : Cache κ) (i : Fin shardCount) (k : κ) (h : Holder κ) : Prop :=
  c.PermanentAt i k h ∨ c.ExpiringAt i k h

/-- Keys, holders, shards, tiers and the registry agree. -/
structure Membership (c : Cache κ) (reg : Registry κ) : Prop where
  unique : ∀ {k i j h h'}, c.IndexedAt i k h → c.IndexedAt j k h' → i = j ∧ h = h'
  routed : ∀ {i k h}, c.IndexedAt i k h →
    h.key = k ∧ ∃ code, Key.groupCode k = some code ∧ i.val = code.toNat % 10
  one_tier : ∀ {i k h}, ¬ (c.PermanentAt i k h ∧ c.ExpiringAt i k h)
  resolved : ∀ {i k}, ((c.shard i).expiring.index.find? k).isSome → ∃ h, c.ExpiringAt i k h
  issued : ∀ {i k h}, c.IndexedAt i k h → reg.Issued h
  permanent_iff : ∀ {h}, reg.Issued h →
    (reg.placement h = .permanent ↔ ∃ i k, c.PermanentAt i k h)
  expiring_iff : ∀ {h}, reg.Issued h →
    (reg.placement h = .expiring ↔ ∃ i k, c.ExpiringAt i k h)
  uncached : ∀ {h}, reg.Issued h → (∀ i k, ¬ c.IndexedAt i k h) → reg.placement h = .uncached
  tombstone : ∀ {i k h}, c.IndexedAt i k h → reg.isTombstone h → c.ExpiringAt i k h

namespace Sound

theorem permanentAt_iff :
    c.PermanentAt i k h ↔ (c.shard i).seat? k = some (h, .permanent) :=
  seat?_eq_permanent_iff.symm

theorem expiringAt_iff (hc : Sound timely now c reg) :
    c.ExpiringAt i k h ↔ ∃ t, (c.shard i).seat? k = some (h, .expiring t) := by
  obtain ⟨l, ht, -⟩ := hc.kept i
  exact ht.peek?_eq_some_iff

theorem indexedAt_iff (hc : Sound timely now c reg) :
    c.IndexedAt i k h ↔ ∃ seat, (c.shard i).seat? k = some (h, seat) := by
  rw [IndexedAt, permanentAt_iff, hc.expiringAt_iff]
  constructor
  · rintro (hseat | ⟨t, hseat⟩)
    · exact ⟨_, hseat⟩
    · exact ⟨_, hseat⟩
  · rintro ⟨seat, hseat⟩
    cases seat with
    | permanent => exact .inl hseat
    | expiring t => exact .inr ⟨t, hseat⟩

/-- An indexed holder is issued, under its own key in the key's shard, and recorded in its tier. -/
theorem seated (hc : Sound timely now c reg) {seat : Seat}
    (hseat : (c.shard i).seat? k = some (h, seat)) :
    h.key = k ∧ Owns i k ∧ reg.Issued h ∧ reg.placement h = seat.placement := by
  obtain ⟨l, ht, -⟩ := hc.kept i
  exact ht.seated hseat

/-- An issued holder that is recorded in a tier has its seat there. -/
theorem exists_seat (hc : Sound timely now c reg) (hh : reg.Issued h)
    (hplaced : reg.placement h ≠ .uncached) :
    ∃ (i : Fin shardCount) (k : κ) (seat : Seat),
      (c.shard i).seat? k = some (h, seat) ∧ seat.placement = reg.placement h := by
  obtain ⟨i, hi⟩ := hc.grouped hh
  obtain ⟨l, ht, -⟩ := hc.kept i
  by_cases hseated : ∃ seat, (c.shard i).seat? h.key = some (h, seat)
  · obtain ⟨seat, hseat⟩ := hseated
    exact ⟨i, h.key, seat, hseat, (ht.seated hseat).2.2.2.symm⟩
  · exact absurd (ht.unseated hh hi fun seat hseat => hseated ⟨seat, hseat⟩) hplaced

/-- Keys, holders, shards, tiers and the registry agree in a sound cache. -/
theorem membership (hc : Sound timely now c reg) : Membership c reg where
  unique {k i j h h'} hi hj := by
    obtain ⟨seat, hi⟩ := hc.indexedAt_iff.mp hi
    obtain ⟨seat', hj⟩ := hc.indexedAt_iff.mp hj
    obtain rfl := Owns.eq (hc.seated hi).2.1 (hc.seated hj).2.1
    rw [hi, Option.some.injEq, Prod.mk.injEq] at hj
    exact ⟨rfl, hj.1⟩
  routed {i k h} hi := by
    obtain ⟨seat, hi⟩ := hc.indexedAt_iff.mp hi
    obtain ⟨hkey, howns, -⟩ := hc.seated hi
    obtain ⟨code, hcode, hshard⟩ := Option.map_eq_some_iff.mp howns
    exact ⟨hkey, code, hcode, (congrArg Fin.val hshard).symm⟩
  one_tier {i k h} hboth := by
    obtain ⟨t, hexpiring⟩ := hc.expiringAt_iff.mp hboth.2
    have hpermanent := permanentAt_iff.mp hboth.1
    rw [hpermanent] at hexpiring
    cases hexpiring
  resolved {i k} hk := by
    obtain ⟨l, ht, -⟩ := hc.kept i
    obtain ⟨handle, hfind⟩ := Option.isSome_iff_exists.mp hk
    obtain ⟨e, he, hkey, -⟩ := (ht.holds.find?_iff k handle).mp hfind
    have hentry := ht.holds.stamped?_eq_some_iff.mpr ⟨e, he, hkey, rfl, rfl⟩
    exact ⟨e.value, hc.expiringAt_iff.mpr ⟨_, ht.seat?_of_stamped? hentry⟩⟩
  issued {i k h} hi := by
    obtain ⟨seat, hi⟩ := hc.indexedAt_iff.mp hi
    exact (hc.seated hi).2.2.1
  permanent_iff {h} hh := by
    constructor
    · intro hplaced
      obtain ⟨i, k, seat, hseat, hsame⟩ := hc.exists_seat hh (by simp [hplaced])
      cases seat with
      | permanent => exact ⟨i, k, permanentAt_iff.mpr hseat⟩
      | expiring t => simp [Seat.placement, hplaced] at hsame
    · rintro ⟨i, k, hi⟩
      exact (hc.seated (permanentAt_iff.mp hi)).2.2.2
  expiring_iff {h} hh := by
    constructor
    · intro hplaced
      obtain ⟨i, k, seat, hseat, hsame⟩ := hc.exists_seat hh (by simp [hplaced])
      cases seat with
      | permanent => simp [Seat.placement, hplaced] at hsame
      | expiring t => exact ⟨i, k, hc.expiringAt_iff.mpr ⟨t, hseat⟩⟩
    · rintro ⟨i, k, hi⟩
      obtain ⟨t, hseat⟩ := hc.expiringAt_iff.mp hi
      exact (hc.seated hseat).2.2.2
  uncached {h} hh hnone := by
    by_contra hplaced
    obtain ⟨i, k, seat, hseat, -⟩ := hc.exists_seat hh hplaced
    exact hnone i k (hc.indexedAt_iff.mpr ⟨seat, hseat⟩)
  tombstone {i k h} hi htombstone := by
    refine hi.resolve_left fun hpermanent => ?_
    obtain ⟨l, -, -, hv, -⟩ := hc.kept i
    have hsome := hv hpermanent
    rw [Registry.isTombstone, Option.isNone_iff_eq_none] at htombstone
    simp [htombstone] at hsome

end Sound

namespace World

/-- After every run from an empty cache each key has one holder at most, every holder that was handed
out is recorded where the cache indexes it, and the others are recorded as uncached. -/
theorem membership_after {tag : TypeTag} {config : Config}
    (hc : Cache.create tag config = .ok c) (ops : List (Op κ)) :
    ((start c).after ops).cache.Membership ((start c).after ops).registry ∧
      ∀ answer ∈ (start c).answers ops, ∀ h ∈ answer.holders?,
        ((start c).after ops).registry.Issued h := by
  have hstart : (start c).Sound False := sound_start hc
  constructor
  · exact (hstart.after nofun).membership
  · exact (hstart.issued_after nofun).2

/-- An entity that moves from tier to tier before a deletion. -/
theorem membership_after_switches :
    ∃ c : Cache PathKey, Cache.create Entity.record (.ofTtl ⟨1000⟩) = .ok c ∧
      let v : Entity PathKey := ⟨⟨[1, 2]⟩, 7, Entity.record⟩
      let w := (start c).after
        [.recordStore v true, .recordStore v false, .advance ⟨2000⟩, .recordDelete v]
      w.cache.Membership w.registry := by
  refine ⟨_, create_eq_ok_iff.mpr ⟨rfl, rfl⟩, ?_⟩
  exact (membership_after (create_eq_ok_iff.mpr ⟨rfl, rfl⟩) _).1

end World

end TieredCache.Cache
