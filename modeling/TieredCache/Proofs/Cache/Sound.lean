import TieredCache.Cache
import TieredCache.Proofs.Shard.Operations

/-!
# Sound caches

In a sound cache every shard is tracked on behalf of the keys that the selector sends to it, every
holder that was ever issued belongs to some shard, and, where time does not run back, the touches of
every shard are in order. Calls change the shard of one key, or all shards one after the other, and keep
a cache sound.
-/

namespace TieredCache

open RecencyRing

namespace Shard

variable {κ : Type} [Key κ] {s s' : Shard κ} {reg reg' : Registry κ}
  {l l' : List (Entry (Holder κ))} {mine : κ → Prop} {timely : Prop} {now : Nat} {ttl : Duration}

/-- A shard in good order: it is tracked, it has no permanent tombstone and, if its clock has never
gone back, its touches are in order. -/
def Kept (timely : Prop) (now : Nat) (ttl : Duration) (mine : κ → Prop) (s : Shard κ)
    (reg : Registry κ) : Prop :=
  ∃ l, Tracked mine s reg l ∧ (timely → Recent now l) ∧ Valued s reg ∧ s.expiring.ttl = ttl

namespace Kept

theorem of_leads (ht : timely → Recent now l) (hv : Valued s reg) (httl : s.expiring.ttl = ttl)
    (hs : Leads mine now s reg l s' reg' l') : Kept timely now ttl mine s' reg' :=
  ⟨l', hs.tracked, fun h => hs.recent (ht h), hs.valued hv, hs.ttl_eq.trans httl⟩

/-- Changes on behalf of other keys do not matter to a shard. -/
theorem of_within {other : κ → Prop} (hs : Kept timely now ttl mine s reg)
    (hreg : Registry.Within other reg reg') (hapart : ∀ k, mine k → ¬ other k) :
    Kept timely now ttl mine s reg' := by
  obtain ⟨l, ht, hl, hv, httl⟩ := hs
  refine ⟨l, ht.of_within hreg hapart, hl, fun {k h} hk => ?_, httl⟩
  obtain ⟨hkey, hmine, hissued, -⟩ := ht.seated (seat?_of_permanent hk)
  rw [Registry.value?, hreg.state_eq hissued (hapart _ (hkey ▸ hmine))]
  exact hv hk

theorem later {later : Nat} (hs : Kept timely now ttl mine s reg) (hle : timely → now ≤ later) :
    Kept timely later ttl mine s reg := by
  obtain ⟨l, ht, hl, hv, httl⟩ := hs
  exact ⟨l, ht, fun h => (hl h).later (hle h), hv, httl⟩

end Kept

end Shard

namespace Cache

open Shard

variable {κ : Type} [Key κ] {c c' : Cache κ} {reg reg' : Registry κ} {timely : Prop} {now : Nat}
  {k : κ} {h : Holder κ}

/-- The selector sends a key to a shard. -/
def Owns (i : Fin shardCount) (k : κ) : Prop :=
  selector.ofKey k = some i

theorem Owns.eq {i j : Fin shardCount} (hi : Owns i k) (hj : Owns j k) : i = j :=
  Option.some.inj (hi.symm.trans hj)

theorem ofKey_of_no_groupCode {k : κ} (hk : Key.groupCode k = none) : selector.ofKey k = none := by
  rw [ShardSelector.ofKey, hk]
  rfl

theorem exists_owns_of_groupCode {k : κ} {code : UInt32} (hk : Key.groupCode k = some code) :
    ∃ i : Fin shardCount, Owns i k := by
  have hsome : (selector.ofKey k).isSome := by
    rw [ShardSelector.ofKey, hk]
    rfl
  exact Option.isSome_iff_exists.mp hsome

theorem shard_congr (hshards : c'.shards = c.shards) (i : Fin shardCount) :
    c'.shard i = c.shard i :=
  congrArg (·.get i) hshards

theorem shard_of_replicate {s : Shard κ} (hshards : c.shards = .replicate shardCount s)
    (i : Fin shardCount) : c.shard i = s := by
  rw [shard, hshards]
  exact Vector.getElem_replicate i.isLt

theorem shard_setShard_self (c : Cache κ) (i : Fin shardCount) (s : Shard κ) :
    (c.setShard i s).shard i = s :=
  Vector.getElem_set_self i.isLt

theorem shard_setShard_of_ne (c : Cache κ) {i j : Fin shardCount} (hij : i ≠ j) (s : Shard κ) :
    (c.setShard i s).shard j = c.shard j :=
  Vector.getElem_set_ne i.isLt j.isLt (Fin.val_ne_of_ne hij)

/-- A cache that was just created has empty shards. -/
theorem create_eq_ok_iff {tag : TypeTag} {config : Config} :
    Cache.create tag config = .ok c ↔ config.validate = .ok () ∧ c =
      ⟨tag, config, .replicate shardCount (.empty config.ttl),
        .empty config.canonical config.ttl, .zero⟩ := by
  rw [Cache.create]
  cases hconfig : config.validate with
  | error fault => simp [bind, Except.bind]
  | ok _ => simp [bind, Except.bind, pure, Except.pure, eq_comm]

/-- A cache that is not the only holder of its entities certifies for a time that is worked out once. -/
theorem create_ofTtl {tag : TypeTag} {ttl life : Duration}
    (hvalid : (Config.ofTtl ttl).validate = .ok ()) (hlife : Coverage.lifetime ttl = life) :
    Cache.create tag (.ofTtl ttl) = .ok (⟨tag, .ofTtl ttl, .replicate shardCount (.empty ttl),
      .aging (.empty life), .zero⟩ : Cache κ) := by
  subst hlife
  exact create_eq_ok_iff.mpr ⟨hvalid, rfl⟩

/-- A cache whose shards are in good order, each on behalf of the keys that are sent to it. -/
structure Sound (timely : Prop) (now : Nat) (c : Cache κ) (reg : Registry κ) : Prop where
  kept : ∀ i : Fin shardCount, (c.shard i).Kept timely now c.config.ttl (Owns i) reg
  grouped : ∀ {h}, reg.Issued h → ∃ i : Fin shardCount, Owns i h.key

namespace Sound

/-- A cache without entries is sound when no holder was issued. -/
theorem create {tag : TypeTag} {config : Config} (hc : Cache.create tag config = .ok c)
    (hnone : ∀ h, ¬ reg.Issued h) : Sound timely now c reg := by
  obtain ⟨-, rfl⟩ := create_eq_ok_iff.mp hc
  refine ⟨fun i => ?_, fun hissued => absurd hissued (hnone _)⟩
  rw [shard_of_replicate rfl i]
  exact ⟨[], .empty config.ttl hnone, fun _ => .nil now, nofun, rfl⟩

/-- Settings, counters and certified ranges do not matter to the shards. -/
theorem congr (hc : Sound timely now c reg) (hshards : c'.shards = c.shards)
    (hconfig : c'.config = c.config) : Sound timely now c' reg where
  kept i := by
    have hi := hc.kept i
    rw [← shard_congr hshards, ← hconfig] at hi
    exact hi
  grouped := hc.grouped

theorem later {later : Nat} (hc : Sound timely now c reg) (hle : timely → now ≤ later) :
    Sound timely later c reg where
  kept i := (hc.kept i).later hle
  grouped := hc.grouped

/-- One shard changes, on behalf of its own keys. -/
theorem setShard (hc : Sound timely now c reg) {i : Fin shardCount} {s' : Shard κ}
    (hs : s'.Kept timely now c.config.ttl (Owns i) reg')
    (hreg : Registry.Within (Owns i) reg reg') : Sound timely now (c.setShard i s') reg' where
  kept j := by
    by_cases hj : i = j
    · subst hj
      rw [shard_setShard_self]
      exact hs
    · rw [shard_setShard_of_ne c hj]
      exact (hc.kept j).of_within hreg fun k hk hi => hj (hi.eq hk)
  grouped hx := by
    rcases hreg.fresh hx with hx | hx
    · exact hc.grouped hx
    · exact ⟨i, hx⟩

end Sound

/-! ## Seats of a cache -/

/-- The holder of a key and its seat in the shard of the key, without a sweep or a refresh. -/
def seat? (c : Cache κ) (k : κ) : Option (Holder κ × Seat) :=
  (selector.ofKey k).bind fun i => (c.shard i).seat? k

/-- The seat of a key when lapsed ones count as given up. -/
def current? (c : Cache κ) (now : Nat) (k : κ) : Option (Holder κ × Seat) :=
  (selector.ofKey k).bind fun i => (c.shard i).current? now k

theorem seat?_of_owns {i : Fin shardCount} (hk : Owns i k) : c.seat? k = (c.shard i).seat? k := by
  rw [seat?, show selector.ofKey k = some i from hk, Option.bind_some]

theorem current?_of_owns {i : Fin shardCount} (hk : Owns i k) :
    c.current? now k = (c.shard i).current? now k := by
  rw [current?, show selector.ofKey k = some i from hk, Option.bind_some]

theorem current?_of_no_shard (hk : selector.ofKey k = none) : c.current? now k = none := by
  rw [current?, hk, Option.bind_none]

/-- The holder of a key in the permanent tier. -/
def stored? (c : Cache κ) (k : κ) : Option (Holder κ) :=
  (selector.ofKey k).bind fun i => (c.shard i).permanent.get? k

theorem stored?_of_owns {i : Fin shardCount} (hk : Owns i k) :
    c.stored? k = (c.shard i).permanent.get? k := by
  rw [stored?, show selector.ofKey k = some i from hk, Option.bind_some]

theorem seat?_of_stored? (hk : c.stored? k = some h) : c.seat? k = some (h, .permanent) := by
  rw [stored?, Option.bind_eq_some_iff] at hk
  obtain ⟨i, hi, hk⟩ := hk
  rw [seat?_of_owns hi]
  exact seat?_of_permanent hk

/-- A change of one shard shows in the permanent tier of the cache at the keys of the shard. -/
theorem stored?_setShard {i : Fin shardCount} {s' : Shard κ} {x : κ}
    (hs : Owns i x → s'.permanent.get? x = (c.shard i).permanent.get? x) :
    (c.setShard i s').stored? x = c.stored? x := by
  cases hx : selector.ofKey x with
  | none => rw [stored?, stored?, hx, Option.bind_none, Option.bind_none]
  | some j =>
      rw [stored?_of_owns (c := c.setShard i s') hx, stored?_of_owns (c := c) hx]
      by_cases hj : i = j
      · subst hj
        rw [shard_setShard_self, hs hx]
      · rw [shard_setShard_of_ne c hj]

/-- What a call does to one shard shows in the cache at the keys of the shard. -/
theorem current?_setShard {i : Fin shardCount} {s' : Shard κ} {found : Option (Holder κ × Seat)}
    (hk : Owns i k) (hs : ∀ x, s'.current? now x =
      if compare k x = .eq then found else (c.shard i).current? now x) (x : κ) :
    (c.setShard i s').current? now x =
      if compare k x = .eq then found else c.current? now x := by
  cases hx : selector.ofKey x with
  | none =>
      rw [current?_of_no_shard hx, current?_of_no_shard hx, if_neg]
      intro heq
      obtain rfl := Std.compare_eq_iff_eq.mp heq
      rw [show selector.ofKey k = some i from hk] at hx
      cases hx
  | some j =>
      rw [current?_of_owns (c := c.setShard i s') hx, current?_of_owns (c := c) hx]
      by_cases hj : i = j
      · subst hj
        rw [shard_setShard_self, hs]
      · rw [shard_setShard_of_ne c hj, if_neg]
        intro heq
        obtain rfl := Std.compare_eq_iff_eq.mp heq
        exact hj (Owns.eq hk hx)

/-- A call that leaves the current seats of a shard alone leaves those of the cache alone. -/
theorem current?_setShard_of_same {i : Fin shardCount} {s' : Shard κ} (hk : Owns i k)
    (hs : ∀ x, s'.current? now x = (c.shard i).current? now x) (x : κ) :
    (c.setShard i s').current? now x = c.current? now x := by
  have hif (x : κ) : s'.current? now x = if compare k x = .eq
      then (c.shard i).current? now k else (c.shard i).current? now x := by
    rw [hs]
    split
    next heq => rw [Std.compare_eq_iff_eq.mp heq]
    next => rfl
  rw [current?_setShard hk hif]
  split
  next heq => rw [← current?_of_owns hk, Std.compare_eq_iff_eq.mp heq]
  next => rfl

theorem Sound.issued_of_seat? (hc : Sound timely now c reg) {seat : Seat}
    (hk : c.seat? k = some (h, seat)) : h.key = k ∧ reg.Issued h := by
  rw [seat?, Option.bind_eq_some_iff] at hk
  obtain ⟨i, -, hk⟩ := hk
  obtain ⟨l, ht, -⟩ := hc.kept i
  obtain ⟨hkey, -, hissued, -⟩ := ht.seated hk
  exact ⟨hkey, hissued⟩

/-- What is current at a later moment was current before, and has not lapsed since. -/
theorem Sound.current?_later {later : Nat} (hc : Sound timely now c reg) (hle : now ≤ later)
    (x : κ) : c.current? later x =
      (c.current? now x).filter fun e => !e.2.lapsed c.config.ttl later := by
  cases hi : selector.ofKey x with
  | none =>
      rw [current?_of_no_shard hi, current?_of_no_shard hi]
      rfl
  | some i =>
      obtain ⟨-, -, -, -, httl⟩ := hc.kept i
      rw [current?_of_owns hi, current?_of_owns hi, Shard.current?_later hle, httl]

/-- The current seats are those that have not lapsed. -/
theorem Sound.current?_eq_some_iff (hc : Sound timely now c reg) {seat : Seat} :
    c.current? now k = some (h, seat) ↔
      c.seat? k = some (h, seat) ∧ ¬ seat.lapsed c.config.ttl now := by
  cases hi : selector.ofKey k with
  | none =>
      rw [current?_of_no_shard hi, seat?, hi, Option.bind_none]
      exact ⟨nofun, nofun⟩
  | some i =>
      obtain ⟨-, -, -, -, httl⟩ := hc.kept i
      rw [current?_of_owns hi, seat?_of_owns hi, Shard.current?_eq_some_iff, httl]

/-- A current holder is recorded in the tier of its seat. -/
theorem Sound.placement_of_current? (hc : Sound timely now c reg) {seat : Seat}
    (hk : c.current? now k = some (h, seat)) : reg.placement h = seat.placement := by
  rw [current?, Option.bind_eq_some_iff] at hk
  obtain ⟨i, -, hk⟩ := hk
  obtain ⟨l, ht, -⟩ := hc.kept i
  exact (ht.seated (Shard.current?_eq_some_iff.mp hk).1).2.2.2

theorem Sound.issued_of_current? (hc : Sound timely now c reg) {seat : Seat}
    (hk : c.current? now k = some (h, seat)) : h.key = k ∧ reg.Issued h := by
  rw [current?, Option.bind_eq_some_iff] at hk
  obtain ⟨i, hi, hk⟩ := hk
  apply hc.issued_of_seat?
  rw [seat?_of_owns hi]
  exact (Shard.current?_eq_some_iff.mp hk).1

/-! ## Visits to every shard -/

section Visits

variable {β : Type} {f : Shard κ → Registry κ → β × Shard κ × Registry κ} {ttl : Duration}

/-- Shards that are visited one after the other stay in good order, each on behalf of its own keys. -/
theorem visit_kept {owner : Nat → κ → Prop} {shards : List (Shard κ)}
    (hkept : ∀ i (s : Shard κ), shards[i]? = some s → s.Kept timely now ttl (owner i) reg)
    (hapart : ∀ {i j k}, owner i k → owner j k → i = j)
    (hf : ∀ {mine s reg l}, Tracked mine s reg l →
      ∃ l', Leads mine now s reg l (f s reg).2.1 (f s reg).2.2 l') :
    (∀ i (s : Shard κ), (visit f shards reg).2.1[i]? = some s →
        s.Kept timely now ttl (owner i) (visit f shards reg).2.2) ∧
      Registry.Within (fun k => ∃ i, owner i k) reg (visit f shards reg).2.2 := by
  induction shards generalizing owner reg with
  | nil =>
      refine ⟨fun i s hi => ?_, .refl _ reg⟩
      simp [visit] at hi
  | cons s rest ih =>
      obtain ⟨l, ht, hl, hv, httl⟩ := hkept 0 s rfl
      obtain ⟨l', hleads⟩ := hf ht
      have hrest : ∀ i (x : Shard κ), rest[i]? = some x →
          x.Kept timely now ttl (owner (i + 1)) (f s reg).2.2 := by
        intro i x hx
        apply (hkept (i + 1) x hx).of_within hleads.within
        intro k hk h0
        exact Nat.succ_ne_zero i (hapart hk h0)
      obtain ⟨hkept', hwithin⟩ := ih hrest fun hi hj => Nat.succ.inj (hapart hi hj)
      refine ⟨fun i x hx => ?_, ?_⟩
      · cases i with
        | zero =>
            obtain rfl : (f s reg).2.1 = x := Option.some.inj hx
            apply (Kept.of_leads hl hv httl hleads).of_within hwithin
            rintro k h0 ⟨j, hj⟩
            exact Nat.succ_ne_zero j (hapart hj h0)
        | succ i => exact hkept' i x hx
      · refine (hleads.within.mono fun k hk => ⟨0, hk⟩).trans (hwithin.mono ?_)
        rintro k ⟨i, hi⟩
        exact ⟨i + 1, hi⟩

/-- Visits that do not depend on the registry answer, and change, each shard on its own. -/
theorem visit_eq_map (hf : ∀ s reg reg', (f s reg).1 = (f s reg').1 ∧ (f s reg).2.1 = (f s reg').2.1)
    (shards : List (Shard κ)) (reg reg' : Registry κ) :
    (visit f shards reg').1 = shards.map (fun s => (f s reg).1) ∧
      (visit f shards reg').2.1 = shards.map fun s => (f s reg).2.1 := by
  induction shards generalizing reg' with
  | nil => exact ⟨rfl, rfl⟩
  | cons s rest ih =>
      obtain ⟨hanswers, hshards⟩ := ih (f s reg').2.2
      obtain ⟨hanswer, hshard⟩ := hf s reg' reg
      constructor
      · rw [List.map_cons, ← hanswers, ← hanswer]
        rfl
      · rw [List.map_cons, ← hshards, ← hshard]
        rfl

theorem sameValues_visit (hf : ∀ s reg, Registry.SameValues reg (f s reg).2.2)
    (shards : List (Shard κ)) (reg : Registry κ) :
    Registry.SameValues reg (visit f shards reg).2.2 := by
  induction shards generalizing reg with
  | nil => exact .refl reg
  | cons s rest ih => exact (hf s reg).trans (ih _)

theorem toList_visitShards (c : Cache κ) (reg : Registry κ)
    (f : Shard κ → Registry κ → β × Shard κ × Registry κ) :
    (c.visitShards reg f).2.1.shards.toList = (visit f c.shards.toList reg).2.1 :=
  rfl

theorem toList_shards (c : Cache κ) (i : Fin shardCount) :
    c.shards.toList[i.val]? = some (c.shard i) := by
  rw [Vector.getElem?_toList, Vector.getElem?_eq_getElem i.isLt]
  rfl

theorem mem_toList_shards_iff {s : Shard κ} :
    s ∈ c.shards.toList ↔ ∃ i : Fin shardCount, c.shard i = s := by
  constructor
  · intro hs
    obtain ⟨i, hi, rfl⟩ := Vector.mem_iff_getElem.mp (Vector.mem_toList_iff.mp hs)
    exact ⟨⟨i, hi⟩, rfl⟩
  · rintro ⟨i, rfl⟩
    exact List.mem_of_getElem? (toList_shards c i)

/-- A visit to every shard keeps the cache sound. -/
theorem Sound.visitShards (hc : Sound timely now c reg)
    (hf : ∀ {mine s reg l}, Tracked mine s reg l →
      ∃ l', Leads mine now s reg l (f s reg).2.1 (f s reg).2.2 l') :
    Sound timely now (c.visitShards reg f).2.1 (c.visitShards reg f).2.2 ∧
      ∀ {x}, reg.Issued x → (c.visitShards reg f).2.2.Issued x := by
  let owner (i : Nat) (k : κ) : Prop := (selector.ofKey k).map Fin.val = some i
  have howner (i : Fin shardCount) : owner i = Owns i := by
    funext k
    apply propext
    simp [owner, Owns, Fin.val_inj]
  have hkept : ∀ i (s : Shard κ), c.shards.toList[i]? = some s →
      s.Kept timely now c.config.ttl (owner i) reg := by
    intro i s hs
    obtain ⟨hi, -⟩ := List.getElem?_eq_some_iff.mp hs
    rw [Vector.length_toList] at hi
    have hself := toList_shards c ⟨i, hi⟩
    obtain rfl := Option.some.inj (hself.symm.trans hs)
    exact howner ⟨i, hi⟩ ▸ hc.kept ⟨i, hi⟩
  obtain ⟨hkept', hwithin⟩ :=
    visit_kept hkept (fun hi hj => Option.some.inj (hi.symm.trans hj)) hf
  refine ⟨⟨fun i => ?_, fun {x} hx => ?_⟩, hwithin.issued⟩
  · rw [← howner]
    apply hkept' i
    rw [← toList_visitShards, toList_shards]
  · rcases hwithin.fresh hx with hx | ⟨i, hi⟩
    · exact hc.grouped hx
    · obtain ⟨j, hj, -⟩ := Option.map_eq_some_iff.mp hi
      exact ⟨j, hj⟩

/-- The shards and the answers after visits that do not depend on the registry. -/
theorem visitShards_eq (hf : ∀ s reg reg', (f s reg).1 = (f s reg').1 ∧ (f s reg).2.1 = (f s reg').2.1)
    (c : Cache κ) (reg : Registry κ) :
    (∀ i : Fin shardCount, (c.visitShards reg f).2.1.shard i = (f (c.shard i) reg).2.1) ∧
      ∀ answer, answer ∈ (c.visitShards reg f).1 ↔
        ∃ i : Fin shardCount, answer = (f (c.shard i) reg).1 := by
  obtain ⟨hanswers, hshards⟩ := visit_eq_map hf c.shards.toList reg reg
  constructor
  · intro i
    have hi := toList_shards (c.visitShards reg f).2.1 i
    rw [toList_visitShards, hshards, List.getElem?_map, toList_shards, Option.map_some] at hi
    exact (Option.some.inj hi).symm
  · intro answer
    change answer ∈ (visit f c.shards.toList reg).1 ↔ _
    rw [hanswers, List.mem_map]
    constructor
    · rintro ⟨s, hs, rfl⟩
      obtain ⟨i, rfl⟩ := mem_toList_shards_iff.mp hs
      exact ⟨i, rfl⟩
    · rintro ⟨i, rfl⟩
      exact ⟨c.shard i, mem_toList_shards_iff.mpr ⟨i, rfl⟩, rfl⟩

end Visits

end Cache

end TieredCache
