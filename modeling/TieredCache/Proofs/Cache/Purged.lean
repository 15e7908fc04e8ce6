import TieredCache.Key.Path
import TieredCache.Proofs.Cache.Alike
import TieredCache.Proofs.Cache.Membership
import TieredCache.Proofs.Shard.Sweeps

/-!
# Exact purges

On a clock that never goes back, a purge takes exactly the lapsed holders out of all shards and answers
their number. It releases them, and leaves every other holder with its value, its tier, its last touch and
its place in the order of touches; certified ranges stay as they are. A second purge at the same reading
takes nothing out. Whatever is called after a purge, a caller is told what it would have been told without
the purge, since a call counts a lapsed holder as absent whether or not it is still indexed.
-/

namespace TieredCache.Cache

open RecencyRing hiding id
open Shard

variable {κ : Type} [Key κ] {c : Cache κ} {reg : Registry κ} {timely : Prop} {now : Nat} {k : κ}
  {h : Holder κ}

/-! ## Holders shard by shard -/

/-- Exactly `n` holders have a property. -/
def Counts (p : Holder κ → Prop) (n : Nat) : Prop :=
  ∃ hs : List (Holder κ), hs.Nodup ∧ hs.length = n ∧ ∀ h, h ∈ hs ↔ p h

omit [Key κ] in
theorem Counts.congr {p q : Holder κ → Prop} {n : Nat} (hp : Counts p n) (hpq : ∀ h, p h ↔ q h) :
    Counts q n := by
  obtain ⟨hs, hnodup, hlength, hmem⟩ := hp
  exact ⟨hs, hnodup, hlength, fun h => (hmem h).trans (hpq h)⟩

/-- What the shards list, one shard after the other. -/
def gathered (c : Cache κ) (f : Shard κ → List (Holder κ)) : List (Holder κ) :=
  (c.shards.toList.map f).flatten

/-- What the shards count, all together. -/
def total (c : Cache κ) (f : Shard κ → Nat) : Nat :=
  (c.shards.toList.map f).foldr (· + ·) 0

theorem total_add (c : Cache κ) (f g : Shard κ → Nat) :
    c.total f + c.total g = c.total fun s => f s + g s := by
  rw [total, total, total]
  induction c.shards.toList with
  | nil => rfl
  | cons s rest ih =>
      simp only [List.map_cons, List.foldr_cons] at ih ⊢
      omega

theorem total_congr {f g : Shard κ → Nat} (hfg : ∀ i : Fin shardCount, f (c.shard i) = g (c.shard i)) :
    c.total f = c.total g := by
  rw [total, total]
  congr 1
  refine List.map_congr_left fun s hs => ?_
  obtain ⟨i, rfl⟩ := mem_toList_shards_iff.mp hs
  exact hfg i

theorem length_gathered (c : Cache κ) (f : Shard κ → List (Holder κ)) :
    (c.gathered f).length = c.total fun s => (f s).length := by
  rw [gathered, total]
  induction c.shards.toList with
  | nil => rfl
  | cons s rest ih => rw [List.map_cons, List.flatten_cons, List.length_append, ih, List.map_cons,
      List.foldr_cons]

theorem mem_gathered_iff {f : Shard κ → List (Holder κ)} :
    h ∈ c.gathered f ↔ ∃ i : Fin shardCount, h ∈ f (c.shard i) := by
  simp only [gathered, List.mem_flatten, List.mem_map, mem_toList_shards_iff]
  constructor
  · rintro ⟨hs, ⟨s, ⟨i, rfl⟩, rfl⟩, hh⟩
    exact ⟨i, hh⟩
  · rintro ⟨i, hh⟩
    exact ⟨_, ⟨_, ⟨i, rfl⟩, rfl⟩, hh⟩

/-- Holders that are listed once by the shard of their key are gathered once. -/
theorem nodup_gathered {f : Shard κ → List (Holder κ)}
    (hnodup : ∀ i : Fin shardCount, (f (c.shard i)).Nodup)
    (howns : ∀ i : Fin shardCount, ∀ h ∈ f (c.shard i), Owns i h.key) : (c.gathered f).Nodup := by
  rw [gathered, List.nodup_flatten, List.pairwise_map]
  constructor
  · intro hs hmem
    obtain ⟨s, hs, rfl⟩ := List.mem_map.mp hmem
    obtain ⟨i, rfl⟩ := mem_toList_shards_iff.mp hs
    exact hnodup i
  · rw [List.pairwise_iff_getElem]
    intro i j hi hj hij h hhi hhj
    rw [Vector.length_toList] at hi hj
    simp only [Vector.getElem_toList] at hhi hhj
    have heq := Owns.eq (howns ⟨i, hi⟩ h hhi) (howns ⟨j, hj⟩ h hhj)
    exact Nat.ne_of_lt hij (congrArg Fin.val heq)

/-- A key is seated in the cache as it is seated in some shard. -/
theorem Sound.seat?_eq_some_iff (hc : Sound timely now c reg) {seat : Seat} :
    c.seat? k = some (h, seat) ↔ ∃ i : Fin shardCount, (c.shard i).seat? k = some (h, seat) := by
  constructor
  · intro hk
    rw [seat?, Option.bind_eq_some_iff] at hk
    obtain ⟨i, -, hk⟩ := hk
    exact ⟨i, hk⟩
  · rintro ⟨i, hk⟩
    rw [seat?_of_owns (hc.seated hk).2.1, hk]

/-- Shards that list the holders of some seats list them once. -/
theorem Sound.gathered_iff (hc : Sound timely now c reg) {f : Shard κ → List (Holder κ)}
    {q : Seat → Prop} (hnodup : ∀ i : Fin shardCount, (f (c.shard i)).Nodup)
    (hmem : ∀ (i : Fin shardCount) h,
      h ∈ f (c.shard i) ↔ ∃ seat, (c.shard i).seat? h.key = some (h, seat) ∧ q seat) :
    (c.gathered f).Nodup ∧
      ∀ h, h ∈ c.gathered f ↔ ∃ seat, c.seat? h.key = some (h, seat) ∧ q seat := by
  refine ⟨nodup_gathered hnodup fun i h hh => ?_, fun h => ?_⟩
  · obtain ⟨seat, hseat, -⟩ := (hmem i h).mp hh
    exact (hc.seated hseat).2.1
  · rw [mem_gathered_iff]
    constructor
    · rintro ⟨i, hh⟩
      obtain ⟨seat, hseat, hq⟩ := (hmem i h).mp hh
      exact ⟨seat, hc.seat?_eq_some_iff.mpr ⟨i, hseat⟩, hq⟩
    · rintro ⟨seat, hseat, hq⟩
      obtain ⟨i, hseat⟩ := hc.seat?_eq_some_iff.mp hseat
      exact ⟨i, (hmem i h).mpr ⟨seat, hseat, hq⟩⟩

/-- The expiring seats with a property of their touch. -/
theorem exists_expiring_iff {p : Seat → Prop} {q : Nat → Prop} :
    (∃ seat, p seat ∧ ∃ t, seat = .expiring t ∧ q t) ↔ ∃ t, p (.expiring t) ∧ q t := by
  constructor
  · rintro ⟨-, hseat, t, rfl, ht⟩
    exact ⟨t, hseat, ht⟩
  · rintro ⟨t, hseat, ht⟩
    exact ⟨.expiring t, hseat, t, rfl, ht⟩

/-- Shards that list the holders of some expiring seats list them once. -/
theorem Sound.gathered_expiring_iff (hc : Sound timely now c reg) {f : Shard κ → List (Holder κ)}
    {q : Nat → Prop} (hnodup : ∀ i : Fin shardCount, (f (c.shard i)).Nodup)
    (hmem : ∀ (i : Fin shardCount) h,
      h ∈ f (c.shard i) ↔ ∃ t, (c.shard i).seat? h.key = some (h, .expiring t) ∧ q t) :
    (c.gathered f).Nodup ∧
      ∀ h, h ∈ c.gathered f ↔ ∃ t, c.seat? h.key = some (h, .expiring t) ∧ q t := by
  obtain ⟨hnodup, hmem⟩ := hc.gathered_iff (q := fun seat => ∃ t, seat = .expiring t ∧ q t)
    hnodup fun i h => by rw [hmem, exists_expiring_iff]
  exact ⟨hnodup, fun h => (hmem h).trans exists_expiring_iff⟩

/-! ## What a purge takes out -/

/-- The holders that a purge takes out. -/
def swept (c : Cache κ) (now : Nat) : List (Holder κ) :=
  c.gathered (·.swept now)

theorem visit_expire (shards : List (Shard κ)) (reg : Registry κ) (now : Nat) :
    let visited := visit (fun s reg => s.expire reg now) shards reg
    visited.1 = shards.map (fun s => (s.swept now).length) ∧
      visited.2.1 = shards.map (fun s => (s.expire reg now).2.1) ∧
      visited.2.2 = reg.release (shards.map (·.swept now)).flatten := by
  obtain ⟨hcounts, hshards⟩ := visit_eq_map (f := fun s reg => s.expire reg now)
    (fun _ _ _ => ⟨rfl, rfl⟩) shards reg reg
  refine ⟨hcounts, hshards, ?_⟩
  clear hcounts hshards
  induction shards generalizing reg with
  | nil => rfl
  | cons s rest ih =>
      rw [List.map_cons, List.flatten_cons, Registry.release_append, ← ih]
      rfl

/-- A purge sweeps every shard and releases what it takes out. -/
theorem purge_eq (c : Cache κ) (reg : Registry κ) (now : Nat) :
    ∃ shards : Vector (Shard κ) shardCount,
      c.purge reg now = ((c.swept now).length,
        { c with shards := shards }.record (.purge (c.swept now).length),
        reg.release (c.swept now)) ∧
      shards.toList = c.shards.toList.map fun s => (s.expire reg now).2.1 := by
  obtain ⟨hcounts, hshards, hreg⟩ := visit_expire c.shards.toList reg now
  have hcount : (c.swept now).length = (visit (fun s reg => s.expire reg now)
      c.shards.toList reg).1.foldr (· + ·) 0 := by
    rw [hcounts, swept, length_gathered, total]
  refine ⟨(c.visitShards reg fun s reg => s.expire reg now).2.1.shards, ?_, hshards⟩
  rw [hcount, swept, gathered, ← hreg]
  rfl

theorem shard_eq_of_toList {c' : Cache κ} {f : Shard κ → Shard κ}
    (hshards : c'.shards.toList = c.shards.toList.map f) (i : Fin shardCount) :
    c'.shard i = f (c.shard i) := by
  have hi := toList_shards c' i
  rw [hshards, List.getElem?_map, toList_shards, Option.map_some] at hi
  exact (Option.some.inj hi).symm

/-- A purge that finds every shard swept takes nothing out. -/
theorem purge_eq_self (hc : ∀ (i : Fin shardCount) (reg : Registry κ),
    (c.shard i).expire reg now = (0, c.shard i, reg)) (reg : Registry κ) :
    c.purge reg now = (0, c.record (.purge 0), reg) := by
  obtain ⟨shards, hpurge, hshards⟩ := c.purge_eq reg now
  have hswept : c.swept now = [] := by
    refine List.eq_nil_iff_forall_not_mem.mpr fun h hh => ?_
    obtain ⟨i, hh⟩ := mem_gathered_iff.mp hh
    have hnone : (c.shard i).swept now = [] :=
      List.length_eq_zero_iff.mp (congrArg Prod.fst (hc i reg))
    simp [hnone] at hh
  have hsame : shards = c.shards := by
    rw [← Vector.toList_inj, hshards]
    refine (List.map_congr_left (g := id) fun s hs => ?_).trans (List.map_id _)
    obtain ⟨i, rfl⟩ := mem_toList_shards_iff.mp hs
    exact congrArg (·.2.1) (hc i reg)
  rw [hpurge, hswept, hsame]
  rfl

/-! ## What is left after a purge -/

namespace Sound

theorem counts_permanent (hc : Sound timely now c reg) :
    Counts (fun h => c.seat? h.key = some (h, .permanent))
      (c.gathered (·.permanent.index.values)).length := by
  obtain ⟨hnodup, hmem⟩ := hc.gathered_iff (f := (·.permanent.index.values)) (q := (· = .permanent))
    (fun i => by
      obtain ⟨l, ht, -⟩ := hc.kept i
      exact ht.nodup_permanent)
    (fun i h => by
      obtain ⟨l, ht, -⟩ := hc.kept i
      simpa using ht.mem_permanent_iff)
  exact ⟨_, hnodup, rfl, fun h => by simpa using hmem h⟩

theorem counts_expiring (hc : Sound timely now c reg) :
    Counts (fun h => ∃ t, c.seat? h.key = some (h, .expiring t))
      (c.gathered (·.expiring.ring.toList)).length := by
  obtain ⟨hnodup, hmem⟩ := hc.gathered_expiring_iff (f := (·.expiring.ring.toList))
    (q := fun _ => True)
    (fun i => by
      obtain ⟨l, ht, -⟩ := hc.kept i
      exact ht.nodup_expiring)
    (fun i h => by
      obtain ⟨l, ht, -⟩ := hc.kept i
      simp only [ht.mem_expiring_iff, and_true])
  exact ⟨_, hnodup, rfl, fun h => by simp only [hmem, and_true]⟩

/-- A cache counts the holders of both tiers. -/
theorem size_eq (hc : Sound timely now c reg) :
    c.size = (c.gathered (·.permanent.index.values)).length +
      (c.gathered (·.expiring.ring.toList)).length := by
  rw [length_gathered, length_gathered, total_add]
  refine total_congr fun i => ?_
  obtain ⟨l, ht, -⟩ := hc.kept i
  exact ht.size_eq

/-- A purge takes out the holders of the lapsed seats. -/
theorem swept_iff (hc : Sound timely now c reg) (htimely : timely) :
    (c.swept now).Nodup ∧ ∀ h, h ∈ c.swept now ↔
      ∃ t, c.seat? h.key = some (h, .expiring t) ∧ c.config.ttl.nanos < now - t := by
  refine hc.gathered_expiring_iff (fun i => ?_) fun i h => ?_
  · obtain ⟨l, ht, hl, -⟩ := hc.kept i
    exact ht.nodup_swept (hl htimely)
  · obtain ⟨l, ht, hl, -, httl⟩ := hc.kept i
    rw [ht.mem_swept_iff (hl htimely), httl]

/-- A purge takes out of every shard what a sweep takes out of it. -/
theorem size_add_swept (hc : Sound timely now c reg) {c' : Cache κ}
    (hshards : c'.shards.toList = c.shards.toList.map fun s => (s.expire reg now).2.1) :
    c'.size + (c.swept now).length = c.size := by
  have hleft : c'.size = c.total fun s => (s.expire reg now).2.1.size := by
    rw [size, hshards, List.map_map]
    rfl
  rw [hleft, swept, length_gathered, total_add]
  refine total_congr fun i => ?_
  obtain ⟨l, ht, -⟩ := hc.kept i
  exact ht.size_expire now

section Swept

variable {c' : Cache κ} (hc : Sound timely now c reg) (htimely : timely)
  (hshards : c'.shards.toList = c.shards.toList.map fun s => (s.expire reg now).2.1)

include hc htimely hshards

/-- The seats after a purge are those that have not lapsed. -/
theorem seat?_swept_iff {seat : Seat} : c'.seat? k = some (h, seat) ↔
    c.seat? k = some (h, seat) ∧ ¬ seat.lapsed c.config.ttl now := by
  rw [← hc.current?_eq_some_iff]
  cases hi : selector.ofKey k with
  | none => rw [current?_of_no_shard hi, seat?, hi, Option.bind_none]
  | some i =>
      obtain ⟨l, ht, hl, -⟩ := hc.kept i
      rw [seat?_of_owns hi, current?_of_owns hi, shard_eq_of_toList hshards, ht.seat?_expire (hl htimely)]

/-- A second purge at the same reading takes nothing out. -/
theorem purge_swept (reg' : Registry κ) : c'.purge reg' now = (0, c'.record (.purge 0), reg') := by
  refine purge_eq_self (fun i reg' => ?_) reg'
  obtain ⟨l, ht, hl, -⟩ := hc.kept i
  rw [shard_eq_of_toList hshards]
  exact ht.expire_expire (hl htimely) reg'

end Swept

/-- No touch is later than the present reading. -/
theorem touched_le (hc : Sound timely now c reg) (htimely : timely) {t : Nat}
    (hk : c.seat? k = some (h, .expiring t)) : t ≤ now := by
  obtain ⟨i, hk⟩ := hc.seat?_eq_some_iff.mp hk
  obtain ⟨l, ht, hl, -⟩ := hc.kept i
  obtain rfl := (ht.seated hk).1
  obtain ⟨e, he, -, rfl⟩ := ht.seat?_eq_expiring_iff_mem.mp hk
  exact (hl htimely).touched_le e he

end Sound

namespace World

variable {w : World κ}

/-- A holder of the expiring tier that went untouched for longer than the time to live. -/
def Lapsed (w : World κ) (h : Holder κ) : Prop :=
  ∃ t, w.cache.seat? h.key = some (h, .expiring t) ∧ w.cache.config.ttl.nanos < w.now - t

/-- The answer `count` of a purge is exact, and so is what the purge changes between the worlds `w` and
`w'`. -/
structure PurgesExactly (w : World κ) (count : Nat) (w' : World κ) : Prop where
  counts : Counts w.Lapsed count
  expiring : ∀ h, w.Lapsed h → w.registry.placement h = .expiring
  uncached : ∀ h, w.Lapsed h → w'.registry.placement h = .uncached
  unindexed : ∀ h, w.Lapsed h → ∀ i k, ¬ w'.cache.IndexedAt i k h
  issued_iff : ∀ h, w'.registry.Issued h ↔ w.registry.Issued h
  value?_eq : ∀ h, w'.registry.value? h = w.registry.value? h
  state_eq : ∀ h, w.registry.Issued h → ¬ w.Lapsed h → w'.registry.state h = w.registry.state h
  seat?_eq : ∀ k h seat, w.cache.seat? k = some (h, seat) → ¬ w.Lapsed h →
    w'.cache.seat? k = some (h, seat)
  permanent_eq : ∀ i, (w'.cache.shard i).permanent = (w.cache.shard i).permanent
  entries_eq : ∀ i, (w'.cache.shard i).expiring.ring.entries =
    (w.cache.shard i).expiring.ring.entries.filter fun e =>
      w.now - e.touched ≤ w.cache.config.ttl.nanos
  touched_le : ∀ h k t, w.cache.seat? k = some (h, .expiring t) → t ≤ w.now
  coverage_eq : w'.cache.coverage = w.cache.coverage
  clock_eq : w'.clock = w.clock
  size_add : w'.cache.size + count = w.cache.size
  size_eq : ∃ manual fresh, w'.cache.size = manual + fresh ∧
    Counts (fun h => w.cache.seat? h.key = some (h, .permanent)) manual ∧
    Counts (fun h => ∃ t, w.cache.seat? h.key = some (h, .expiring t) ∧
      w.now - t ≤ w.cache.config.ttl.nanos) fresh
  again : w'.step .purge = (.purged 0, { w' with cache := w'.cache.record (.purge 0) })

theorem not_lapsed_iff {h : Holder κ} {seat : Seat} (hk : w.cache.seat? h.key = some (h, seat)) :
    ¬ w.Lapsed h ↔ ¬ seat.lapsed w.cache.config.ttl w.now := by
  apply not_congr
  constructor
  · rintro ⟨t, ht, hlapsed⟩
    rw [hk, Option.some.injEq, Prod.mk.injEq] at ht
    rw [ht.2]
    exact decide_eq_true hlapsed
  · intro hlapsed
    cases seat with
    | permanent => cases hlapsed
    | expiring t => exact ⟨t, hk, of_decide_eq_true hlapsed⟩

/-- A purge sweeps every shard, releases what it takes out and leads to a sound world. -/
theorem Sound.step_purge (hw : w.Sound timely) :
    let reg' := w.registry.release (w.cache.swept w.now)
    ∃ c', w.step .purge = (.purged (w.cache.swept w.now).length, ⟨c', reg', w.clock⟩) ∧
      c'.shards.toList = w.cache.shards.toList.map (fun s => (s.expire w.registry w.now).2.1) ∧
      c'.coverage = w.cache.coverage ∧ Cache.Sound timely w.now c' reg' := by
  intro reg'
  obtain ⟨shards, hpurge, hshards⟩ := w.cache.purge_eq w.registry w.now
  obtain ⟨count, c', reg'', hcall, hleads, hcoverage, -⟩ := Cache.Sound.purge hw
  have hstep : w.step .purge = (.purged count, ⟨c', reg'', w.clock⟩) := by
    rw [World.step, hcall]
  cases hcall.symm.trans hpurge
  exact ⟨_, hstep, hshards, hcoverage, hleads.sound⟩

/-- A purge of a sound world is exact. -/
theorem Sound.purgesExactly (hw : w.Sound True) :
    ∃ count, (w.step .purge).1 = .purged count ∧ w.PurgesExactly count (w.step .purge).2 := by
  obtain ⟨c', hstep, hshards, hcoverage, hsound⟩ := hw.step_purge
  obtain ⟨hnodup, hmem⟩ := Cache.Sound.swept_iff hw trivial
  have hissued : ∀ h ∈ w.cache.swept w.now, w.registry.Issued h := by
    intro h hh
    obtain ⟨t, hk, -⟩ := (hmem h).mp hh
    exact (Cache.Sound.issued_of_seat? hw hk).2
  have hseat {k : κ} {h : Holder κ} {seat : Seat} : c'.seat? k = some (h, seat) ↔
      w.cache.seat? k = some (h, seat) ∧ ¬ seat.lapsed w.cache.config.ttl w.now :=
    Cache.Sound.seat?_swept_iff hw trivial hshards
  refine ⟨(w.cache.swept w.now).length, by rw [hstep], ?_⟩
  rw [hstep]
  exact {
    counts := ⟨_, hnodup, rfl, hmem⟩
    expiring := fun h hh => by
      obtain ⟨t, hk, -⟩ := hh
      obtain ⟨i, hk⟩ := (Cache.Sound.seat?_eq_some_iff hw).mp hk
      exact (Cache.Sound.seated hw hk).2.2.2
    uncached := fun h hh => by
      have hgone := (hmem h).mpr hh
      rw [Registry.placement_release (hissued h hgone), if_pos (List.mem_map_of_mem hgone)]
    unindexed := fun h hh i k hi => by
      obtain ⟨seat, hk⟩ := hsound.indexedAt_iff.mp hi
      obtain ⟨rfl, -⟩ := hsound.seated hk
      obtain ⟨hk, hfresh⟩ := hseat.mp (hsound.seat?_eq_some_iff.mpr ⟨i, hk⟩)
      exact (not_lapsed_iff hk).mpr hfresh hh
    issued_iff := fun h => Registry.issued_release_iff
    value?_eq := fun h => Registry.value?_release _ _ h
    state_eq := fun h hh hkept =>
      Registry.state_release_of_not_mem hissued hh fun hgone => hkept ((hmem h).mp hgone)
    seat?_eq := fun k h seat hk hkept => by
      obtain ⟨rfl, -⟩ := Cache.Sound.issued_of_seat? hw hk
      exact hseat.mpr ⟨hk, (not_lapsed_iff hk).mp hkept⟩
    permanent_eq := fun i => by
      rw [shard_eq_of_toList hshards]
      rfl
    entries_eq := fun i => by
      obtain ⟨l, ht, hl, -, httl⟩ := hw.kept i
      rw [shard_eq_of_toList hshards, ht.entries_expire (hl trivial), httl]
    touched_le := fun h k t hk => Cache.Sound.touched_le hw trivial hk
    coverage_eq := hcoverage
    clock_eq := rfl
    size_add := Cache.Sound.size_add_swept hw hshards
    size_eq := by
      refine ⟨_, _, hsound.size_eq, ?_, ?_⟩
      · exact hsound.counts_permanent.congr fun h => by simp [hseat, Seat.lapsed]
      · exact hsound.counts_expiring.congr fun h => by simp [hseat, Seat.lapsed]
    again := by
      let w' : World κ := ⟨c', w.registry.release (w.cache.swept w.now), w.clock⟩
      have hagain : c'.purge w'.registry w'.now = (0, c'.record (.purge 0), w'.registry) :=
        Cache.Sound.purge_swept hw trivial hshards w'.registry
      rw [World.step, hagain] }

/-- In every world that a run on a clock that never goes back reaches, a purge is exact, and no
continuation of the run tells whether there was one. -/
theorem purge_exact [OrderedKey κ] {tag : TypeTag} {config : Config}
    (hc : Cache.create tag config = .ok c) {ops : List (Op κ)} (hops : (start c).Timely ops) :
    let w := (start c).after ops
    let w' := (w.step .purge).2
    (∃ count, (w.step .purge).1 = .purged count ∧ w.PurgesExactly count w') ∧
      ∀ rest, w.Timely rest → w'.Timely rest ∧ w'.told rest = w.told rest := by
  intro w w'
  have hstart : (start c).Sound True := sound_start hc
  obtain ⟨m, u, hagrees⟩ := agrees_after hc hops
  refine ⟨(hstart.after fun _ => hops).purgesExactly, fun rest hrest => ?_⟩
  exact (Alike.purge hagrees).told_eq hrest

/-- Two entities of two shards lapse, a third one was looked up in time, and a fourth one is permanent. A
certified key that has lapsed gets a tombstone, and a lapsed key that is fetched gets a fresh holder, with
or without the purge. -/
theorem purge_exact_across_shards :
    ∃ c : Cache PathKey, Cache.create Entity.record (.ofTtl ⟨1000⟩) = .ok c ∧
      let v (k : PathKey) : Entity PathKey := ⟨k, 7, Entity.record⟩
      let ops : List (Op PathKey) := [.recordStore (v ⟨[1, 2]⟩) true,
        .recordStore (v ⟨[2, 5]⟩) true, .recordStore (v ⟨[2, 6]⟩) true,
        .recordStore (v ⟨[1, 3]⟩) false, .advance ⟨600⟩, .get ⟨[2, 6]⟩, .certify ⟨[1]⟩,
        .advance ⟨500⟩]
      let rest : List (Op PathKey) := [.get ⟨[1, 2]⟩, .recordFetch (v ⟨[2, 5]⟩) false, .getAll ⟨[1]⟩]
      let w := (start c).after ops
      let w' := (w.step .purge).2
      (w.step .purge).1 = .purged 2 ∧ w.PurgesExactly 2 w' ∧ w'.cache.size = 2 ∧
        w'.told rest = [.reply (.found (some ⟨⟨4, ⟨[1, 2]⟩⟩, none, .expiring⟩)),
          .reply (.written (.ok (some ⟨⟨5, ⟨[2, 5]⟩⟩, some (v ⟨[2, 5]⟩), .permanent⟩))),
          .scanned (some [⟨⟨3, ⟨[1, 3]⟩⟩, some (v ⟨[1, 3]⟩), .permanent⟩,
            ⟨⟨4, ⟨[1, 2]⟩⟩, none, .expiring⟩])] ∧
        w'.told rest = w.told rest := by
  let c : Cache PathKey := ⟨Entity.record, .ofTtl ⟨1000⟩,
    .replicate shardCount (.empty ⟨1000⟩), .aging (.empty ⟨800⟩), .zero⟩
  have hc : Cache.create Entity.record (.ofTtl ⟨1000⟩) = .ok c :=
    create_ofTtl rfl (by decide +kernel)
  refine ⟨c, hc, ?_⟩
  intro v ops rest w w'
  have hops : (start c).Timely ops := by
    simp only [ops, v, c]
    decide
  have hrest : w.Timely rest := by
    simp only [w, rest, ops, v, c]
    decide
  have hcount : (w.step .purge).1 = .purged 2 := by
    simp only [w, ops, v, c]
    rfl
  obtain ⟨⟨count, hpurged, hexact⟩, hlater⟩ := purge_exact hc hops
  cases hpurged.symm.trans hcount
  refine ⟨hcount, hexact, ?_, ?_, (hlater rest hrest).2⟩
  · simp only [w', w, ops, v, c]
    rfl
  · simp only [w', w, rest, ops, v, c]
    rfl

end World

end TieredCache.Cache
