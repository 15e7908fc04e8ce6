import TieredCache.Key.Path
import TieredCache.Proofs.Cache.Lookups

/-!
# Exact scans

A scan answers if a live certification covers its range. It answers the holders of the range each once:
the permanent ones and, unless the cache is canonical, the expiring ones that have not lapsed. Shard
follows shard, in a shard tier follows tier, and in a tier the holders follow the order of their keys.
Apart from the refreshes of what it answers and of the one certification that covers the range, a scan
changes nothing that has not lapsed.
-/

namespace TieredCache

open RecencyRing

/-! ## The order in a shard -/

namespace Shard

variable {κ : Type} [Key κ] {s : Shard κ} {reg : Registry κ} {l : List (Entry (Holder κ))}
  {mine : κ → Prop} {now : Nat} {h : Holder κ}

/-- Permanent holders come before expiring ones, and those of one tier in the order of their keys. -/
def Precedes (reg : Registry κ) (a b : Holder κ) : Prop :=
  reg.placement a = .permanent ∧ reg.placement b = .expiring ∨
    reg.placement a = reg.placement b ∧ compare a.key b.key = .lt

namespace Tracked

theorem pairwise_permanent_under (ht : Tracked mine s reg l) (p : κ) :
    (s.permanent.under p).Pairwise fun a b => compare a.key b.key = .lt := by
  have hkey {e : κ × Holder κ} (he : e ∈ s.permanent.index.under p) : e.2.key = e.1 := by
    have hk : s.permanent.get? e.1 = some e.2 :=
      OrderedMap.find?_eq_some_iff.mpr (OrderedMap.mem_entries_of_mem_under he)
    exact (ht.seated (seat?_of_permanent hk)).1
  apply List.pairwise_map.mpr
  apply (OrderedMap.pairwise_under p).imp_of_mem
  intro a b ha hb hlt
  rw [hkey ha, hkey hb]
  exact hlt

/-- What the scan of the expiring tier answers was recorded there before the scan. -/
theorem placement_of_mem_getAll (ht : Tracked mine s reg l) (hl : Recent now l) {p : κ}
    (hh : h ∈ (s.expiring.getAll reg now p).1) : reg.placement h = .expiring := by
  obtain ⟨-, -, -, -, hanswer⟩ := ht.holds.getAll reg now p
  obtain ⟨-, t, hentry⟩ := (hanswer h).mp hh
  rw [ht.holds.stamped?_expire hl, Option.filter_eq_some_iff] at hentry
  exact (ht.seated (ht.seat?_of_stamped? hentry.1)).2.2.2

/-- A scan of a shard answers in order. -/
theorem pairwise_getAll (ht : Tracked mine s reg l) (hl : Recent now l) (p : κ) (canonical : Bool) :
    (s.getAll reg now p canonical).1.Pairwise (Precedes reg) := by
  have hplaced {h : Holder κ} (hh : h ∈ s.permanent.under p) : reg.placement h = .permanent :=
    (ht.seated (ht.mem_permanent_under hh)).2.2.2
  have hpermanent : (s.permanent.under p).Pairwise (Precedes reg) := by
    apply (ht.pairwise_permanent_under p).imp_of_mem
    intro a b ha hb hlt
    exact .inr ⟨(hplaced ha).trans (hplaced hb).symm, hlt⟩
  cases canonical with
  | true => exact hpermanent
  | false =>
      apply List.pairwise_append.mpr
      refine ⟨hpermanent, ?_, fun a ha b hb => ?_⟩
      · apply (ht.holds.pairwise_getAll reg now p).imp_of_mem
        intro a b ha hb hlt
        have ha := ht.placement_of_mem_getAll hl ha
        have hb := ht.placement_of_mem_getAll hl hb
        exact .inr ⟨ha.trans hb.symm, hlt⟩
      · exact .inl ⟨hplaced ha, ht.placement_of_mem_getAll hl hb⟩

end Tracked

end Shard

namespace Cache

open Shard

variable {κ : Type} [Key κ] {c : Cache κ} {reg : Registry κ} {timely : Prop} {now : Nat} {p : κ}

/-! ## The order in a cache -/

/-- The holders of one shard come before those of the next one, and the holders of one shard in the
order of the shard. -/
def Precedes (reg : Registry κ) (a b : Holder κ) : Prop :=
  ∃ i j : Fin shardCount, Owns i a.key ∧ Owns j b.key ∧
    (i < j ∨ i = j ∧ Shard.Precedes reg a b)

theorem Precedes.ne {a b : Holder κ} (h : Precedes reg a b) : a ≠ b := by
  rintro rfl
  obtain ⟨i, j, hi, hj, hlt | ⟨-, ⟨ha, hb⟩ | ⟨-, hlt⟩⟩⟩ := h
  · obtain rfl := Owns.eq hi hj
    exact Nat.lt_irrefl _ hlt
  · cases ha.symm.trans hb
  · rw [Std.compare_self] at hlt
    cases hlt

/-- A scan answers in order. -/
theorem Sound.pairwise_getAll (hc : Sound timely now c reg) (htimely : timely)
    {hs : List (Holder κ)} (hanswer : (c.getAll reg now p).1 = some hs) :
    hs.Pairwise (Precedes reg) := by
  let run (s : Shard κ) : List (Holder κ) := (s.getAll reg now p c.config.canonical).1
  have howns (i : Fin shardCount) : ∀ h ∈ run (c.shard i), Owns i h.key := by
    obtain ⟨l, ht, -⟩ := hc.kept i
    exact fun h hh => (seated_getAll ht hh).1
  have hrun (i : Fin shardCount) : (run (c.shard i)).Pairwise (Precedes reg) := by
    obtain ⟨l, ht, hl, -⟩ := hc.kept i
    apply (ht.pairwise_getAll (hl htimely) p _).imp_of_mem
    intro a b ha hb hab
    exact ⟨i, i, howns i a ha, howns i b hb, .inr ⟨rfl, hab⟩⟩
  rw [fst_getAll] at hanswer
  split at hanswer
  next =>
    cases hanswer
    rw [List.pairwise_flatten, List.pairwise_map]
    constructor
    · intro r hr
      obtain ⟨s, hs, rfl⟩ := List.mem_map.mp hr
      obtain ⟨i, rfl⟩ := mem_toList_shards_iff.mp hs
      exact hrun i
    · rw [List.pairwise_iff_getElem]
      intro i j hi hj hij a ha b hb
      rw [Vector.length_toList] at hi hj
      simp only [Vector.getElem_toList] at ha hb
      exact ⟨⟨i, hi⟩, ⟨j, hj⟩, howns ⟨i, hi⟩ a ha, howns ⟨j, hj⟩ b hb, .inl hij⟩
  next => cases hanswer

/-- What a scan shows of a key: a permanent holder, or an expiring one that has not lapsed unless the
cache is canonical. -/
theorem Sound.exists_shown_iff (hc : Sound timely now c reg) {k : κ} {h : Holder κ} :
    (∃ seat, c.current? now k = some (h, seat) ∧ (c.config.canonical → seat = .permanent)) ↔
      c.seat? k = some (h, .permanent) ∨ c.config.canonical = false ∧
        ∃ t, c.seat? k = some (h, .expiring t) ∧ now - t ≤ c.config.ttl.nanos := by
  constructor
  · rintro ⟨seat, hk, hshown⟩
    obtain ⟨hk, hfresh⟩ := hc.current?_eq_some_iff.mp hk
    cases seat with
    | permanent => exact .inl hk
    | expiring t =>
        refine .inr ⟨?_, t, hk, by simpa [Seat.lapsed] using hfresh⟩
        rw [← Bool.not_eq_true]
        intro hcanonical
        cases hshown hcanonical
  · rintro (hk | ⟨hexpiring, t, hk, hfresh⟩)
    · exact ⟨.permanent, hc.current?_eq_some_iff.mpr ⟨hk, by simp [Seat.lapsed]⟩, fun _ => rfl⟩
    · refine ⟨.expiring t, hc.current?_eq_some_iff.mpr ⟨hk, by simpa [Seat.lapsed] using hfresh⟩, ?_⟩
      intro hcanonical
      rw [hexpiring] at hcanonical
      cases hcanonical

namespace World

/-! ## Scans after runs -/

/-- The answer `found` of a scan under `p` is exact, and so is what the scan changes between the worlds
`w` and `w'`. -/
structure ScansExactly (w : World κ) (p : κ) (found : Option (List (Holder κ))) (w' : World κ) :
    Prop where
  now_eq : w'.now = w.now
  none_iff : found = none ↔ ∀ q, w.cache.coverage.Live w.now q → ¬ Key.covers q p
  mem_iff : ∀ hs, found = some hs → ∀ h, h ∈ hs ↔ Key.covers p h.key ∧
    (w.cache.seat? h.key = some (h, .permanent) ∨ w.cache.config.canonical = false ∧
      ∃ t, w.cache.seat? h.key = some (h, .expiring t) ∧ w.now - t ≤ w.cache.config.ttl.nanos)
  nodup : ∀ hs, found = some hs → hs.Nodup
  ordered : ∀ hs, found = some hs → hs.Pairwise (Precedes w.registry)
  current?_eq : ∀ x, w'.current? x =
    if found.isSome && (Key.covers p x && !w.cache.config.canonical) then
      (w.current? x).map fun e => (e.1, e.2.refreshed w.now) else w.current? x
  value?_eq : ∀ h, w'.registry.value? h = w.registry.value? h
  placement_eq : ∀ x h seat, w.current? x = some (h, seat) →
    w'.registry.placement h = w.registry.placement h
  covering_unique : ∀ q q', w.cache.coverage.Live w.now q → w.cache.coverage.Live w.now q' →
    Key.covers q p → Key.covers q' p → q = q'
  live_iff : ∀ q, w'.cache.coverage.Live w.now q ↔ w.cache.coverage.Live w.now q
  live?_eq : ∀ q, w'.cache.coverage.live? w.now q = if Key.covers q p
    then (w.cache.coverage.live? w.now q).map fun _ => w.now else w.cache.coverage.live? w.now q

variable [OrderedKey κ] {w : World κ}

/-- A scan of a sound world is exact. -/
theorem Sound.scansExactly (hw : w.Sound True) (hcertified : w.Certified True) (p : κ) :
    ∃ found, (w.step (.getAll p)).1 = .holders found ∧
      w.ScansExactly p found (w.step (.getAll p)).2 := by
  obtain ⟨found, c', reg', hcall, hleads, hcoverage, hsame, -, hcertifies, hnone, hsome⟩ :=
    Cache.Sound.getAll hw p
  have hcurrent (x : κ) : c'.current? w.now x =
      if found.isSome && (Key.covers p x && !w.cache.config.canonical) then
        (w.cache.current? w.now x).map fun e => (e.1, e.2.refreshed w.now)
        else w.cache.current? w.now x := by
    cases found with
    | none => exact hnone rfl x
    | some hs => simpa using (hsome trivial hs rfl).2 x
  have hordered (hs : List (Holder κ)) (hfound : found = some hs) :
      hs.Pairwise (Precedes w.registry) := by
    apply Cache.Sound.pairwise_getAll hw trivial (p := p)
    rw [hcall, hfound]
  have hlive (q : κ) := Coverage.Kept.live?_covers hcertified p true q
  refine ⟨found, by rw [World.step, hcall], ?_⟩
  rw [World.step, hcall]
  exact {
    now_eq := rfl
    none_iff := by
      rw [← Option.not_isSome_iff_eq_none, hcertifies, Coverage.Kept.covers_iff_live hcertified]
      constructor
      · exact fun h q hq hqp => h ⟨q, hq, hqp⟩
      · rintro h ⟨q, hq, hqp⟩
        exact h q hq hqp
    mem_iff := fun hs hfound h => by
      rw [(hsome trivial hs hfound).1 h, Cache.Sound.exists_shown_iff hw]
    nodup := fun hs hfound => (hordered hs hfound).imp Precedes.ne
    ordered := hordered
    current?_eq := hcurrent
    value?_eq := hsame.value?_eq
    placement_eq := fun x h seat hk => by
      have hafter := hcurrent x
      rw [show w.cache.current? w.now x = _ from hk] at hafter
      rw [Cache.Sound.placement_of_current? hw hk]
      split at hafter
      next =>
        exact (hleads.sound.placement_of_current? hafter).trans (Seat.placement_refreshed _ _)
      next => exact hleads.sound.placement_of_current? hafter
    covering_unique := fun q q' hq hq' hqp hqp' =>
      Coverage.Kept.eq_of_live hcertified hq hq' hqp hqp'
    live_iff := fun q => by
      rw [hcoverage]
      exact Coverage.Kept.live_covers_iff hcertified p true q
    live?_eq := fun q => by
      rw [hcoverage]
      simpa using hlive q }

/-- In every world that a run on a clock that never goes back reaches, every scan is exact. -/
theorem scan_exact {tag : TypeTag} {config : Config} (hc : Cache.create tag config = .ok c)
    {ops : List (Op κ)} (hops : (start c).Timely ops) (p : κ) :
    let w := (start c).after ops
    ∃ found, (w.step (.getAll p)).1 = .holders found ∧
      w.ScansExactly p found (w.step (.getAll p)).2 := by
  have hsound : (start c).Sound True := sound_start hc
  have hcertified : (start c).Certified True := certified_start hc
  exact (hsound.after fun _ => hops).scansExactly (hcertified.after hsound fun _ => hops) p

/-- A scan across two shards, one of which has holders in both tiers, after a holder has lapsed. -/
theorem scan_exact_across_shards :
    ∃ c : Cache PathKey, Cache.create Entity.record (.ofTtl ⟨1000⟩) = .ok c ∧
      let v (k : PathKey) : Entity PathKey := ⟨k, 7, Entity.record⟩
      let ops : List (Op PathKey) := [.recordStore (v ⟨[2, 9]⟩) true, .advance ⟨900⟩,
        .recordStore (v ⟨[2, 1]⟩) true, .recordStore (v ⟨[1, 2]⟩) false,
        .recordStore (v ⟨[1, 1]⟩) true, .certify ⟨[]⟩, .advance ⟨200⟩]
      let w := (start c).after ops
      w.ScansExactly ⟨[]⟩ (some [⟨2, ⟨[1, 2]⟩⟩, ⟨3, ⟨[1, 1]⟩⟩, ⟨1, ⟨[2, 1]⟩⟩])
        (w.step (.getAll ⟨[]⟩)).2 := by
  let c : Cache PathKey := ⟨Entity.record, .ofTtl ⟨1000⟩,
    .replicate shardCount (.empty ⟨1000⟩), .aging (.empty ⟨800⟩), .zero⟩
  have hc : Cache.create Entity.record (.ofTtl ⟨1000⟩) = .ok c :=
    create_ofTtl rfl (by decide +kernel)
  refine ⟨c, hc, ?_⟩
  intro v ops w
  have hops : (start c).Timely ops := by
    simp only [ops, v, c]
    decide
  obtain ⟨found, hanswer, hexact⟩ := scan_exact hc hops ⟨[]⟩
  have hscan : (w.step (.getAll ⟨[]⟩)).1 =
      .holders (some [⟨2, ⟨[1, 2]⟩⟩, ⟨3, ⟨[1, 1]⟩⟩, ⟨1, ⟨[2, 1]⟩⟩]) := by
    simp only [w, ops, v, c]
    rfl
  cases hanswer.symm.trans hscan
  exact hexact

end World

end Cache

end TieredCache
