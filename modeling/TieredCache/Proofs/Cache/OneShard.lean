import TieredCache.Proofs.Cache.Run
import TieredCache.Proofs.Key

/-!
# Scans of one shard

A scan finds only keys that its key covers, on any clock. Rooted keys have the group code of what they
cover, so a scan under a key other than the root finds keys of a single shard, that of its own key. The
main statement is `path_and_text_keys_rooted`: both kinds of key that come with the library are rooted.
-/

namespace TieredCache

variable {κ : Type} [Key κ]

/-! ## What a scan finds is covered -/

theorem Shard.Tracked.covers_of_mem_getAll [OrderedKey κ] {mine : κ → Prop} {s : Shard κ}
    {reg : Registry κ} {l : List (RecencyRing.Entry (Holder κ))} (ht : Tracked mine s reg l) {now : Nat}
    {p : κ} {canonical : Bool} {h : Holder κ} (hh : h ∈ (s.getAll reg now p canonical).1) :
    Key.covers p h.key := by
  cases canonical with
  | true => exact (ht.mem_permanent_under_iff.mp hh).2
  | false =>
      rcases List.mem_append.mp hh with hh | hh
      · exact (ht.mem_permanent_under_iff.mp hh).2
      · obtain ⟨-, -, -, -, hanswer⟩ := ht.holds.getAll reg now p
        obtain ⟨-, -, hswept, -⟩ := ht.holds.expire reg now
        obtain ⟨hmet, t, hold⟩ := (hanswer h).mp hh
        exact (hswept.mem_met_iff (Option.isSome_of_eq_some hold)).mp hmet

namespace Cache

theorem Sound.covers_of_mem_getAll [OrderedKey κ] {timely : Prop} {now : Nat} {c : Cache κ}
    {reg : Registry κ} (hc : Sound timely now c reg) {p : κ} {hs : List (Holder κ)}
    (hanswer : (c.getAll reg now p).1 = some hs) : ∀ h ∈ hs, Key.covers p h.key := by
  rw [fst_getAll] at hanswer
  split at hanswer
  next =>
    cases hanswer
    intro h hh
    obtain ⟨run, hrun, hh⟩ := List.mem_flatten.mp hh
    obtain ⟨s, hs, rfl⟩ := List.mem_map.mp hrun
    obtain ⟨i, rfl⟩ := mem_toList_shards_iff.mp hs
    obtain ⟨l, ht, -⟩ := hc.kept i
    exact ht.covers_of_mem_getAll hh
  next => cases hanswer

end Cache

/-! ## One shard -/

/-- Every scan under a key other than the root finds keys of that key's shard alone: a walk through a map,
and a scan of a cache after any run on any clock. -/
structure ScansOneShard (κ : Type) [Key κ] (root : κ) : Prop where
  walk {ν : Type} (m : OrderedMap κ ν) (s : ShardSelector) {p : κ} (hp : p ≠ root) :
    ∀ e ∈ m.under p, s.ofKey e.1 = s.ofKey p
  scan {tag : TypeTag} {config : Config} {c : Cache κ} (hc : Cache.create tag config = .ok c)
    (ops : List (Cache.Op κ)) {p : κ} (hp : p ≠ root) {hs : List (Holder κ)}
    (hanswer : (((Cache.World.start c).after ops).step (.getAll p)).1 = .holders (some hs)) :
    ∀ h ∈ hs, Cache.selector.ofKey h.key = Cache.selector.ofKey p

theorem RootedKey.ofKey_eq {root : κ} (hroot : RootedKey κ root) (s : ShardSelector) {p k : κ}
    (hp : p ≠ root) (hcovers : Key.covers p k) : s.ofKey k = s.ofKey p := by
  rw [ShardSelector.ofKey, ShardSelector.ofKey, hroot.groupCode_eq hp hcovers]

theorem RootedKey.scansOneShard [OrderedKey κ] {root : κ} (hroot : RootedKey κ root) :
    ScansOneShard κ root where
  walk m s p hp e he := hroot.ofKey_eq s hp (OrderedMap.mem_under_iff.mp he).2
  scan hc ops p hp hs hanswer h hh := by
    have hstart : (Cache.World.start _).Sound False := Cache.World.sound_start hc
    have hsound : ((Cache.World.start _).after ops).Sound False := hstart.after nofun
    have hfound : _ = some hs := Cache.Answer.holders.inj hanswer
    exact hroot.ofKey_eq _ hp (Cache.Sound.covers_of_mem_getAll hsound hfound h hh)

/-- Paths, in the lexicographic order of their segments, and texts, in the lexicographic order of their
bytes, are rooted kinds of key in which a key covers what it is a prefix of: coverage is a partial order,
agrees with the order, makes a chain of what covers one key, and keeps the group code below every key that
is not empty, so that a scan under such a key finds keys of one shard. -/
theorem path_and_text_keys_rooted :
    (RootedKey PathKey ⟨[]⟩ ∧ ScansOneShard PathKey ⟨[]⟩ ∧ ∀ p k : PathKey,
      (compare p k = .lt ↔ p.segments < k.segments) ∧ (Key.covers p k ↔ p.segments <+: k.segments)) ∧
    RootedKey TextKey ⟨""⟩ ∧ ScansOneShard TextKey ⟨""⟩ ∧ ∀ p k : TextKey,
      (compare p k = .lt ↔ p.bytes < k.bytes) ∧ (Key.covers p k ↔ p.bytes <+: k.bytes) := by
  refine ⟨⟨PathKey.rooted, PathKey.rooted.scansOneShard, fun p k => ?_⟩,
    TextKey.rooted, TextKey.rooted.scansOneShard, fun p k => ?_⟩
  · exact ⟨PathKey.compare_eq_lt_iff, PathKey.covers_iff⟩
  · exact ⟨TextKey.compare_eq_lt_iff, TextKey.covers_iff⟩

end TieredCache
