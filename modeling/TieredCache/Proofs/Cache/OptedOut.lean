import TieredCache.Key.Gated
import TieredCache.Proofs.Cache.Certified

/-!
# Keys that are never cached

A key without a group code has no shard. A look-up, a write, an invalidation or a read of such a key
changes neither a shard nor a certified range, and reports a miss. Scans and certifications go by the
certified ranges alone and know nothing of group codes: a certification of such a key is stored unless a
stored key covers it, and a scan under it answers if one does.
-/

namespace TieredCache.Cache

variable {κ : Type} [Key κ] {c : Cache κ} {reg : Registry κ} {timely : Prop} {now : Nat}
  {k p : κ}

/-! ## Calls of a cache -/

theorem get_of_no_shard (hk : selector.ofKey k = none) :
    c.get reg now k = (none, c.record .getMiss, reg) := by
  rw [Cache.get, hk]

theorem getOrTombstone_of_no_shard (hk : selector.ofKey k = none) :
    c.getOrTombstone reg now k = (none, c, reg) := by
  rw [Cache.getOrTombstone, hk]

theorem invalidate_of_no_shard (hk : selector.ofKey k = none) :
    c.invalidate reg k = (none, c, reg) := by
  rw [Cache.invalidate, hk]

theorem getAll_of_not_covers (hp : (c.coverage.covers now p true).1 = false) :
    c.getAll reg now p =
      (none, { c with coverage := c.coverage.swept now }.record (.getAll false), reg) := by
  have hswept := Coverage.snd_covers_of_not_covers hp
  rw [Cache.getAll]
  rcases hcovers : c.coverage.covers now p true with ⟨certified, coverage⟩
  rw [hcovers] at hp hswept
  cases hp
  cases hswept
  rfl

/-- A call for a single key: a look-up, an invalidation, a read that finds no local copy, or a write that
the cache does not refuse. -/
inductive Op.Addresses (c : Cache κ) (k : κ) : Op κ → Prop where
  | get : Addresses c k (.get k)
  | getOrTombstone : Addresses c k (.getOrTombstone k)
  | invalidate : Addresses c k (.invalidate k)
  | read {copies : LocalCopies κ} (hcopy : copies.get? k = none) : Addresses c k (.read copies k)
  | write {op : Op κ} {a : Write κ} (ha : op.write? = some a) (hkey : a.value.key = k)
      (haccepted : c.refusal? a.value a.flag = none) : Addresses c k op

/-- An answer that reports a miss. -/
def Answer.IsMiss : Answer κ → Prop
  | .holder found => found = none
  | .holders found => found = none
  | .certified added => added = false
  | .written result => result = .ok none
  | .value found => found = none
  | .purged _ => False
  | .moved => False

namespace World

variable {w : World κ}

/-- A call reports a miss, and leaves the shards, the holders and the certified ranges alone. -/
structure Inert (w : World κ) (op : Op κ) : Prop where
  miss : (w.step op).1.IsMiss
  shards_eq : (w.step op).2.cache.shards = w.cache.shards
  registry_eq : (w.step op).2.registry = w.registry
  coverage_eq : (w.step op).2.cache.coverage = w.cache.coverage

theorem Inert.of_step {op : Op κ} {answer : Answer κ} {c' : Cache κ}
    (hstep : w.step op = (answer, ⟨c', w.registry, w.clock⟩)) (hmiss : answer.IsMiss)
    (hshards : c'.shards = w.cache.shards) (hcoverage : c'.coverage = w.cache.coverage) :
    w.Inert op := by
  constructor <;> rw [hstep]
  · exact hmiss
  · exact hshards
  · exact hcoverage

/-- A call for a single key that has no shard is inert. -/
theorem inert_of_addresses (hk : selector.ofKey k = none) {op : Op κ}
    (hop : op.Addresses w.cache k) : w.Inert op := by
  cases hop with
  | get =>
      have hstep : w.step (.get k) =
          (.holder none, ⟨w.cache.record .getMiss, w.registry, w.clock⟩) := by
        rw [World.step, get_of_no_shard hk]
      exact .of_step hstep rfl rfl rfl
  | getOrTombstone =>
      have hstep : w.step (.getOrTombstone k) = (.holder none, w) := by
        rw [World.step, getOrTombstone_of_no_shard hk]
      exact .of_step hstep rfl rfl rfl
  | invalidate =>
      have hstep : w.step (.invalidate k) = (.holder none, w) := by
        rw [World.step, invalidate_of_no_shard hk]
      exact .of_step hstep rfl rfl rfl
  | @read copies hcopy =>
      have hstep : w.step (.read copies k) =
          (.value none, ⟨w.cache.record .getMiss, w.registry, w.clock⟩) := by
        rw [World.step, Cache.read, hcopy, get_of_no_shard hk]
        rfl
      exact .of_step hstep rfl rfl rfl
  | write ha hkey haccepted =>
      subst hkey
      have hstep : w.step op = (.written (.ok none), w) := by
        rw [w.step_of_write ha, apply_of_no_shard haccepted hk]
      exact .of_step hstep rfl rfl rfl

/-- A scan is inert if it is refused and its sweep has nothing to take. -/
theorem inert_getAll_iff (w : World κ) (p : κ) :
    w.Inert (.getAll p) ↔ w.cache.coverage.swept w.now = w.cache.coverage ∧
      (w.cache.coverage.covers w.now p true).1 = false := by
  constructor
  · intro h
    have hnone : (w.cache.getAll w.registry w.now p).1 = none := h.miss
    cases hp : (w.cache.coverage.covers w.now p true).1 with
    | false =>
        have hcoverage := h.coverage_eq
        rw [World.step, getAll_of_not_covers hp] at hcoverage
        exact ⟨hcoverage, rfl⟩
    | true =>
        rw [fst_getAll, if_pos hp] at hnone
        cases hnone
  · rintro ⟨hswept, hp⟩
    have hstep : w.step (.getAll p) = (.holders none,
        ⟨{ w.cache with coverage := w.cache.coverage.swept w.now }.record (.getAll false),
          w.registry, w.clock⟩) := by
      rw [World.step, getAll_of_not_covers hp]
    exact .of_step hstep rfl rfl hswept

/-- A certification is inert if a stored key covers its range and its sweep has nothing to take. -/
theorem inert_certify_iff (hw : w.Sound timely) (p : κ) :
    w.Inert (.certify p) ↔ w.cache.coverage.swept w.now = w.cache.coverage ∧
      (w.cache.coverage.covers w.now p true).1 = true := by
  obtain ⟨-, hadded, hcoverage, hshards⟩ := Cache.Sound.certify hw p
  constructor
  · intro h
    have hmiss : (w.cache.certify w.now p).1 = false := h.miss
    have hp : (w.cache.coverage.covers w.now p true).1 = true :=
      Coverage.fst_add_eq_false_iff.mp (hadded.symm.trans hmiss)
    have hkept := hcoverage.symm.trans h.coverage_eq
    rw [Coverage.add_of_covers hp] at hkept
    exact ⟨hkept, hp⟩
  · rintro ⟨hswept, hp⟩
    rw [Coverage.add_of_covers hp] at hadded hcoverage
    exact ⟨hadded, hshards, rfl, hcoverage.trans hswept⟩

/-- In every world that a run reaches, on any clock, each call for a single key without a group code is
inert. A scan of the key, and a certification of it, is inert or not as for any other key: the scan if
no stored key that a sweep leaves covers it, the certification if one does, and either only if the sweep
has nothing to take. A certification that no stored key covers is stored. -/
theorem inert_of_opted_out {tag : TypeTag} {config : Config}
    (hc : Cache.create tag config = .ok c) (ops : List (Op κ)) (hk : Key.groupCode k = none) :
    let w := (start c).after ops
    let swept := w.cache.coverage.swept w.now
    (∀ op, op.Addresses w.cache k → w.Inert op) ∧
      ∀ [OrderedKey κ],
        (w.Inert (.getAll k) ↔ swept = w.cache.coverage ∧
          ¬ ∃ q, swept.Stores q ∧ Key.covers q k) ∧
        (w.Inert (.certify k) ↔ swept = w.cache.coverage ∧
          ∃ q, swept.Stores q ∧ Key.covers q k) ∧
        ((¬ ∃ q, swept.Stores q ∧ Key.covers q k) → (w.step (.certify k)).1 = .certified true ∧
          (w.step (.certify k)).2.cache.coverage.Stores k) := by
  have hstart : (start c).Sound False := sound_start hc
  have hcertified : (start c).Certified False := certified_start hc
  intro w swept
  have hw : w.Sound False := hstart.after nofun
  refine ⟨fun op hop => inert_of_addresses (ofKey_of_no_groupCode hk) hop, ?_⟩
  intro hordered
  have hranges : w.Certified False := hcertified.after hstart nofun
  have hcovers := Coverage.Kept.covers_iff_stores hranges k true
  refine ⟨?_, ?_, fun hnot => ?_⟩
  · rw [inert_getAll_iff, ← Bool.not_eq_true, hcovers]
  · rw [inert_certify_iff hw, hcovers]
  · rw [← hcovers, Bool.not_eq_true] at hnot
    obtain ⟨-, hadded, hcoverage, -⟩ := Cache.Sound.certify hw k
    obtain ⟨hnew, hstored⟩ := Coverage.add_of_not_covers hnot
    exact ⟨congrArg Answer.certified (hadded.trans hnew), hcoverage ▸ hstored⟩

/-- The gated key `[0, 5]` is never cached, yet it can be certified, and then a scan under it answers. -/
theorem inert_of_opted_out_certified :
    ∃ c : Cache GatedKey, Cache.create Entity.gated (.ofTtl ⟨1000⟩) = .ok c ∧
      let k : GatedKey := ⟨[0, 5]⟩
      let w := (start c).after [.certify k]
      Key.groupCode k = none ∧ w.Inert (.get k) ∧
        ((start c).step (.certify k)).1 = .certified true ∧ w.cache.coverage.Stores k ∧
        (w.step (.getAll k)).1 = .holders (some []) ∧ ¬ w.Inert (.getAll k) := by
  let c : Cache GatedKey := ⟨Entity.gated, .ofTtl ⟨1000⟩,
    .replicate shardCount (.empty ⟨1000⟩), .aging (.empty ⟨800⟩), .zero⟩
  have hc : Cache.create Entity.gated (.ofTtl ⟨1000⟩) = .ok c :=
    create_ofTtl rfl (by decide +kernel)
  refine ⟨c, hc, ?_⟩
  intro k w
  have hk : Key.groupCode k = none := rfl
  have hstored : ∀ q, ¬ (((start c).after []).cache.coverage.swept
      ((start c).after []).now).Stores q := by
    intro q hq
    cases hq
  have hanswer : (w.step (.getAll k)).1 = .holders (some []) := by
    simp only [w, k, c]
    rfl
  obtain ⟨hadded, hkept⟩ :=
    (inert_of_opted_out hc [] hk).2.2.2 fun ⟨q, hq, _⟩ => hstored q hq
  refine ⟨hk, (inert_of_opted_out hc [.certify k] hk).1 _ .get, hadded, hkept, hanswer, fun h => ?_⟩
  obtain ⟨hmiss, -⟩ := h
  rw [hanswer] at hmiss
  cases hmiss

end World

end TieredCache.Cache
