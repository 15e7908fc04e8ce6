import TieredCache.Key.Path
import TieredCache.Proofs.Cache.Provenance

/-!
# Local copies stay

A unit of work reads through its local copies. Whatever a read has answered stays pinned under the key of
the read: every later read of the key answers the same entity and does not reach the cache, until the unit
of work itself forgets or replaces the copy. A copy is pinned under the key of the entity that was found,
so this rests on what holders carry: entities of the holder's own key.
-/

namespace TieredCache

namespace LocalCopies

variable {κ : Type} [Key κ]

@[simp]
theorem get?_put (l : LocalCopies κ) (e : Entity κ) (k : κ) :
    (l.put e).get? k = if compare e.key k = .eq then some e else l.get? k :=
  OrderedMap.find?_insert l.copies e.key k e

@[simp]
theorem get?_discard (l : LocalCopies κ) (x k : κ) :
    (l.discard x).2.get? k = if compare x k = .eq then none else l.get? k :=
  OrderedMap.find?_erase l.copies x k

end LocalCopies

namespace Cache

variable {κ : Type} [Key κ] {k : κ} {v : Entity κ}

/-! ## Units of work -/

/-- A world, and the local copies of one unit of work. -/
structure Work (κ : Type) [Key κ] where
  world : World κ
  copies : LocalCopies κ

/-- What happens in a unit of work: calls of the cache by anyone and moves of its clock, its own reads, and
what it does with its local copies. -/
inductive Act (κ : Type) [Key κ] where
  | call (op : Op κ)
  | read (k : κ)
  | put (value : Entity κ)
  | discard (k : κ)
  | clear

/-- The unit of work forgets or replaces its copy of a key. -/
def Act.Drops (k : κ) : Act κ → Prop
  | .put value => compare value.key k = .eq
  | .discard x => compare x k = .eq
  | .clear => True
  | _ => False

instance decidableDrops (k : κ) : (act : Act κ) → Decidable (act.Drops k)
  | .put value => inferInstanceAs (Decidable (compare value.key k = .eq))
  | .discard x => inferInstanceAs (Decidable (compare x k = .eq))
  | .clear => inferInstanceAs (Decidable True)
  | .call _ => inferInstanceAs (Decidable False)
  | .read _ => inferInstanceAs (Decidable False)

namespace Work

variable {s : Work κ} {act : Act κ}

/-- A read through the local copies. -/
def read (s : Work κ) (k : κ) : Option (Entity κ) × Work κ :=
  let (found, copies, c, reg) := s.world.cache.read s.world.registry s.world.now s.copies k
  (found, ⟨{ s.world with cache := c, registry := reg }, copies⟩)

/-- One act. -/
def step (s : Work κ) : Act κ → Work κ
  | .call op => { s with world := (s.world.step op).2 }
  | .read k => (s.read k).2
  | .put value => { s with copies := s.copies.put value }
  | .discard k => { s with copies := (s.copies.discard k).2 }
  | .clear => { s with copies := s.copies.clear }

/-- The unit of work after some acts. -/
def after (s : Work κ) (acts : List (Act κ)) : Work κ :=
  acts.foldl step s

theorem after_append (s : Work κ) (acts rest : List (Act κ)) :
    s.after (acts ++ rest) = (s.after acts).after rest :=
  List.foldl_append

/-! ## One read -/

/-- A read that finds a copy answers it and changes nothing. -/
theorem read_of_copy (hk : s.copies.get? k = some v) : s.read k = (some v, s) := by
  rw [read, Cache.read, hk]

/-- A read without a copy is a look-up, and pins the value that the look-up finds. -/
theorem read_of_no_copy (hk : s.copies.get? k = none) :
    ∃ found, (s.world.step (.get k)).1 = .holder found ∧
      s.read k = (found.bind (s.world.step (.get k)).2.registry.value?,
        ⟨(s.world.step (.get k)).2,
          (found.bind (s.world.step (.get k)).2.registry.value?).elim s.copies s.copies.put⟩) := by
  rw [read, Cache.read, hk, World.step]
  rcases s.world.cache.get s.world.registry s.world.now k with ⟨found, c, reg⟩
  refine ⟨found, rfl, ?_⟩
  dsimp only
  cases found.bind reg.value? with
  | none => rfl
  | some value => rfl

/-! ## Runs -/

/-- A created cache and the copies that a unit of work brings along. -/
def start (c : Cache κ) (copies : LocalCopies κ) : Work κ :=
  ⟨.start c, copies⟩

end Work

namespace World

/-- Holders of the world carry entities of their own keys. -/
structure Keyed (w : World κ) : Prop where
  sound : w.Sound False
  key_eq : ∀ {x v}, w.registry.Issued x → w.registry.value? x = some v → v.key = x.key

theorem keyed_start {tag : TypeTag} {config : Config} {c : Cache κ}
    (hc : Cache.create tag config = .ok c) : (start c).Keyed where
  sound := sound_start hc
  key_eq hx := absurd hx Registry.not_issued_empty

theorem Keyed.step {w : World κ} (hw : w.Keyed) (op : Op κ) : (w.step op).2.Keyed where
  sound := (hw.sound.step op nofun).1.sound
  key_eq hx hv := by
    rcases hw.sound.value?_step hx hv with ⟨hx, hv⟩ | ⟨hkey, -⟩
    · exact hw.key_eq hx hv
    · exact hkey

/-- A look-up finds entities of its own key alone. -/
theorem Keyed.key_of_get {w : World κ} (hw : w.Keyed) {found : Option (Holder κ)}
    (hfound : (w.step (.get k)).1 = .holder found)
    (hv : found.bind (w.step (.get k)).2.registry.value? = some v) : v.key = k := by
  obtain ⟨x, rfl, hv⟩ := Option.bind_eq_some_iff.mp hv
  have hx : x ∈ (w.step (.get k)).1.holders? := by
    rw [hfound]
    exact List.mem_singleton.mpr rfl
  rw [(hw.step (.get k)).key_eq ((hw.sound.step (.get k) nofun).2 x hx) hv, hw.sound.key_of_get hx]

end World

namespace Work

variable {s : Work κ} {act : Act κ}

theorem keyed_step (hs : s.world.Keyed) (act : Act κ) : (s.step act).world.Keyed := by
  cases act with
  | call op => exact hs.step op
  | read k =>
      rw [step]
      cases hk : s.copies.get? k with
      | some v =>
          rw [read_of_copy hk]
          exact hs
      | none =>
          obtain ⟨found, -, hread⟩ := read_of_no_copy hk
          rw [hread]
          exact hs.step (.get k)
  | put value => exact hs
  | discard k => exact hs
  | clear => exact hs

theorem keyed_after (hs : s.world.Keyed) (acts : List (Act κ)) : (s.after acts).world.Keyed := by
  induction acts generalizing s with
  | nil => exact hs
  | cons act rest ih => exact ih (keyed_step hs act)

/-- What a read has answered is pinned under the key of the read. -/
theorem pinned_of_read (hs : s.world.Keyed) (hv : (s.read k).1 = some v) :
    (s.read k).2.copies.get? k = some v := by
  cases hk : s.copies.get? k with
  | some copy =>
      rw [read_of_copy hk] at hv ⊢
      exact hk.trans hv
  | none =>
      obtain ⟨found, hfound, hread⟩ := read_of_no_copy hk
      rw [hread] at hv ⊢
      dsimp only at hv ⊢
      rw [hv, Option.elim_some, LocalCopies.get?_put, hs.key_of_get hfound hv, if_pos Std.compare_self]

/-- An act that does not drop the copy of a key leaves it: a read of another key pins an entity of that
other key. -/
theorem pinned_step (hs : s.world.Keyed) (hk : s.copies.get? k = some v) (hact : ¬ act.Drops k) :
    (s.step act).copies.get? k = some v := by
  cases act with
  | call op => exact hk
  | read x =>
      rw [step]
      cases hx : s.copies.get? x with
      | some copy =>
          rw [read_of_copy hx]
          exact hk
      | none =>
          obtain ⟨found, hfound, hread⟩ := read_of_no_copy hx
          rw [hread]
          cases hvalue : found.bind (s.world.step (.get x)).2.registry.value? with
          | none => exact hk
          | some u =>
              rw [Option.elim_some, LocalCopies.get?_put, hs.key_of_get hfound hvalue, if_neg, hk]
              intro heq
              rw [Std.compare_eq_iff_eq.mp heq, hk] at hx
              cases hx
  | put value => exact (s.copies.get?_put value k).trans ((if_neg hact).trans hk)
  | discard x => exact (s.copies.get?_discard x k).trans ((if_neg hact).trans hk)
  | clear => exact absurd trivial hact

theorem pinned_after (hs : s.world.Keyed) (hk : s.copies.get? k = some v) {acts : List (Act κ)}
    (hacts : ∀ act ∈ acts, ¬ act.Drops k) : (s.after acts).copies.get? k = some v := by
  induction acts generalizing s with
  | nil => exact hk
  | cons act rest ih =>
      rw [List.forall_mem_cons] at hacts
      exact ih (keyed_step hs act) (pinned_step hs hk hacts.1) hacts.2

/-- A read without a copy answers what a look-up finds, and does to the world what the look-up does. It
pins what it answers under the key of the read, and nothing else. -/
structure ReadsThrough (s : Work κ) (k : κ) (found : Option (Holder κ)) : Prop where
  looks_up : (s.world.step (.get k)).1 = .holder found
  answer_eq : (s.read k).1 = found.bind (s.world.step (.get k)).2.registry.value?
  world_eq : (s.read k).2.world = (s.world.step (.get k)).2
  pins : ∀ v, (s.read k).1 = some v → v.key = k ∧
    ∀ x, (s.read k).2.copies.get? x = if compare k x = .eq then some v else s.copies.get? x
  pins_nothing : (s.read k).1 = none → (s.read k).2.copies = s.copies

theorem reads_through (hs : s.world.Keyed) (hk : s.copies.get? k = none) :
    ∃ found, s.ReadsThrough k found := by
  obtain ⟨found, hfound, hread⟩ := read_of_no_copy hk
  refine ⟨found, hfound, by rw [hread], by rw [hread], fun v hv => ?_, fun hnone => ?_⟩
  · rw [hread] at hv ⊢
    have hkey := hs.key_of_get hfound hv
    refine ⟨hkey, fun x => ?_⟩
    dsimp only at hv ⊢
    rw [hv, Option.elim_some, LocalCopies.get?_put, hkey]
  · rw [hread] at hnone ⊢
    dsimp only at hnone ⊢
    rw [hnone, Option.elim_none]

/-- After any acts, what a read answers is answered again by every later read of the key, which changes
nothing in the cache and in the local copies, until the unit of work drops its copy of the key. A read
without a copy looks the key up, and pins what it answers. -/
theorem read_pins {tag : TypeTag} {config : Config} {c : Cache κ}
    (hc : Cache.create tag config = .ok c) (copies : LocalCopies κ) (acts : List (Act κ)) :
    let s := (start c copies).after acts
    (∀ k v, (s.read k).1 = some v → ∀ rest : List (Act κ), (∀ act ∈ rest, ¬ act.Drops k) →
        let s' := (s.read k).2.after rest
        s'.read k = (some v, s')) ∧
      ∀ k, s.copies.get? k = none → ∃ found, s.ReadsThrough k found := by
  intro s
  have hs : s.world.Keyed := keyed_after (World.keyed_start hc) acts
  refine ⟨fun k v hv rest hrest => ?_, fun k hk => reads_through hs hk⟩
  exact read_of_copy (pinned_after (keyed_step hs (.read k)) (pinned_of_read hs hv) hrest)

/-- A copy outlives a store, a deletion and an invalidation of its key, and its time to live, until it is
discarded; then a read finds nothing and pins nothing. -/
theorem read_pins_until_discarded :
    ∃ c : Cache PathKey, Cache.create Entity.record (.ofTtl ⟨1000⟩) = .ok c ∧
      let k : PathKey := ⟨[1, 2]⟩
      let old : Entity PathKey := ⟨k, 7, Entity.record⟩
      let new : Entity PathKey := ⟨k, 8, Entity.record⟩
      let rest : List (Act PathKey) := [.call (.recordStore new true),
        .put ⟨⟨[3]⟩, 9, Entity.record⟩, .call (.advance ⟨2000⟩), .call .purge,
        .call (.recordDelete new), .call (.invalidate k), .read ⟨[2]⟩, .discard ⟨[3]⟩]
      let s := (start c .empty).after [.call (.recordStore old true)]
      let s' := (s.read k).2.after rest
      (s.read k).1 = some old ∧ s'.read k = (some old, s') ∧
        (s'.step (.discard k)).ReadsThrough k none := by
  let c : Cache PathKey := ⟨Entity.record, .ofTtl ⟨1000⟩,
    .replicate shardCount (.empty ⟨1000⟩), .aging (.empty ⟨800⟩), .zero⟩
  have hc : Cache.create Entity.record (.ofTtl ⟨1000⟩) = .ok c :=
    create_ofTtl rfl (by decide +kernel)
  refine ⟨c, hc, ?_⟩
  intro k old new rest s s'
  have hread : (s.read k).1 = some old := by
    simp only [s, old, k, c]
    rfl
  have hrest : ∀ act ∈ rest, ¬ act.Drops k := by
    simp only [rest, new, k]
    decide
  have hnone : ((s'.step (.discard k)).world.step (.get k)).1 = .holder none := by
    simp only [s', s, rest, new, old, k, c]
    rfl
  refine ⟨hread, (read_pins hc .empty [.call (.recordStore old true)]).1 k old hread rest hrest, ?_⟩
  have hdiscarded : (start c .empty).after
      ([.call (.recordStore old true), .read k] ++ (rest ++ [.discard k])) = s'.step (.discard k) := by
    rw [after_append, after_append]
    rfl
  have hforgotten : (s'.step (.discard k)).copies.get? k = none :=
    (s'.copies.get?_discard k k).trans (if_pos Std.compare_self)
  rw [← hdiscarded] at hforgotten hnone ⊢
  obtain ⟨found, hthrough⟩ := (read_pins hc .empty _).2 k hforgotten
  cases hthrough.looks_up.symm.trans hnone
  exact hthrough

end Work

end Cache

end TieredCache
