import TieredCache.Clock
import TieredCache.Proofs.Cache.Operations

/-!
# Runs of a cache

A world is a cache with the registry of its holders and the clock that it reads. A run is a list of
calls of the cache and moves of the clock in any order; it answers every call and leads to another
world. Every step keeps a world sound, so every world that a run reaches is sound.
-/

namespace TieredCache.Cache

variable {κ : Type} [Key κ]

/-- A call of the cache, or a move of its clock. A read brings the local copies of one unit of work. -/
inductive Op (κ : Type) [Key κ] where
  | get (k : κ)
  | getAll (p : κ)
  | certify (p : κ)
  | getOrTombstone (k : κ)
  | recordFetch (value : Entity κ) (expiring : Bool)
  | recordStore (value : Entity κ) (expiring : Bool)
  | recordDelete (value : Entity κ)
  | invalidate (k : κ)
  | purge
  | read (copies : LocalCopies κ) (k : κ)
  | advance (d : Duration)

/-- The write that a step makes. -/
def Op.write? : Op κ → Option (Write κ)
  | .recordFetch value expiring => some (.fetch value expiring)
  | .recordStore value expiring => some (.store value expiring)
  | .recordDelete value => some (.delete value)
  | _ => none

/-- What a call answers; a move of the clock answers nothing. -/
inductive Answer (κ : Type) where
  | holder (found : Option (Holder κ))
  | holders (found : Option (List (Holder κ)))
  | certified (added : Bool)
  | written (result : Except WriteFault (Option (Holder κ)))
  | purged (count : Nat)
  | value (found : Option (Entity κ))
  | moved

/-- The holders that an answer hands out. -/
def Answer.holders? : Answer κ → List (Holder κ)
  | .holder found => found.toList
  | .holders found => found.getD []
  | .written (.ok found) => found.toList
  | _ => []

omit [Key κ] in
theorem Answer.mem_holders?_written {result : Except WriteFault (Option (Holder κ))}
    {h : Holder κ} : h ∈ (Answer.written result).holders? ↔ result = .ok (some h) := by
  cases result <;> simp [Answer.holders?]

/-- A cache, the registry of its holders and its clock. -/
structure World (κ : Type) [Key κ] where
  cache : Cache κ
  registry : Registry κ
  clock : Clock

namespace World

/-- A cache in the world in which nothing has happened yet. -/
def start (c : Cache κ) : World κ :=
  ⟨c, .empty, .start⟩

/-- The reading of the clock in nanoseconds. -/
def now (w : World κ) : Nat :=
  w.clock.now

/-- One call or one move of the clock. -/
def step (w : World κ) : Op κ → Answer κ × World κ
  | .get k =>
    let (found, c, reg) := w.cache.get w.registry w.now k
    (.holder found, { w with cache := c, registry := reg })
  | .getAll p =>
    let (found, c, reg) := w.cache.getAll w.registry w.now p
    (.holders found, { w with cache := c, registry := reg })
  | .certify p =>
    let (added, c) := w.cache.certify w.now p
    (.certified added, { w with cache := c })
  | .getOrTombstone k =>
    let (found, c, reg) := w.cache.getOrTombstone w.registry w.now k
    (.holder found, { w with cache := c, registry := reg })
  | .recordFetch value expiring =>
    let (result, c, reg) := w.cache.recordFetch w.registry w.now value expiring
    (.written result, { w with cache := c, registry := reg })
  | .recordStore value expiring =>
    let (result, c, reg) := w.cache.recordStore w.registry w.now value expiring
    (.written result, { w with cache := c, registry := reg })
  | .recordDelete value =>
    let (result, c, reg) := w.cache.recordDelete w.registry w.now value
    (.written result, { w with cache := c, registry := reg })
  | .invalidate k =>
    let (found, c, reg) := w.cache.invalidate w.registry k
    (.holder found, { w with cache := c, registry := reg })
  | .purge =>
    let (count, c, reg) := w.cache.purge w.registry w.now
    (.purged count, { w with cache := c, registry := reg })
  | .read copies k =>
    let (found, _, c, reg) := w.cache.read w.registry w.now copies k
    (.value found, { w with cache := c, registry := reg })
  | .advance d => (.moved, { w with clock := w.clock.advance d })

theorem step_of_write (w : World κ) {op : Op κ} {a : Write κ} (ha : op.write? = some a) :
    w.step op = (.written (w.cache.apply w.registry w.now a).1,
      { w with
        cache := (w.cache.apply w.registry w.now a).2.1
        registry := (w.cache.apply w.registry w.now a).2.2 }) := by
  cases op <;> cases ha <;> rfl

/-- A read is a look-up, or finds a local copy and leaves the world alone. -/
theorem step_read (w : World κ) (copies : LocalCopies κ) (k : κ) :
    (w.step (.read copies k)).2 =
      if (copies.get? k).isSome then w else (w.step (.get k)).2 := by
  simp only [World.step, Cache.read]
  cases copies.get? k with
  | some copy => rfl
  | none =>
      rcases w.cache.get w.registry w.now k with ⟨found, c, reg⟩
      cases found.bind reg.value? <;> simp

/-- The world after a run. -/
def after (w : World κ) (ops : List (Op κ)) : World κ :=
  ops.foldl (fun w op => (w.step op).2) w

/-- The answers of a run, in order. -/
def answers (w : World κ) : List (Op κ) → List (Answer κ)
  | [] => []
  | op :: rest => (w.step op).1 :: answers (w.step op).2 rest

/-- The clock never goes back in a run. -/
def Timely (w : World κ) : List (Op κ) → Prop
  | [] => True
  | op :: rest => w.now ≤ (w.step op).2.now ∧ Timely (w.step op).2 rest

instance decidableTimely : (w : World κ) → (ops : List (Op κ)) → Decidable (w.Timely ops)
  | _, [] => inferInstanceAs (Decidable True)
  | w, op :: rest =>
    have := decidableTimely (w.step op).2 rest
    inferInstanceAs (Decidable (_ ∧ _))

@[simp]
theorem after_nil (w : World κ) : w.after [] = w :=
  rfl

@[simp]
theorem after_cons (w : World κ) (op : Op κ) (rest : List (Op κ)) :
    w.after (op :: rest) = (w.step op).2.after rest :=
  rfl

theorem after_append (w : World κ) (ops rest : List (Op κ)) :
    w.after (ops ++ rest) = (w.after ops).after rest :=
  List.foldl_append

theorem answers_append (w : World κ) (ops rest : List (Op κ)) :
    w.answers (ops ++ rest) = w.answers ops ++ (w.after ops).answers rest := by
  induction ops generalizing w with
  | nil => rfl
  | cons op ops ih => exact congrArg _ (ih (w.step op).2)

theorem timely_append (w : World κ) (ops rest : List (Op κ)) :
    w.Timely (ops ++ rest) ↔ w.Timely ops ∧ (w.after ops).Timely rest := by
  induction ops generalizing w with
  | nil => simp [Timely]
  | cons op ops ih =>
      rw [List.cons_append, Timely, Timely, ih, and_assoc]
      rfl

/-- What every step keeps holds after every run; the steps may count on a clock that never goes back
if the run has one. -/
theorem invariant_after {P : World κ → Prop} {timely : Prop}
    (hstep : ∀ w op, (timely → w.now ≤ (w.step op).2.now) → P w → P (w.step op).2) {w : World κ}
    (hw : P w) {ops : List (Op κ)} (hops : timely → w.Timely ops) : P (w.after ops) := by
  induction ops generalizing w with
  | nil => exact hw
  | cons op rest ih =>
      apply ih
      · apply hstep w op
        · intro ht
          exact (hops ht).1
        · exact hw
      · intro ht
        exact (hops ht).2

/-! ## Every step keeps a world sound -/

/-- The cache of a world is sound, and its touches are in order if the clock never went back. -/
def Sound (timely : Prop) (w : World κ) : Prop :=
  Cache.Sound timely w.now w.cache w.registry

variable {w : World κ} {timely : Prop}

/-- One step of a sound world leads to a sound world, in which the holders that the step hands out are
issued. -/
theorem Sound.step (hw : w.Sound timely) (op : Op κ) (htime : timely → w.now ≤ (w.step op).2.now) :
    Leads timely (w.step op).2.now w.cache w.registry (w.step op).2.cache (w.step op).2.registry ∧
      ∀ h ∈ (w.step op).1.holders?, (w.step op).2.registry.Issued h := by
  have hwrite {a : Write κ} (ha : op.write? = some a) :
      Leads timely (w.step op).2.now w.cache w.registry (w.step op).2.cache (w.step op).2.registry ∧
        ∀ h ∈ (w.step op).1.holders?, (w.step op).2.registry.Issued h := by
    obtain ⟨result, c', reg', hcall, hleads, -, haccepted⟩ := Cache.Sound.apply hw a
    rw [w.step_of_write ha, hcall]
    refine ⟨hleads, fun h hh => ?_⟩
    have hresult := Answer.mem_holders?_written.mp hh
    rcases haccepted with ⟨hnone, -⟩ | ⟨x, u, hok, -, hissued, -⟩
    · exact absurd hresult (hnone h)
    · cases hok.symm.trans hresult
      exact hissued
  cases op with
  | get k =>
      obtain ⟨answer, c', reg', hcall, hleads, hseated, -⟩ := Cache.Sound.get hw k
      simp only [World.step, hcall]
      refine ⟨hleads, fun h hh => ?_⟩
      obtain ⟨seat, hseat⟩ := hseated h (by simpa [Answer.holders?] using hh)
      exact (hleads.sound.issued_of_seat? hseat).2
  | getAll p =>
      obtain ⟨answer, c', reg', hcall, hleads, -, -, hseated, -⟩ := Cache.Sound.getAll hw p
      simp only [World.step, hcall]
      refine ⟨hleads, fun h hh => ?_⟩
      cases answer with
      | none => simp [Answer.holders?] at hh
      | some hs =>
          obtain ⟨seat, hseat⟩ := hseated hs rfl h hh
          exact (hleads.sound.issued_of_seat? hseat).2
  | certify p =>
      obtain ⟨hleads, -⟩ := Cache.Sound.certify hw p
      exact ⟨hleads, by simp [World.step, Answer.holders?]⟩
  | getOrTombstone k =>
      obtain ⟨answer, c', reg', hcall, hleads, hseated, -⟩ := Cache.Sound.getOrTombstone hw k
      simp only [World.step, hcall]
      refine ⟨hleads, fun h hh => ?_⟩
      obtain ⟨seat, hseat⟩ := hseated h (by simpa [Answer.holders?] using hh)
      exact (hleads.sound.issued_of_seat? hseat).2
  | recordFetch value expiring => exact hwrite rfl
  | recordStore value expiring => exact hwrite rfl
  | recordDelete value => exact hwrite rfl
  | invalidate k =>
      obtain ⟨c', reg', hcall, hleads, -, hsame, -⟩ := Cache.Sound.invalidate hw k
      simp only [World.step, hcall]
      refine ⟨hleads, fun h hh => ?_⟩
      simp only [Answer.holders?, Option.mem_toList, Option.map_eq_some_iff, Prod.exists,
        exists_and_right, exists_eq_right] at hh
      obtain ⟨seat, hk⟩ := hh
      exact hleads.issued (Cache.Sound.issued_of_seat? hw hk).2
  | purge =>
      obtain ⟨count, c', reg', hcall, hleads, -⟩ := Cache.Sound.purge hw
      simp only [World.step, hcall]
      exact ⟨hleads, by simp [Answer.holders?]⟩
  | read copies k =>
      refine ⟨?_, by simp [World.step, Answer.holders?]⟩
      rw [step_read]
      split
      next => exact .refl hw
      next =>
        obtain ⟨answer, c', reg', hcall, hleads, -⟩ := Cache.Sound.get hw k
        simp only [World.step, hcall]
        exact hleads
  | advance d =>
      have hleads : Leads timely (w.step (.advance d)).2.now w.cache w.registry w.cache w.registry :=
        .refl (Cache.Sound.later hw htime)
      exact ⟨hleads, by simp [World.step, Answer.holders?]⟩

/-- Every run keeps a world sound. -/
theorem Sound.after (hw : w.Sound timely) {ops : List (Op κ)} (hops : timely → w.Timely ops) :
    (w.after ops).Sound timely :=
  invariant_after (fun _ op htime hw => (hw.step op htime).1.sound) hw hops

theorem Sound.config_after (hw : w.Sound timely) {ops : List (Op κ)}
    (hops : timely → w.Timely ops) : (w.after ops).cache.config = w.cache.config := by
  induction ops generalizing w with
  | nil => rfl
  | cons op rest ih =>
      have hleads := (hw.step op fun ht => (hops ht).1).1
      exact (ih hleads.sound fun ht => (hops ht).2).trans hleads.config_eq

theorem Sound.elementType_after (hw : w.Sound timely) {ops : List (Op κ)}
    (hops : timely → w.Timely ops) : (w.after ops).cache.elementType = w.cache.elementType := by
  induction ops generalizing w with
  | nil => rfl
  | cons op rest ih =>
      have hleads := (hw.step op fun ht => (hops ht).1).1
      exact (ih hleads.sound fun ht => (hops ht).2).trans hleads.elementType_eq

/-- A holder stays issued, and every holder that a run hands out is issued. -/
theorem Sound.issued_after (hw : w.Sound timely) {ops : List (Op κ)}
    (hops : timely → w.Timely ops) :
    (∀ {x}, w.registry.Issued x → (w.after ops).registry.Issued x) ∧
      ∀ answer ∈ w.answers ops, ∀ h ∈ answer.holders?, (w.after ops).registry.Issued h := by
  induction ops generalizing w with
  | nil => exact ⟨id, by simp [answers]⟩
  | cons op rest ih =>
      obtain ⟨hleads, hanswer⟩ := hw.step op fun ht => (hops ht).1
      obtain ⟨hlater, hanswers⟩ := ih hleads.sound fun ht => (hops ht).2
      refine ⟨fun hx => hlater (hleads.issued hx), fun answer hmem h hh => ?_⟩
      rcases List.mem_cons.mp hmem with rfl | hmem
      · exact hlater (hanswer h hh)
      · exact hanswers answer hmem h hh

/-- A cache in the world in which nothing has happened yet is sound. -/
theorem sound_start {tag : TypeTag} {config : Config} {c : Cache κ}
    (hc : Cache.create tag config = .ok c) : (start c).Sound timely :=
  Cache.Sound.create hc fun _ => Registry.not_issued_empty

end World

end TieredCache.Cache
