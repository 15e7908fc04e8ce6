import TieredCache.Proofs.Cache.Certified

/-!
# Runs of look-ups

Look-ups and scans come upon keys. A step that comes upon a key refreshes its holder, or may leave a
tombstone for it; a step that passes the key by leaves it alone until it lapses.
-/

namespace TieredCache.Cache

open Shard

variable {κ : Type} [Key κ]

/-- Look-ups, scans and moves of the clock. -/
def Op.Looks : Op κ → Prop
  | .get _ | .getAll _ | .advance _ => True
  | _ => False

/-- A step comes upon a key when it looks the key up, or scans a certified range that has the key. -/
def Op.reaches (k : κ) : Op κ → Answer κ → Bool
  | .get x, _ => (compare x k).isEq
  | .getAll q, .holders (some _) => Key.covers q k
  | _, _ => false

namespace World

variable {w : World κ} {op : Op κ} {k q : κ} {h : Holder κ} {seat : Seat}

/-- The current holder of a key and its seat at the time of the world. -/
def current? (w : World κ) (k : κ) : Option (Holder κ × Seat) :=
  w.cache.current? w.now k

/-- Whether a key lies in a range that is certified at the time of the world. -/
def certifies (w : World κ) (k : κ) : Bool :=
  (w.cache.coverage.covers w.now k false).1

/-- The instants at which a run comes upon a key. -/
def reached (k : κ) (w : World κ) : List (Op κ) → List Nat
  | [] => []
  | op :: rest =>
    let times := reached k (w.step op).2 rest
    if op.reaches k (w.step op).1 then w.now :: times else times

/-- The holders that a registry has issued keep their values. -/
def KeepsValues (w w' : World κ) : Prop :=
  ∀ {x}, w.registry.Issued x → w'.registry.value? x = w.registry.value? x

/-- A look-up answers what is current after it: the holder that was, which it refreshes, or nothing, or
a fresh tombstone if the key is certified. -/
theorem Sound.step_get (hw : w.Sound True) (k : κ) :
    ∃ found, (w.step (.get k)).1 = .holder (found.map (·.1)) ∧
      (∀ x, (w.step (.get k)).2.current? x =
        if compare k x = .eq then found else w.current? x) ∧
      w.KeepsValues (w.step (.get k)).2 ∧
      (∀ h seat, w.current? k = some (h, seat) → found = some (h, seat.refreshed w.now)) ∧
      (w.current? k = none → found = none ∨
        w.certifies k = true ∧ ∃ h, found = some (h, .expiring w.now) ∧ ¬ w.registry.Issued h ∧
          (w.step (.get k)).2.registry.value? h = none) := by
  obtain ⟨answer, c', reg', hcall, -, -, hfound⟩ := Cache.Sound.get hw k
  have hstep : w.step (.get k) = (.holder answer, { w with cache := c', registry := reg' }) := by
    rw [World.step, hcall]
  rw [hstep]
  cases hfound trivial with
  | hit hk hsame hseats =>
      refine ⟨some _, rfl, hseats, fun _ => hsame.value?_eq _, ?_, ?_⟩
      · intro _ _ hsome
        cases hk.symm.trans hsome
        rfl
      · intro hnone
        cases hk.symm.trans hnone
  | miss hk hleaves hsame hseats =>
      refine ⟨none, rfl, fun x => ?_, fun _ => hsame.value?_eq _, ?_, fun _ => .inl rfl⟩
      · refine (hseats x).trans ?_
        split
        next hx => rw [← Std.compare_eq_iff_eq.mp hx, hk]
        next => rfl
      · intro _ _ hsome
        cases hk.symm.trans hsome
  | left hk hleaves hsize hwrites hseats =>
      have hfresh : ¬ w.registry.Issued ⟨w.registry.states.size, k⟩ := fun hissued =>
        (Nat.lt_irrefl _) hissued.lt_size
      refine ⟨some _, rfl, hseats, ?_, ?_, fun _ => .inr ⟨hleaves.1, _, rfl, hfresh, ?_⟩⟩
      · intro x hx
        exact hwrites.value?_of_ne x (Nat.ne_of_lt hx.lt_size)
      · intro _ _ hsome
        cases hk.symm.trans hsome
      · exact hwrites.value?_self

/-- A scan of a certified range answers the current holders that it covers, and refreshes them. -/
theorem Sound.step_getAll [OrderedKey κ] (hw : w.Sound True)
    (hexpiring : w.cache.config.canonical = false) (q : κ) :
    ∃ found, (w.step (.getAll q)).1 = .holders found ∧
      found.isSome = (w.cache.coverage.covers w.now q true).1 ∧
      w.KeepsValues (w.step (.getAll q)).2 ∧
      (∀ x, (w.step (.getAll q)).2.current? x = if found.isSome && Key.covers q x
        then (w.current? x).map fun e => (e.1, e.2.refreshed w.now) else w.current? x) ∧
      ∀ hs, found = some hs → ∀ h, h ∈ hs ↔
        Key.covers q h.key ∧ ∃ seat, w.current? h.key = some (h, seat) := by
  obtain ⟨answer, c', reg', hcall, -, -, hsame, -, hcertified, hnone, hsome⟩ :=
    Cache.Sound.getAll hw q
  have hstep : w.step (.getAll q) = (.holders answer, { w with cache := c', registry := reg' }) := by
    rw [World.step, hcall]
  rw [hstep]
  refine ⟨answer, rfl, hcertified, fun _ => hsame.value?_eq _, fun x => ?_, ?_⟩
  · cases answer with
    | none => exact hnone rfl x
    | some hs =>
        refine ((hsome trivial hs rfl).2 x).trans ?_
        simp only [hexpiring, Bool.not_false, Bool.and_true, Option.isSome_some, Bool.true_and]
        rfl
  · intro hs hanswer h
    rw [(hsome trivial hs hanswer).1]
    simp only [hexpiring, Bool.false_eq_true, false_implies, and_true]
    rfl

theorem Sound.step_advance (hw : w.Sound True) {d : Duration}
    (hle : w.now ≤ (w.step (.advance d)).2.now) (x : κ) :
    (w.step (.advance d)).2.current? x = (w.current? x).filter
      fun e => !e.2.lapsed w.cache.config.ttl (w.step (.advance d)).2.now :=
  hw.current?_later hle x

/-- A step that passes a key by leaves its holder until it lapses. -/
theorem Sound.step_of_not_reaches [OrderedKey κ] (hw : w.Sound True)
    (hexpiring : w.cache.config.canonical = false) (hlooks : op.Looks)
    (hle : w.now ≤ (w.step op).2.now) (hpast : op.reaches k (w.step op).1 = false) :
    w.KeepsValues (w.step op).2 ∧ (w.step op).2.current? k = (w.current? k).filter
      fun e => !e.2.lapsed w.cache.config.ttl (w.step op).2.now := by
  have hfilter := (hw.current?_later (Nat.le_refl _) k).symm
  cases op with
  | get x =>
      obtain ⟨found, -, hcurrent, hvalues, -⟩ := hw.step_get x
      refine ⟨hvalues, ?_⟩
      rw [hcurrent, if_neg]
      · exact hfilter.symm
      · intro heq
        simp [Op.reaches, heq] at hpast
  | getAll q =>
      obtain ⟨found, hanswer, -, hvalues, hcurrent, -⟩ := hw.step_getAll hexpiring q
      refine ⟨hvalues, ?_⟩
      rw [hcurrent, if_neg]
      · exact hfilter.symm
      · rw [hanswer] at hpast
        cases found with
        | none => simp
        | some hs => simpa [Op.reaches] using hpast
  | advance d =>
      refine ⟨fun _ => rfl, hw.step_advance hle k⟩
  | _ => exact hlooks.elim

/-- A step that comes upon a key refreshes its holder; without one it may leave a tombstone, if the key
is certified. -/
theorem Sound.step_of_reaches [OrderedKey κ] (hw : w.Sound True)
    (hexpiring : w.cache.config.canonical = false) (hreach : op.reaches k (w.step op).1 = true) :
    (w.step op).2.now = w.now ∧ w.KeepsValues (w.step op).2 ∧
      (∀ h seat, w.current? k = some (h, seat) →
        (w.step op).2.current? k = some (h, seat.refreshed w.now)) ∧
      (w.current? k = none → (w.step op).2.current? k = none ∨ w.certifies k = true ∧
        ∃ h, (w.step op).2.current? k = some (h, .expiring w.now) ∧ ¬ w.registry.Issued h ∧
          (w.step op).2.registry.value? h = none) := by
  cases op with
  | get x =>
      obtain ⟨found, -, hcurrent, hvalues, hhit, hmiss⟩ := hw.step_get x
      obtain rfl : x = k := by simpa [Op.reaches] using hreach
      rw [hcurrent, if_pos Std.compare_self]
      exact ⟨rfl, hvalues, hhit, hmiss⟩
  | getAll q =>
      obtain ⟨found, hanswer, -, hvalues, hcurrent, -⟩ := hw.step_getAll hexpiring q
      rw [hanswer] at hreach
      cases found with
      | none => cases hreach
      | some hs =>
          have hcovers : Key.covers q k = true := hreach
          rw [hcurrent, hcovers]
          refine ⟨rfl, hvalues, fun h seat hk => ?_, fun hk => .inl ?_⟩
          · rw [hk]
            rfl
          · rw [hk]
            rfl
  | _ => cases hreach

end World

end TieredCache.Cache
