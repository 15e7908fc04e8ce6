import Mathlib.Data.List.Infix
import TieredCache.Key.Path
import TieredCache.Proofs.Coverage.Aging
import TieredCache.Proofs.Coverage.Permanent

/-!
# Aging certifications as a ledger of refreshes

A ledger writes down when each certified key was last refreshed and strikes a key out as soon as it
has outlived its lifetime; it looks at all of its keys for every answer. Aging certifications, which
sweep late and look at a single key, answer every sequence of calls as the ledger does. For as long
as no key outlives its lifetime they also answer as permanent certifications do, and store the same
keys.
-/

namespace TieredCache.AgingCoverage

/-- A call of a set of certifications, or an advance of the clock. -/
inductive Call (κ : Type) where
  | add (k : κ)
  | covers (k : κ) (refresh : Bool)
  | advance (elapsed : Nat)

/-! ## Runs -/

section Runs

variable {κ σ τ : Type} {f : σ → Call κ → Option Bool × σ} {g : τ → Call κ → Option Bool × τ}

/-- What is answered to calls that are made one after the other; an advance has no answer. -/
def answers (f : σ → Call κ → Option Bool × σ) : σ → List (Call κ) → List (Option Bool)
  | _, [] => []
  | s, call :: rest => (f s call).1 :: answers f (f s call).2 rest

/-- The state that calls leave which are made one after the other. -/
def after (f : σ → Call κ → Option Bool × σ) (s : σ) (calls : List (Call κ)) : σ :=
  calls.foldl (fun s call => (f s call).2) s

/-- What every call keeps, given that the states before and after it are good ones, is kept all along a
run through good states, and the answers are the same. -/
theorem agree_of_step {R : σ → τ → Prop} {good : σ → Prop}
    (hstep : ∀ s t call, R s t → good s → good (f s call).2 →
      (f s call).1 = (g t call).1 ∧ R (f s call).2 (g t call).2)
    {s : σ} {t : τ} (h : R s t) {calls : List (Call κ)}
    (hgood : ∀ before, before <+: calls → good (after f s before)) :
    answers f s calls = answers g t calls ∧
      ∀ before, before <+: calls → R (after f s before) (after g t before) := by
  induction calls generalizing s t with
  | nil =>
      refine ⟨rfl, fun before hbefore => ?_⟩
      rw [List.prefix_nil.mp hbefore]
      exact h
  | cons call rest ih =>
      have hnow : good s := hgood [] List.nil_prefix
      have hnext : good (f s call).2 := hgood [call] ⟨rest, rfl⟩
      obtain ⟨hanswer, hkept⟩ := hstep s t call h hnow hnext
      obtain ⟨hanswers, hrest⟩ := ih hkept fun before hbefore =>
        hgood (call :: before) (List.prefix_cons_inj call |>.mpr hbefore)
      constructor
      · rw [answers, answers, hanswer, hanswers]
      · intro before hbefore
        rcases List.prefix_cons_iff.mp hbefore with rfl | ⟨init, rfl, hinit⟩
        · exact h
        · exact hrest init hinit

end Runs

variable {κ : Type} [Key κ] {k p : κ} {refresh : Bool}

/-! ## The ledger -/

/-- When each certified key was last refreshed. -/
structure Ledger (κ : Type) [Key κ] where
  ttl : Duration
  now : Nat
  refreshed : OrderedMap κ Nat

namespace Ledger

variable {m : Ledger κ}

/-- Nothing is certified. -/
def start (ttl : Duration) (now : Nat) : Ledger κ :=
  ⟨ttl, now, .empty⟩

/-- A key that covers `k`, with its last refresh. -/
def covering? (m : Ledger κ) (k : κ) : Option (κ × Nat) :=
  m.refreshed.entries.find? fun e => Key.covers e.1 k

/-- Certifies a key unless one of the keys covers it, and strikes out those that it covers; whether none
covered it. -/
def add (m : Ledger κ) (k : κ) : Bool × Ledger κ :=
  if (m.covering? k).isSome then (false, m)
  else
    let rest := m.refreshed.filter fun e => !Key.covers k e.1
    (true, { m with refreshed := rest.insert k m.now })

/-- Whether one of the keys covers `k`; that key alone is refreshed if asked to. -/
def covers (m : Ledger κ) (k : κ) (refresh : Bool) : Bool × Ledger κ :=
  match m.covering? k with
  | none => (false, m)
  | some e => (true, if refresh then { m with refreshed := m.refreshed.insert e.1 m.now } else m)

/-- Moves the clock on and strikes out the keys that have outlived their lifetime. -/
def advance (m : Ledger κ) (elapsed : Nat) : Ledger κ where
  ttl := m.ttl
  now := m.now + elapsed
  refreshed := m.refreshed.filter fun e => !decide (m.ttl.nanos < m.now + elapsed - e.2)

/-- Answers a call. -/
def step (m : Ledger κ) : Call κ → Option Bool × Ledger κ
  | .add k => (some (m.add k).1, (m.add k).2)
  | .covers k refresh => (some (m.covers k refresh).1, (m.covers k refresh).2)
  | .advance elapsed => (none, m.advance elapsed)

theorem of_covering? {e : κ × Nat} (h : m.covering? k = some e) :
    m.refreshed.find? e.1 = some e.2 ∧ Key.covers e.1 k := by
  constructor
  · exact OrderedMap.find?_eq_some_iff.mpr (List.mem_of_find?_eq_some h)
  · have hcov := List.find?_some h
    exact hcov

theorem isSome_covering?_iff :
    (m.covering? k).isSome ↔ ∃ p t, m.refreshed.find? p = some t ∧ Key.covers p k := by
  constructor
  · intro hk
    obtain ⟨e, he⟩ := Option.isSome_iff_exists.mp hk
    exact ⟨e.1, e.2, of_covering? he⟩
  · rintro ⟨p, t, hfind, hcov⟩
    exact List.find?_isSome.mpr ⟨(p, t), OrderedMap.find?_eq_some_iff.mp hfind, hcov⟩

theorem fst_add (m : Ledger κ) (k : κ) : (m.add k).1 = !(m.covering? k).isSome := by
  rw [add]
  cases (m.covering? k).isSome <;> rfl

theorem find?_add (p : κ) :
    (m.add k).2.refreshed.find? p = if (m.add k).1 then
        if compare k p = .eq then some m.now
        else if Key.covers k p then none else m.refreshed.find? p
      else m.refreshed.find? p := by
  rw [add]
  split
  next => rfl
  next =>
    have hrest : (m.refreshed.filter fun e => !Key.covers k e.1).find? p =
        if Key.covers k p then none else m.refreshed.find? p := by
      rw [OrderedMap.find?_filter]
      by_cases hcov : Key.covers k p <;> cases m.refreshed.find? p <;>
        simp [hcov, Option.filter_some]
    rw [if_pos rfl, OrderedMap.find?_insert, hrest]

theorem settings_add : (m.add k).2.ttl = m.ttl ∧ (m.add k).2.now = m.now := by
  rw [add]
  split <;> exact ⟨rfl, rfl⟩

theorem fst_covers (m : Ledger κ) (k : κ) (refresh : Bool) :
    (m.covers k refresh).1 = (m.covering? k).isSome := by
  rw [covers]
  cases m.covering? k <;> rfl

theorem settings_covers :
    (m.covers k refresh).2.ttl = m.ttl ∧ (m.covers k refresh).2.now = m.now := by
  rw [covers]
  split
  next => exact ⟨rfl, rfl⟩
  next => cases refresh <;> exact ⟨rfl, rfl⟩

theorem covers_of_none (h : m.covering? k = none) (refresh : Bool) :
    m.covers k refresh = (false, m) := by
  rw [covers, h]

theorem find?_covers_of_some {e : κ × Nat} (h : m.covering? k = some e) (p : κ) :
    (m.covers k refresh).2.refreshed.find? p =
      if refresh then if compare e.1 p = .eq then some m.now else m.refreshed.find? p
      else m.refreshed.find? p := by
  rw [covers, h]
  cases refresh with
  | false => rfl
  | true => exact OrderedMap.find?_insert _ _ _ _

end Ledger

/-! ## Aging certifications and the ledger -/

/-- Aging certifications and the time at which they are called. -/
structure Session (κ : Type) [Key κ] where
  coverage : AgingCoverage κ
  now : Nat

namespace Session

/-- Nothing is certified. -/
def start (ttl : Duration) (now : Nat) : Session κ :=
  ⟨.empty ttl, now⟩

/-- Answers a call. -/
def step (s : Session κ) : Call κ → Option Bool × Session κ
  | .add k => (some (s.coverage.add s.now k).1, { s with coverage := (s.coverage.add s.now k).2 })
  | .covers k refresh =>
    (some (s.coverage.covers s.now k refresh).1,
      { s with coverage := (s.coverage.covers s.now k refresh).2 })
  | .advance elapsed => (none, { s with now := s.now + elapsed })

/-- The stored keys form an antichain that index and ring agree on, all of them refreshed by now. -/
def Sound (s : Session κ) : Prop :=
  ∃ l, s.coverage.Holds l ∧ RecencyRing.Recent s.now l

theorem sound_start (ttl : Duration) (now : Nat) : (start ttl now : Session κ).Sound :=
  ⟨[], Holds.empty ttl, .nil now⟩

end Session

variable {s : Session κ} {m : Ledger κ}

/-- The live keys, with their refreshes, are those of the ledger. -/
structure Matches (s : Session κ) (m : Ledger κ) : Prop where
  sound : s.Sound
  ttl : m.ttl = s.coverage.ttl
  now : m.now = s.now
  find? : ∀ p, m.refreshed.find? p = s.coverage.live? s.now p

namespace Matches

theorem start (ttl : Duration) (now : Nat) :
    Matches (Session.start ttl now : Session κ) (Ledger.start ttl now) where
  sound := Session.sound_start ttl now
  ttl := rfl
  now := rfl
  find? _ := rfl

theorem advance (h : Matches s m) (elapsed : Nat) :
    Matches { s with now := s.now + elapsed } (m.advance elapsed) where
  sound := by
    obtain ⟨l, hholds, hrecent⟩ := h.sound
    exact ⟨l, hholds, hrecent.later (Nat.le_add_right _ _)⟩
  ttl := h.ttl
  now := congrArg (· + elapsed) h.now
  find? p := by
    rw [live?_later (Nat.le_add_right s.now elapsed), ← h.find?, ← h.ttl, ← h.now]
    exact OrderedMap.find?_filter _ _ _

theorem isSome_covering?_iff (h : Matches s m) :
    (m.covering? k).isSome ↔ ∃ p t, s.coverage.live? s.now p = some t ∧ Key.covers p k := by
  rw [Ledger.isSome_covering?_iff]
  simp only [h.find?]

variable [OrderedKey κ]

theorem add (h : Matches s m) (k : κ) :
    (s.coverage.add s.now k).1 = (m.add k).1 ∧
      Matches { s with coverage := (s.coverage.add s.now k).2 } (m.add k).2 := by
  obtain ⟨l, hholds, hrecent⟩ := h.sound
  obtain ⟨l', hholds', hadd⟩ := hholds.add s.now k
  obtain ⟨hrecent', hanswer, hlive⟩ := hadd hrecent
  have hsame : (s.coverage.add s.now k).1 = (m.add k).1 := by
    rw [Bool.eq_iff_iff, hanswer, ← h.isSome_covering?_iff, Ledger.fst_add]
    simp
  refine ⟨hsame, ⟨l', hholds', hrecent'⟩, ?_, ?_, fun p => ?_⟩
  · rw [Ledger.settings_add.1, ttl_add, h.ttl]
  · rw [Ledger.settings_add.2, h.now]
  · rw [hlive, hsame, Ledger.find?_add, h.find?, h.now]

theorem covers (h : Matches s m) (k : κ) (refresh : Bool) :
    (s.coverage.covers s.now k refresh).1 = (m.covers k refresh).1 ∧
      Matches { s with coverage := (s.coverage.covers s.now k refresh).2 }
        (m.covers k refresh).2 := by
  obtain ⟨l, hholds, hrecent⟩ := h.sound
  obtain ⟨l', hholds', hcovers⟩ := hholds.covers s.now k refresh
  obtain ⟨hrecent', hanswer, hlive⟩ := hcovers hrecent
  have hsame : (s.coverage.covers s.now k refresh).1 = (m.covers k refresh).1 := by
    rw [Bool.eq_iff_iff, hanswer, ← h.isSome_covering?_iff, Ledger.fst_covers]
  refine ⟨hsame, ⟨l', hholds', hrecent'⟩, ?_, ?_, fun p => ?_⟩
  · rw [Ledger.settings_covers.1, ttl_covers, h.ttl]
  · rw [Ledger.settings_covers.2, h.now]
  · rw [hlive]
    cases hfound : m.covering? k with
    | none =>
        have hnone : ¬ ∃ p t, s.coverage.live? s.now p = some t ∧ Key.covers p k := by
          rw [← h.isSome_covering?_iff, hfound]
          exact Bool.false_ne_true
        rw [Ledger.covers_of_none hfound, h.find?]
        split
        next hcov =>
          rw [Bool.and_eq_true] at hcov
          cases hp : s.coverage.live? s.now p with
          | none => rfl
          | some t => exact absurd ⟨p, t, hp, hcov.2⟩ hnone
        next => rfl
    | some e =>
        -- The live keys are an antichain, so the key that the ledger found is the one that covers `k`.
        obtain ⟨he, hcov⟩ := Ledger.of_covering? hfound
        rw [h.find?] at he
        rw [Ledger.find?_covers_of_some hfound, h.find?, h.now]
        cases refresh with
        | false => rfl
        | true =>
            rw [Bool.true_and, if_pos rfl]
            exact (hholds.refresh_eq hrecent he hcov p).symm

theorem step (h : Matches s m) (call : Call κ) :
    (s.step call).1 = (m.step call).1 ∧ Matches (s.step call).2 (m.step call).2 := by
  cases call with
  | add k =>
      obtain ⟨hanswer, hkept⟩ := h.add k
      exact ⟨congrArg some hanswer, hkept⟩
  | covers k refresh =>
      obtain ⟨hanswer, hkept⟩ := h.covers k refresh
      exact ⟨congrArg some hanswer, hkept⟩
  | advance elapsed => exact ⟨rfl, h.advance elapsed⟩

end Matches

/-! ## While nothing lapses -/

/-- None of the stored keys has outlived its lifetime. -/
def Session.Fresh (s : Session κ) : Prop :=
  ∀ k ∈ s.coverage.keys, (s.coverage.live? s.now k).isSome

instance : Decidable s.Fresh :=
  inferInstanceAs (Decidable (∀ k ∈ s.coverage.keys, (s.coverage.live? s.now k).isSome))

theorem Session.Fresh.isSome_find?_iff (h : s.Fresh) :
    (s.coverage.index.find? p).isSome ↔ ∃ t, s.coverage.live? s.now p = some t := by
  rw [← Option.isSome_iff_exists]
  constructor
  · intro hp
    exact h p (OrderedMap.mem_keys_iff.mpr hp)
  · intro hp
    obtain ⟨t, ht⟩ := Option.isSome_iff_exists.mp hp
    obtain ⟨v, hstored, -⟩ := live?_eq_some_iff.mp ht
    cases hfind : s.coverage.index.find? p with
    | none => simp [RecencyRing.stamped?, hfind] at hstored
    | some handle => rfl

/-- Answers a call from permanent certifications, which no advance of the clock concerns. -/
def permanentStep (c : PermanentCoverage κ) : Call κ → Option Bool × PermanentCoverage κ
  | .add k => (some (c.add k).1, (c.add k).2)
  | .covers k _ => (some (c.covers k), c)
  | .advance _ => (none, c)

/-- The same keys are stored. -/
structure StoresSame (s : Session κ) (c : PermanentCoverage κ) : Prop where
  sound : s.Sound
  antichain : c.index.Antichain
  stored : ∀ p, (s.coverage.index.find? p).isSome ↔ (c.index.find? p).isSome

namespace StoresSame

variable {c : PermanentCoverage κ}

theorem start (ttl : Duration) (now : Nat) :
    StoresSame (Session.start ttl now : Session κ) .empty where
  sound := Session.sound_start ttl now
  antichain := PermanentCoverage.antichain_empty
  stored _ := Iff.rfl

theorem keys_eq (h : StoresSame s c) : s.coverage.keys = c.keys :=
  OrderedMap.keys_eq_of_isSome_iff h.stored

theorem size_eq (h : StoresSame s c) : s.coverage.size = c.size :=
  calc s.coverage.size = s.coverage.keys.length := (List.length_map _).symm
    _ = c.keys.length := congrArg List.length h.keys_eq
    _ = c.size := List.length_map _

variable [OrderedKey κ]

theorem covers_iff (h : StoresSame s c) (hs : s.Fresh) :
    c.covers k = true ↔ ∃ p t, s.coverage.live? s.now p = some t ∧ Key.covers p k := by
  rw [PermanentCoverage.covers_iff h.antichain]
  simp only [← h.stored, hs.isSome_find?_iff, exists_and_right]

theorem add (h : StoresSame s c) (hs : s.Fresh)
    (hs' : Session.Fresh { s with coverage := (s.coverage.add s.now k).2 }) :
    (s.coverage.add s.now k).1 = (c.add k).1 ∧
      StoresSame { s with coverage := (s.coverage.add s.now k).2 } (c.add k).2 := by
  obtain ⟨l, hholds, hrecent⟩ := h.sound
  obtain ⟨l', hholds', hadd⟩ := hholds.add s.now k
  obtain ⟨hrecent', hanswer, hlive⟩ := hadd hrecent
  have hsame : (s.coverage.add s.now k).1 = (c.add k).1 := by
    rw [Bool.eq_iff_iff, hanswer, ← h.covers_iff hs, PermanentCoverage.fst_add]
    simp
  refine ⟨hsame, ⟨l', hholds', hrecent'⟩, PermanentCoverage.antichain_add h.antichain k,
    fun p => ?_⟩
  have hstored : (c.index.find? p).isSome ↔ (s.coverage.live? s.now p).isSome := by
    rw [← h.stored, hs.isSome_find?_iff, Option.isSome_iff_exists]
  rw [hs'.isSome_find?_iff, ← Option.isSome_iff_exists, hlive, hsame, PermanentCoverage.fst_add]
  cases hk : c.covers k with
  | true =>
      rw [PermanentCoverage.add_of_covers hk]
      exact hstored.symm
  | false =>
      rw [PermanentCoverage.find?_add hk, Bool.not_false, if_pos rfl]
      split
      next => exact Iff.rfl
      next =>
        split
        next => exact Iff.rfl
        next => exact hstored.symm

theorem covers (h : StoresSame s c) (hs : s.Fresh)
    (hs' : Session.Fresh { s with coverage := (s.coverage.covers s.now k refresh).2 }) :
    (s.coverage.covers s.now k refresh).1 = c.covers k ∧
      StoresSame { s with coverage := (s.coverage.covers s.now k refresh).2 } c := by
  obtain ⟨l, hholds, hrecent⟩ := h.sound
  obtain ⟨l', hholds', hcovers⟩ := hholds.covers s.now k refresh
  obtain ⟨hrecent', hanswer, hlive⟩ := hcovers hrecent
  refine ⟨Bool.eq_iff_iff.mpr (hanswer.trans (h.covers_iff hs).symm), ⟨l', hholds', hrecent'⟩,
    h.antichain, fun p => ?_⟩
  rw [hs'.isSome_find?_iff, ← h.stored, hs.isSome_find?_iff, ← Option.isSome_iff_exists,
    ← Option.isSome_iff_exists, hlive]
  split
  next => rw [Option.isSome_map]
  next => rfl

theorem step (h : StoresSame s c) (call : Call κ) (hs : s.Fresh) (hs' : (s.step call).2.Fresh) :
    (s.step call).1 = (permanentStep c call).1 ∧
      StoresSame (s.step call).2 (permanentStep c call).2 := by
  cases call with
  | add k =>
      obtain ⟨hanswer, hkept⟩ := h.add hs hs'
      exact ⟨congrArg some hanswer, hkept⟩
  | covers k refresh =>
      obtain ⟨hanswer, hkept⟩ := h.covers hs hs'
      exact ⟨congrArg some hanswer, hkept⟩
  | advance elapsed =>
      obtain ⟨l, hholds, hrecent⟩ := h.sound
      exact ⟨rfl, ⟨l, hholds, hrecent.later (Nat.le_add_right _ _)⟩, h.antichain, h.stored⟩

end StoresSame

/-- Aging certifications answer as the ledger does. If at no moment of a run a stored key has outlived
its lifetime, they answer as permanent certifications do, and store the same keys at every moment. -/
theorem answers_eq_ledger [OrderedKey κ] (ttl : Duration) (now : Nat) (calls : List (Call κ)) :
    answers Session.step (Session.start ttl now) calls =
        answers Ledger.step (Ledger.start ttl now) calls ∧
      ((∀ before, before <+: calls → (after Session.step (Session.start ttl now) before).Fresh) →
        answers Session.step (Session.start ttl now) calls = answers permanentStep .empty calls ∧
        ∀ before, before <+: calls →
          (after Session.step (Session.start ttl now) before).coverage.keys =
              (after permanentStep .empty before).keys ∧
            (after Session.step (Session.start ttl now) before).coverage.size =
              (after permanentStep .empty before).size) := by
  constructor
  · have hsteps (s : Session κ) (m : Ledger κ) (call : Call κ) (h : Matches s m)
        (_ : True) (_ : True) := h.step call
    exact (agree_of_step hsteps (Matches.start ttl now) fun _ _ => trivial).1
  · intro hfresh
    have hsteps (s : Session κ) (c : PermanentCoverage κ) (call : Call κ) (h : StoresSame s c) :=
      h.step call
    obtain ⟨hanswers, hkept⟩ := agree_of_step hsteps (StoresSame.start ttl now) hfresh
    exact ⟨hanswers, fun before hbefore =>
      ⟨(hkept before hbefore).keys_eq, (hkept before hbefore).size_eq⟩⟩

/-- `[1]` takes the place of `[1, 2]` and, refreshed by a question below it, lasts until the end. -/
theorem answers_eq_ledger_unlapsed :
    ∃ calls : List (Call PathKey),
      calls = [.add ⟨[1, 2]⟩, .advance 500, .add ⟨[1]⟩, .advance 500, .covers ⟨[1, 7]⟩ true,
        .advance 1000, .covers ⟨[1, 2]⟩ false, .add ⟨[1, 2]⟩, .add ⟨[3]⟩] ∧
      answers Ledger.step (Ledger.start ⟨1000⟩ 0) calls =
        [some true, none, some true, none, some true, none, some true, some false, some true] ∧
      (after permanentStep .empty calls).keys = [⟨[1]⟩, ⟨[3]⟩] ∧
      answers Session.step (Session.start ⟨1000⟩ 0) calls =
        answers Ledger.step (Ledger.start ⟨1000⟩ 0) calls ∧
      answers Session.step (Session.start ⟨1000⟩ 0) calls = answers permanentStep .empty calls ∧
      (after Session.step (Session.start ⟨1000⟩ 0) calls).coverage.keys =
        (after permanentStep .empty calls).keys := by
  let calls : List (Call PathKey) :=
    [.add ⟨[1, 2]⟩, .advance 500, .add ⟨[1]⟩, .advance 500, .covers ⟨[1, 7]⟩ true,
      .advance 1000, .covers ⟨[1, 2]⟩ false, .add ⟨[1, 2]⟩, .add ⟨[3]⟩]
  have hfresh : ∀ before ∈ calls.inits,
      (after Session.step (Session.start ⟨1000⟩ 0) before).Fresh := by decide +kernel
  obtain ⟨hledger, hunlapsed⟩ := answers_eq_ledger ⟨1000⟩ 0 calls
  obtain ⟨hanswers, hkeys⟩ := hunlapsed fun before hbefore =>
    hfresh before ((List.mem_inits before calls).mpr hbefore)
  exact ⟨calls, rfl, by decide +kernel, by decide +kernel, hledger, hanswers,
    (hkeys calls List.prefix_rfl).1⟩

end TieredCache.AgingCoverage
