import TieredCache.Proofs.Store.Expiring

/-!
# Runs of an expiring tier

A run is a list of events: calls of the store, each at a reading of the clock, and what the rest of the
program does to the registry between them. What a call answers does not depend on the registry.
-/

namespace TieredCache.ExpiringStore

open RecencyRing

variable {κ : Type} [Key κ]

/-- A call of an expiring tier. -/
inductive Call (κ : Type) where
  | get (k : κ) (peek : Bool)
  | getAll (p : κ)
  | peek (k : κ)
  | touch (k : κ)
  | insert (h : Holder κ)
  | remove (k : κ)
  | expire
  | clear
  | size

/-- What a call answers. -/
inductive Reply (κ : Type) where
  | holder (h : Option (Holder κ))
  | holders (hs : List (Holder κ))
  | found (found : Bool)
  | count (n : Nat)
  | done

/-- One call of a store. A `get` that peeks neither sweeps nor refreshes. -/
def step (s : ExpiringStore κ) (reg : Registry κ) (now : Nat) :
    Call κ → Reply κ × ExpiringStore κ × Registry κ
  | .get k true => (.holder (s.peek? k), s, reg)
  | .get k false =>
    let (h, s, reg) := s.get reg now k
    (.holder h, s, reg)
  | .getAll p =>
    let (hs, s, reg) := s.getAll reg now p
    (.holders hs, s, reg)
  | .peek k => (.holder (s.peek? k), s, reg)
  | .touch k =>
    let (found, s) := s.touch now k
    (.found found, s, reg)
  | .insert h => (.done, s.insert reg now h)
  | .remove k =>
    let (h, s, reg) := s.remove reg k
    (.holder h, s, reg)
  | .expire =>
    let (n, s, reg) := s.expire reg now
    (.count n, s, reg)
  | .clear => (.done, s.clear reg)
  | .size => (.count s.size, s, reg)

/-- Every call leaves a store whose index and ring hold the same entries, in the order of their touches if
they were. -/
theorem Holds.step {s : ExpiringStore κ} {l : List (Entry (Holder κ))} (hs : s.Holds l)
    (reg : Registry κ) (now : Nat) (call : Call κ) :
    ∃ l', (s.step reg now call).2.1.Holds l' ∧ (Recent now l → Recent now l') := by
  have hswept : ∃ l', (s.expire reg now).2.1.Holds l' ∧ (Recent now l → Recent now l') := by
    obtain ⟨-, -, hheld, -⟩ := hs.expire reg now
    exact ⟨_, hheld, fun hl => hl.sublist (List.rdropWhile_prefix _ _).sublist⟩
  cases call with
  | get k peek =>
      cases peek with
      | true => exact ⟨l, hs, id⟩
      | false =>
          obtain ⟨l₁, hheld, hrecent⟩ := hswept
          obtain ⟨-, -, l₂, htouched, hrecent'⟩ := hheld.touch_key now k
          exact ⟨l₂, htouched, fun hl => hrecent' (hrecent hl)⟩
  | getAll p =>
      obtain ⟨l', hheld, hrecent, -⟩ := hs.getAll reg now p
      exact ⟨l', hheld, hrecent⟩
  | peek k => exact ⟨l, hs, id⟩
  | touch k => exact (hs.touch_key now k).2.2
  | insert h => exact (hs.insert_key reg now h).2.2
  | remove k =>
      obtain ⟨-, -, -, l', hheld, hsub⟩ := hs.remove_key reg k
      exact ⟨l', hheld, fun hl => hl.sublist hsub⟩
  | expire => exact hswept
  | clear => exact ⟨[], (hs.clear reg).1, fun _ => .nil now⟩
  | size => exact ⟨l, hs, id⟩

/-- The holder that a call puts into the store. -/
def Call.inserted? : Call κ → Option (Holder κ)
  | .insert h => some h
  | _ => none

omit [Key κ] in
theorem Call.inserted?_eq_some_iff {call : Call κ} {h : Holder κ} :
    call.inserted? = some h ↔ call = .insert h := by
  cases call <;> simp [inserted?]

/-! ## Sessions -/

/-- A store and the registry of all holders. -/
structure Session (κ : Type) [Key κ] where
  store : ExpiringStore κ
  registry : Registry κ

/-- A call at a reading of the clock, or a change of the registry by the rest of the program. -/
inductive Event (κ : Type) where
  | called (now : Nat) (call : Call κ)
  | elsewhere (registry : Registry κ)

namespace Event

/-- The calls of a run, each with its reading of the clock. -/
def calls : List (Event κ) → List (Nat × Call κ)
  | [] => []
  | called now call :: rest => (now, call) :: calls rest
  | elsewhere _ :: rest => calls rest

/-- The holder that is put into the store. -/
def inserted? : Event κ → Option (Holder κ)
  | called _ call => call.inserted?
  | elsewhere _ => none

end Event

namespace Session

/-- A new store in the presence of any holders. -/
def start (ttl : Duration) (reg : Registry κ) : Session κ :=
  ⟨.empty ttl, reg⟩

/-- What a call answers, and what an event leaves. -/
def step (w : Session κ) : Event κ → Option (Reply κ) × Session κ
  | .called now call =>
    let (reply, store, reg) := w.store.step w.registry now call
    (some reply, ⟨store, reg⟩)
  | .elsewhere reg => (none, { w with registry := reg })

/-- The answers to the calls of a run. -/
def replies : Session κ → List (Event κ) → List (Reply κ)
  | _, [] => []
  | w, event :: rest => (w.step event).1.toList ++ (w.step event).2.replies rest

/-- What a run leaves. -/
def after (w : Session κ) (run : List (Event κ)) : Session κ :=
  run.foldl (fun w event => (w.step event).2) w

theorem after_cons (w : Session κ) (event : Event κ) (rest : List (Event κ)) :
    w.after (event :: rest) = (w.step event).2.after rest :=
  rfl

end Session

end TieredCache.ExpiringStore
