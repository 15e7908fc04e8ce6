import Mathlib.Algebra.GroupWithZero.Nat
import TieredCache.Proofs.Arena.Issued

/-!
# Runs of an arena

A run is a list of calls with any identities: live ones, stale ones and ones of other arenas. The identity
that an insertion hands out differs from all others of the run, and what it stands for is told by the calls
through it alone: the value last written through it, until it is removed or the arena is cleared, and
nothing from then on, however often its slot is used again.

Generations are natural numbers here. A slot's generation is the number of values that were taken out of
it, so a word holds every generation of a run that vacates no slot as often as `2 ^ 64` times.
-/

namespace TieredCache.Arena

variable {α : Type} {a : Arena α} {x : SlotId} {i : Nat}

/-- A call that may change an arena. A write puts a value in the place of the one that an identity stands
for. -/
inductive Call (α : Type) where
  | insert (v : α)
  | remove (id : SlotId)
  | write (id : SlotId) (v : α)
  | clear

namespace Call

/-- The call takes away what an identity stands for. -/
def ends (x : SlotId) : Call α → Bool
  | .remove y => y = x
  | .clear => true
  | _ => false

/-- The value that the call writes through an identity. -/
def written? (x : SlotId) : Call α → Option α
  | .write y v => if y = x then some v else none
  | _ => none

end Call

/-- The arena after a call. -/
def next (a : Arena α) : Call α → Arena α
  | .insert v => (a.insert v).2
  | .remove id => (a.remove id).2
  | .write id v => (a.replace id v).2
  | .clear => a.clear

/-- The identity that a call hands out. -/
def minted? (a : Arena α) : Call α → Option SlotId
  | .insert v => some (a.insert v).1
  | _ => none

/-- The arena after calls that are made one after the other. -/
def after (a : Arena α) (run : List (Call α)) : Arena α :=
  run.foldl next a

/-- The identities that are handed out in a run, in order. -/
def handedOut (a : Arena α) : List (Call α) → List SlotId
  | [] => []
  | call :: rest => (a.minted? call).toList ++ (a.next call).handedOut rest

/-- What the identity of a value `v` stands for after the calls that follow the insertion: the value last
written through it, unless a call has ended it. -/
def standing (x : SlotId) (v : α) (calls : List (Call α)) : Option α :=
  if calls.any (·.ends x) then none else some ((calls.filterMap (·.written? x)).getLastD v)

theorem standing_cons (x : SlotId) (v : α) (call : Call α) (rest : List (Call α)) :
    standing x v (call :: rest) =
      if call.ends x then none else standing x ((call.written? x).getD v) rest := by
  cases hends : call.ends x with
  | true => simp [standing, hends]
  | false =>
      rw [standing, standing, List.any_cons, hends, Bool.false_or, List.filterMap_cons]
      cases call.written? x with
      | none => rfl
      | some w =>
          rw [List.getLastD_cons]
          rfl

theorem after_nil (a : Arena α) : a.after [] = a :=
  rfl

theorem after_cons (a : Arena α) (call : Call α) (rest : List (Call α)) :
    a.after (call :: rest) = (a.next call).after rest :=
  rfl

theorem after_append (a : Arena α) (run rest : List (Call α)) :
    a.after (run ++ rest) = (a.after run).after rest :=
  List.foldl_append

/-! ## What an identity stands for -/

theorem fst_replace (a : Arena α) (id : SlotId) (v : α) : (a.replace id v).1 = a.get? id :=
  rfl

/-- A write changes the value of its own identity, if there is one, and of no other. -/
theorem get?_replace (a : Arena α) (id : SlotId) (v : α) (x : SlotId) :
    (a.replace id v).2.get? x = if x = id then (a.get? id).map fun _ => v else a.get? x := by
  rw [replace]
  cases hid : a.get? id with
  | none =>
      have hnone : a.modify? id (fun _ => v) = none := by
        rw [modify?, contains, hid]
        rfl
      rw [hnone]
      by_cases hx : x = id
      · rw [if_pos hx, hx]
        exact hid
      · rw [if_neg hx]
        rfl
  | some w =>
      obtain ⟨b, hb, hget, -⟩ := modify?_of_get? hid fun _ => v
      rw [hb]
      exact hget x

theorem WellFormed.replace (h : a.WellFormed) (id : SlotId) (v : α) :
    (a.replace id v).2.WellFormed := by
  rw [Arena.replace]
  cases hid : a.get? id with
  | none =>
      rw [modify?, contains, hid]
      exact h
  | some w =>
      obtain ⟨b, hb, -, -, hwell⟩ := modify?_of_get? hid fun _ => v
      rw [hb]
      exact hwell h

theorem issued_replace (a : Arena α) (id : SlotId) (v : α) (y : SlotId) :
    (a.replace id v).2.Issued y ↔ a.Issued y := by
  rw [replace]
  cases hb : a.modify? id fun _ => v with
  | none => rfl
  | some b => exact issued_modify? hb y

theorem WellFormed.next (h : a.WellFormed) (call : Call α) : (a.next call).WellFormed := by
  cases call with
  | insert v => exact h.insert v
  | remove id => exact h.remove id
  | write id v => exact h.replace id v
  | clear => exact wellFormed_clear a

theorem WellFormed.after (h : a.WellFormed) (run : List (Call α)) : (a.after run).WellFormed := by
  induction run generalizing a with
  | nil => exact h
  | cons call rest ih => exact ih (h.next call)

/-- A call changes what an identity stands for that was handed out before if it ends it or writes through
it, and in no other way. -/
theorem get?_next (h : a.WellFormed) (hx : a.Issued x) (call : Call α) :
    (a.next call).get? x =
      if call.ends x then none else (a.get? x).map fun v => (call.written? x).getD v := by
  cases call with
  | insert v =>
      have hne : x ≠ (a.insert v).1 := fun heq => not_issued_fst_insert h v (heq ▸ hx)
      rw [next, get?_insert h, if_neg hne]
      simp [Call.ends, Call.written?]
  | remove id => simp [next, get?_remove, Call.ends, Call.written?, eq_comm]
  | write id v =>
      rw [next, get?_replace]
      by_cases hid : x = id
      · simp [hid, Call.ends, Call.written?]
      · simp [hid, Ne.symm hid, Call.ends, Call.written?]
  | clear => simp [next, Call.ends]

/-! ## Which identities are handed out -/

theorem not_issued_of_minted? (h : a.WellFormed) {call : Call α} (hx : a.minted? call = some x) :
    ¬ a.Issued x := by
  cases call with
  | insert v => exact Option.some.inj hx ▸ not_issued_fst_insert h v
  | _ => cases hx

/-- A call hands out its own identity, and takes none back. -/
theorem issued_next_iff (h : a.WellFormed) (call : Call α) (y : SlotId) :
    (a.next call).Issued y ↔ a.minted? call = some y ∨ a.Issued y := by
  cases call with
  | insert v =>
      rw [next, issued_insert_iff h, minted?, Option.some.injEq, eq_comm]
  | remove id => simp [next, minted?, issued_remove]
  | write id v => simp [next, minted?, issued_replace]
  | clear => simp [next, minted?, issued_clear]

theorem issued_after_iff (h : a.WellFormed) (run : List (Call α)) (y : SlotId) :
    (a.after run).Issued y ↔ y ∈ a.handedOut run ∨ a.Issued y := by
  induction run generalizing a with
  | nil => simp [after_nil, handedOut]
  | cons call rest ih =>
      rw [after_cons, ih (h.next call), issued_next_iff h, handedOut, List.mem_append,
        Option.mem_toList, ← or_assoc]
      exact or_congr_left Or.comm

/-- The identities of a run are new to the arena. -/
theorem not_issued_of_mem_handedOut (h : a.WellFormed) {run : List (Call α)}
    (hx : x ∈ a.handedOut run) : ¬ a.Issued x := by
  induction run generalizing a with
  | nil => cases hx
  | cons call rest ih =>
      rw [handedOut, List.mem_append, Option.mem_toList] at hx
      rcases hx with hnow | hlater
      · exact not_issued_of_minted? h hnow
      · exact fun hissued => ih (h.next call) hlater ((issued_next_iff h call x).mpr (.inr hissued))

/-- No identity is handed out twice. -/
theorem nodup_handedOut (h : a.WellFormed) (run : List (Call α)) : (a.handedOut run).Nodup := by
  induction run generalizing a with
  | nil => exact List.nodup_nil
  | cons call rest ih =>
      rw [handedOut]
      cases hminted : a.minted? call with
      | none => exact ih (h.next call)
      | some y =>
          refine List.nodup_cons.mpr ⟨fun hagain => ?_, ih (h.next call)⟩
          exact not_issued_of_mem_handedOut (h.next call) hagain
            ((issued_next_iff h call y).mpr (.inl hminted))

/-- Calls change what an identity stands for that was handed out before as one of them ends it or as they
write through it. -/
theorem get?_after (h : a.WellFormed) (hx : a.Issued x) (run : List (Call α)) :
    (a.after run).get? x = (a.get? x).bind fun v => standing x v run := by
  induction run generalizing a with
  | nil => simp [after_nil, standing]
  | cons call rest ih =>
      have hissued : (a.next call).Issued x := (issued_next_iff h call x).mpr (.inr hx)
      rw [after_cons, ih (h.next call) hissued, get?_next h hx]
      cases a.get? x with
      | none => split <;> rfl
      | some v =>
          rw [Option.bind_some, standing_cons]
          split <;> rfl

/-- The identity of an insertion stands for what the calls through it tell. -/
theorem get?_after_insert (h : a.WellFormed) (v : α) (later : List (Call α)) :
    (a.after (.insert v :: later)).get? (a.insert v).1 = standing (a.insert v).1 v later := by
  have hissued : (a.insert v).2.Issued (a.insert v).1 :=
    (issued_insert_iff h v _).mpr (.inl rfl)
  rw [after_cons, next, get?_after (h.insert v) hissued, get?_insert h, if_pos rfl, Option.bind_some]

/-! ## How far generations go -/

/-- The number of values that were taken out of a slot. -/
def generation (a : Arena α) (i : Nat) : Nat :=
  (a.slots[i]?).elim 0 (·.generation)

/-- Whether a slot has a value. -/
def occupied (a : Arena α) (i : Nat) : Bool :=
  (a.slots[i]?).any (·.content.isSome)

/-- Whether a call takes the value out of a slot. -/
def vacates (a : Arena α) (i : Nat) (call : Call α) : Bool :=
  a.occupied i && !(a.next call).occupied i

/-- How often a run takes a value out of a slot. -/
def vacatings (a : Arena α) (i : Nat) : List (Call α) → Nat
  | [] => 0
  | call :: rest => (a.vacates i call).toNat + (a.next call).vacatings i rest

/-- A change of one slot takes its value out, in which case it moves on, or leaves its generation. -/
theorem generation_of_slot {b : Arena α} {f : Slot α → Slot α}
    (hb : b.slots[i]? = (a.slots[i]?).map f) (hf : ∀ s, a.slots[i]? = some s →
      (f s).generation = s.generation + (s.content.isSome && !(f s).content.isSome).toNat) :
    b.generation i = a.generation i + (a.occupied i && !b.occupied i).toNat := by
  simp only [generation, occupied, hb]
  cases hs : a.slots[i]? with
  | none => rfl
  | some s => simpa using hf s hs

theorem generation_of_modify {b : Arena α} {j : Nat} {f : Slot α → Slot α}
    (hb : b.slots = a.slots.modify j f) (hf : ∀ s, a.slots[j]? = some s →
      (f s).generation = s.generation + (s.content.isSome && !(f s).content.isSome).toNat) :
    b.generation i = a.generation i + (a.occupied i && !b.occupied i).toNat := by
  by_cases hj : j = i
  · subst hj
    exact generation_of_slot (f := f) (by simp [hb, Array.getElem?_modify]) hf
  · exact generation_of_slot (f := id) (by simp [hb, Array.getElem?_modify, hj]) (by simp)

/-- A slot moves on by one generation when a call takes its value out, and at no other time. -/
theorem generation_next (a : Arena α) (i : Nat) (call : Call α) :
    (a.next call).generation i = a.generation i + (a.vacates i call).toNat := by
  cases call with
  | insert v =>
      rw [vacates, next, insert]
      split
      · by_cases hi : i = a.slots.size
        · simp [generation, occupied, hi]
        · simp [generation, occupied, Array.getElem?_push, hi]
      · apply generation_of_modify (f := ({ · with content := some v })) rfl
        simp
  | remove id =>
      rw [vacates, next, remove]
      split
      · simp
      next v hv =>
        refine generation_of_modify rfl fun s hs => ?_
        cases hs.symm.trans (get?_eq_some_iff.mp hv)
        simp [Slot.vacate]
  | write id v =>
      rw [vacates, next, replace]
      cases hb : a.modify? id fun _ => v with
      | none => simp
      | some b =>
          unfold modify? at hb
          split at hb
          next =>
            cases hb
            apply generation_of_modify (f := fun s => { s with content := s.content.map fun _ => v }) rfl
            simp
          next => cases hb
  | clear =>
      refine generation_of_slot (f := Slot.clear) (by simp [next, Arena.clear]) fun s _ => ?_
      cases hc : s.content <;> simp [Slot.clear, Slot.vacate, hc]

theorem generation_after (a : Arena α) (i : Nat) (run : List (Call α)) :
    (a.after run).generation i = a.generation i + a.vacatings i run := by
  induction run generalizing a with
  | nil => rfl
  | cons call rest ih => rw [after_cons, ih, generation_next, vacatings, Nat.add_assoc]

/-- An identity that was handed out is of a generation that its slot has reached. -/
theorem Issued.generation_le (h : a.Issued x) : x.generation ≤ a.generation x.index := by
  obtain ⟨s, hs, hheld⟩ := h
  rw [generation, hs]
  rcases hheld with hlt | ⟨heq, -⟩
  · exact Nat.le_of_lt hlt
  · exact Nat.le_of_eq heq

theorem generation_after_empty (i : Nat) (run : List (Call α)) :
    ((empty : Arena α).after run).generation i = (empty : Arena α).vacatings i run := by
  rw [generation_after]
  simp [generation, empty]

theorem generation_le_of_mem_handedOut {run : List (Call α)}
    (hx : x ∈ (empty : Arena α).handedOut run) :
    x.generation ≤ (empty : Arena α).vacatings x.index run := by
  have hissued : ((empty : Arena α).after run).Issued x :=
    (issued_after_iff wellFormed_empty run x).mpr (.inl hx)
  exact generation_after_empty x.index run ▸ hissued.generation_le

/-! ## Identities never alias -/

/-- In every run an arena hands out no identity twice. The identity of an inserted value stood for nothing
before, and stands for the value last written through it until it is removed or the arena is cleared, and
for nothing ever after: so every operation finds it, and no operation through another identity changes it.
As long as a slot is vacated less than `2 ^ 64` times, all its generations are words. -/
theorem ids_never_alias (run : List (Call α)) :
    ((empty : Arena α).handedOut run).Nodup ∧
    (∀ before v later, run = before ++ .insert v :: later →
      let x := ((empty.after before).insert v).1
      let a := empty.after run
      (empty.after before).get? x = none ∧ a.get? x = standing x v later ∧
        a.contains x = (standing x v later).isSome ∧ (a.remove x).1 = standing x v later ∧
        (∀ w, (a.replace x w).1 = standing x v later) ∧
        ∀ y w, y ≠ x → (a.remove y).2.get? x = standing x v later ∧
          (a.replace y w).2.get? x = standing x v later ∧
          (a.insert w).2.get? x = standing x v later) ∧
    ∀ i, (empty : Arena α).vacatings i run < 2 ^ 64 →
      ((empty : Arena α).after run).generation i < 2 ^ 64 ∧
        ∀ x ∈ (empty : Arena α).handedOut run, x.index = i → x.generation < 2 ^ 64 := by
  refine ⟨nodup_handedOut wellFormed_empty run, ?_, fun i hfew => ?_⟩
  · rintro before v later rfl x a
    have hbefore : ((empty : Arena α).after before).WellFormed := wellFormed_empty.after before
    have ha : a = (empty.after before).after (.insert v :: later) := after_append _ _ _
    have hwell : a.WellFormed := wellFormed_empty.after _
    have hget : a.get? x = standing x v later := by
      rw [ha]
      exact get?_after_insert hbefore v later
    have hissued : a.Issued x := by
      rw [ha, issued_after_iff hbefore]
      exact .inl List.mem_cons_self
    refine ⟨get?_fst_insert hbefore v, hget, by rw [contains, hget], by rw [fst_remove, hget],
      fun w => by rw [fst_replace, hget], fun y w hne => ⟨?_, ?_, ?_⟩⟩
    · rw [get?_remove, if_neg hne.symm, hget]
    · rw [get?_replace, if_neg hne.symm, hget]
    · have hfresh : x ≠ (a.insert w).1 := fun heq => not_issued_fst_insert hwell w (heq ▸ hissued)
      rw [get?_insert hwell, if_neg hfresh, hget]
  · have hgeneration := generation_after_empty i run
    refine ⟨hgeneration ▸ hfew, ?_⟩
    rintro x hx rfl
    exact Nat.lt_of_le_of_lt (generation_le_of_mem_handedOut hx) hfew

/-- A value is written over and removed, and its slot goes to another value, which a clearing takes away.
The first identity stands for the written value before the removal, and for nothing in the end. -/
theorem ids_never_alias_reused_slot :
    let start : Arena String := empty
    let early : List (Call String) := [.insert "a", .write ⟨0, 0⟩ "b", .insert "c"]
    let run : List (Call String) := early ++ [.remove ⟨0, 0⟩, .insert "d", .clear, .insert "e"]
    start.handedOut run = [⟨0, 0⟩, ⟨1, 0⟩, ⟨0, 1⟩, ⟨1, 1⟩] ∧
      (start.after early).get? ⟨0, 0⟩ = some "b" ∧ (start.after run).get? ⟨0, 0⟩ = none ∧
      (start.after run).get? ⟨0, 1⟩ = none ∧ (start.after run).get? ⟨1, 1⟩ = some "e" ∧
      ((start.after run).remove ⟨0, 0⟩).2.get? ⟨1, 1⟩ = some "e" ∧ start.vacatings 0 run = 2 ∧
      (start.after run).generation 0 < 2 ^ 64 := by
  intro start early run
  obtain ⟨-, hearly, -⟩ := ids_never_alias early
  obtain ⟨-, hrun, hwords⟩ := ids_never_alias run
  have hfirst : ((start.after []).insert "a").1 = ⟨0, 0⟩ := rfl
  have hsecond : ((start.after (run.take 4)).insert "d").1 = ⟨0, 1⟩ := by decide +kernel
  have hthird : ((start.after (run.take 6)).insert "e").1 = ⟨1, 1⟩ := by decide +kernel
  have hwritten := (hearly [] "a" [.write ⟨0, 0⟩ "b", .insert "c"] rfl).2.1
  have hremoved := (hrun [] "a" (run.drop 1) rfl).2.1
  have hcleared := (hrun (run.take 4) "d" (run.drop 5) rfl).2.1
  obtain ⟨-, hlast, -, -, -, hothers⟩ := hrun (run.take 6) "e" [] rfl
  simp only [start, hfirst, hsecond, hthird] at hwritten hremoved hcleared hlast hothers
  have hfew : start.vacatings 0 run = 2 := by decide +kernel
  exact ⟨by decide +kernel, hwritten, hremoved, hcleared, hlast,
    (hothers ⟨0, 0⟩ "f" (by decide)).1, hfew, (hwords 0 (by rw [hfew]; decide)).1⟩

end TieredCache.Arena
