import TieredCache.Proofs.Ring.Index
import TieredCache.Proofs.Ring.Issued

/-!
# Runs of a recency ring

A run is a list of calls, each made at a reading of the clock; the readings may come in any order. The
handles that a ring hands out in a run are all its own, and all different.
-/

namespace TieredCache.RecencyRing

variable {α σ : Type}

/-- A call of a ring. -/
inductive Call (α : Type) where
  | add (v : α)
  | touch (h : Handle)
  | remove (h : Handle)
  | expire
  | clear
  | get (h : Handle)

/-- What a call answers. A sweep hands values over one after the other and answers their number. -/
inductive Reply (α : Type) where
  | added (h : Option Handle)
  | touched (found : Bool)
  | removed (v : Option α)
  | expired (gone : List α) (count : Nat)
  | cleared
  | got (v : Option α)

/-- The handle that an answer hands out. -/
def Reply.minted? : Reply α → Option Handle
  | .added h => h
  | _ => none

/-! ## Runs -/

section Runs

variable (f : σ → Nat → Call α → Reply α × σ)

/-- The answers to calls that are made one after the other, each at a reading of the clock. -/
def replies : σ → List (Nat × Call α) → List (Reply α)
  | _, [] => []
  | s, (now, call) :: rest => (f s now call).1 :: replies (f s now call).2 rest

/-- What calls leave that are made one after the other. -/
def after (s : σ) (calls : List (Nat × Call α)) : σ :=
  calls.foldl (fun s call => (f s call.1 call.2).2) s

/-- The handles that are handed out in a run, in order. -/
def minted (s : σ) (calls : List (Nat × Call α)) : List Handle :=
  (replies f s calls).filterMap Reply.minted?

theorem minted_cons (s : σ) (call : Nat × Call α) (rest : List (Nat × Call α)) :
    minted f s (call :: rest) =
      (f s call.1 call.2).1.minted?.toList ++ minted f (f s call.1 call.2).2 rest := by
  rw [minted, replies, List.filterMap_cons]
  cases (f s call.1 call.2).1.minted? <;> rfl

/-- Each call of a run is answered in the state that the calls before it left. -/
theorem getElem?_replies (s : σ) (calls : List (Nat × Call α)) (i : Nat) :
    (replies f s calls)[i]? =
      calls[i]?.map fun call => (f (after f s (calls.take i)) call.1 call.2).1 := by
  induction calls generalizing s i with
  | nil => rfl
  | cons call rest ih =>
      cases i with
      | zero => rfl
      | succ i => exact ih _ i

end Runs

/-- One call of a ring. -/
def step (r : RecencyRing α) (now : Nat) : Call α → Reply α × RecencyRing α
  | .add v =>
    let (h, r) := r.add now v
    (.added (some h), r)
  | .touch h =>
    let (found, r) := r.touch now h
    (.touched found, r)
  | .remove h =>
    let (v, r) := r.remove h
    (.removed v, r)
  | .expire =>
    let (gone, r) := r.expire now
    (.expired gone gone.length, r)
  | .clear => (.cleared, r.clear)
  | .get h => (.got (r.get? h), r)

variable {r : RecencyRing α} {l : List (Entry α)}

theorem step_expire (r : RecencyRing α) (now : Nat) :
    r.step now .expire =
      (.expired (r.expire now).1 (r.expire now).1.length, (r.expire now).2) :=
  rfl

@[simp]
theorem settings_step (r : RecencyRing α) (now : Nat) (call : Call α) :
    (r.step now call).2.settings = r.settings := by
  cases call with
  | add v => exact settings_add r now v
  | touch h => exact settings_touch r now h
  | remove h => exact settings_remove r h
  | expire => exact settings_expire r now
  | clear => rfl
  | get h => rfl

@[simp]
theorem settings_after (r : RecencyRing α) (calls : List (Nat × Call α)) :
    (after RecencyRing.step r calls).settings = r.settings := by
  induction calls generalizing r with
  | nil => rfl
  | cons call rest ih => exact (ih _).trans (settings_step r call.1 call.2)

/-- Every call leaves a ring linked, and its entries in the order of their touches if they were. -/
theorem Linked.step (h : r.Linked l) (now : Nat) (call : Call α) :
    ∃ l', (r.step now call).2.Linked l' ∧ (Recent now l → Recent now l') := by
  cases call with
  | add v =>
      obtain ⟨x, -, -, hlinked⟩ := h.add now v
      exact ⟨_, hlinked, fun hl => hl.cons x v⟩
  | touch hd =>
      by_cases howns : r.owns hd
      · obtain ⟨e, he, rfl⟩ := h.exists_of_owns howns
        exact ⟨_, (h.touch he now).2, fun hl => (hl.sublist List.filter_sublist).cons _ _⟩
      · rw [RecencyRing.step, touch_of_not_owns howns]
        exact ⟨l, h, fun hl => hl⟩
  | remove hd =>
      by_cases howns : r.owns hd
      · obtain ⟨e, he, rfl⟩ := h.exists_of_owns howns
        exact ⟨_, (h.remove he).2, fun hl => hl.sublist List.filter_sublist⟩
      · rw [RecencyRing.step, remove_of_not_owns howns]
        exact ⟨l, h, fun hl => hl⟩
  | expire =>
      exact ⟨_, (h.expire now).2, fun hl => hl.sublist (List.rdropWhile_prefix _ _).sublist⟩
  | clear => exact ⟨[], linked_clear r, fun _ => .nil now⟩
  | get hd => exact ⟨l, h, fun hl => hl⟩

/-! ## The handles of a run -/

/-- The handle that a call hands out is the ring's own and was not handed out before. -/
theorem Linked.fresh_of_minted? (h : r.Linked l) {now : Nat} {call : Call α} {hd : Handle}
    (hh : (r.step now call).1.minted? = some hd) : hd.ring = r.id ∧ ¬ r.arena.Issued hd.slot := by
  cases call with
  | add v =>
      obtain rfl : (r.add now v).1 = hd := Option.some.inj hh
      exact ⟨rfl, not_issued_fst_add h.arena now v⟩
  | _ => cases hh

/-- A call hands out what it answers, and nothing else. -/
theorem Linked.issued_step_iff (h : r.Linked l) (now : Nat) (call : Call α) (y : SlotId) :
    (r.step now call).2.arena.Issued y ↔
      (∃ hd, (r.step now call).1.minted? = some hd ∧ hd.slot = y) ∨ r.arena.Issued y := by
  cases call with
  | add v =>
      rw [RecencyRing.step]
      simpa [Reply.minted?, eq_comm] using issued_add_iff h.arena now v y
  | touch hd => simpa [RecencyRing.step, Reply.minted?] using issued_touch r now hd y
  | remove hd => simpa [RecencyRing.step, Reply.minted?] using issued_remove r hd y
  | expire => simpa [RecencyRing.step, Reply.minted?] using issued_expire r now y
  | clear => simpa [RecencyRing.step, Reply.minted?] using issued_clear r y
  | get hd => simp [RecencyRing.step, Reply.minted?]

/-- The handles of a run are handles of the ring that it had not handed out before. -/
theorem Linked.fresh_of_minted (h : r.Linked l) {calls : List (Nat × Call α)} {hd : Handle}
    (hh : hd ∈ minted RecencyRing.step r calls) : hd.ring = r.id ∧ ¬ r.arena.Issued hd.slot := by
  induction calls generalizing r l with
  | nil => simp [minted, replies] at hh
  | cons call rest ih =>
      rw [minted_cons, List.mem_append, Option.mem_toList] at hh
      rcases hh with hnow | hlater
      · exact h.fresh_of_minted? hnow
      · obtain ⟨l', hlinked, -⟩ := h.step call.1 call.2
        obtain ⟨hring, hfresh⟩ := ih hlinked hlater
        rw [h.issued_step_iff, not_or] at hfresh
        exact ⟨hring.trans (id_eq_of_settings (settings_step r _ _)), hfresh.2⟩

/-- Whatever is added in a run is answered with one of its handles. -/
theorem exists_minted_of_add (r : RecencyRing α) {calls : List (Nat × Call α)} {i now : Nat} {v : α}
    (hcall : calls[i]? = some (now, .add v)) : ∃ hd ∈ minted RecencyRing.step r calls,
      (replies RecencyRing.step r calls)[i]? = some (.added (some hd)) := by
  have hreply := getElem?_replies RecencyRing.step r calls i
  rw [hcall, Option.map_some] at hreply
  refine ⟨_, ?_, hreply⟩
  exact List.mem_filterMap.mpr ⟨_, List.mem_of_getElem? hreply, rfl⟩

/-- A ring hands out no handle twice. -/
theorem Linked.nodup_minted (h : r.Linked l) (calls : List (Nat × Call α)) :
    (minted RecencyRing.step r calls).Nodup := by
  induction calls generalizing r l with
  | nil => exact List.nodup_nil
  | cons call rest ih =>
      obtain ⟨l', hlinked, -⟩ := h.step call.1 call.2
      rw [minted_cons]
      cases hminted : (r.step call.1 call.2).1.minted? with
      | none => exact ih hlinked
      | some hd =>
          refine List.nodup_cons.mpr ⟨fun hagain => ?_, ih hlinked⟩
          apply (hlinked.fresh_of_minted hagain).2
          exact (h.issued_step_iff _ _ _).mpr (.inl ⟨hd, hminted, rfl⟩)

end TieredCache.RecencyRing
