import TieredCache.Proofs.Ring.Round
import TieredCache.Proofs.Ring.Run

/-!
# Surgery on the links of a recency ring

The links of a ring are changed by one write after the other. Here such a change stops between two writes
where a value or a link is missing, and what it has written by then stays; an operation goes on all the
same, unless it needs what the change answers. All attempts are noted down. In a run of a new ring none of
them stops half-way, so the operations do the same in single writes as with changes in one piece.
-/

namespace TieredCache.RecencyRing

variable {α β γ : Type} {r r' : RecencyRing α} {l : List (Entry α)} {x : SlotId}

/-! ## Changes in single writes -/

/-- A change of a ring in single writes. It stops where a value or a link is missing, and what it has
written by then stays. -/
def Surgery (α β : Type) :=
  RecencyRing α → Option β × RecencyRing α

namespace Surgery

instance : Monad (Surgery α) where
  pure b r := (some b, r)
  bind s f r :=
    match s r with
    | (some b, r) => f b r
    | (none, r) => (none, r)

/-- Reads a part of the ring, and stops where it is missing. -/
def read (f : RecencyRing α → Option β) : Surgery α β := fun r =>
  (f r, r)

/-- Writes over the value of an identity, and stops where there is none. -/
def write (x : SlotId) (f : Node α → Node α) : Surgery α Unit := fun r =>
  match r.arena.modify? x f with
  | some arena => (some (), { r with arena := arena })
  | none => (none, r)

/-- Makes an identity the head, or leaves no head. -/
def setHead (head : Option SlotId) : Surgery α Unit := fun r =>
  (some (), { r with head := head })

/-- Links an unlinked value in as the head. -/
def linkFront (x : SlotId) : Surgery α Unit := do
  match ← read fun r => some r.head with
  | none => write x ({ · with prev := some x, next := some x })
  | some head =>
    let first ← read (·.arena.get? head)
    let tail ← read fun _ => first.prev
    write x ({ · with prev := some tail, next := some head })
    write tail ({ · with next := some x })
    write head ({ · with prev := some x })
  setHead (some x)

/-- Joins the neighbours of a value, and then leaves it without links. -/
def unlink (x : SlotId) : Surgery α Unit := do
  let node ← read (·.arena.get? x)
  let prev ← read fun _ => node.prev
  let next ← read fun _ => node.next
  if next = x then
    setHead none
  else
    write prev ({ · with next := some next })
    write next ({ · with prev := some prev })
    if (← read fun r => some r.head) = some x then
      setHead (some next)
  write x ({ · with prev := none, next := none })

/-- Looks the least recently touched value up. -/
def tail : Surgery α SlotId := do
  let head ← read (·.head)
  let first ← read (·.arena.get? head)
  read fun _ => first.prev

/-! ## Changes that come to their end -/

/-- The ring that a change leaves if it comes to its end. -/
def result (s : Surgery α β) (r : RecencyRing α) : Option (RecencyRing α) :=
  (s r).1.map fun _ => (s r).2

@[simp]
theorem result_read_bind (f : RecencyRing α → Option β) (s : β → Surgery α γ)
    (r : RecencyRing α) : (read f >>= s).result r = (f r).bind fun b => (s b).result r := by
  cases hf : f r <;> simp [result, bind, read, hf]

@[simp]
theorem result_write (x : SlotId) (f : Node α → Node α) (r : RecencyRing α) :
    (write x f).result r = (r.arena.modify? x f).bind fun a => some { r with arena := a } := by
  cases hf : r.arena.modify? x f <;> simp [result, write, hf]

@[simp]
theorem result_write_bind (x : SlotId) (f : Node α → Node α) (s : Unit → Surgery α γ)
    (r : RecencyRing α) : (write x f >>= s).result r =
      (r.arena.modify? x f).bind fun a => (s ()).result { r with arena := a } := by
  cases hf : r.arena.modify? x f <;> simp [result, bind, write, hf]

@[simp]
theorem result_setHead (head : Option SlotId) (r : RecencyRing α) :
    (setHead head).result r = some { r with head := head } :=
  rfl

@[simp]
theorem result_setHead_bind (head : Option SlotId) (s : Unit → Surgery α γ) (r : RecencyRing α) :
    (setHead head >>= s).result r = (s ()).result { r with head := head } :=
  rfl

@[simp]
theorem result_ite (p : Prop) [Decidable p] (s t : Surgery α β) (r : RecencyRing α) :
    (if p then s else t).result r = if p then s.result r else t.result r :=
  apply_ite (fun s : Surgery α β => s.result r) p s t

/-- Linking in one piece is linking write by write, with what a half-way stop leaves dropped. -/
theorem result_linkFront (r : RecencyRing α) (x : SlotId) : (linkFront x).result r = r.linkFront? x := by
  rw [linkFront?]
  cases hhead : r.head with
  | none => simp [linkFront, hhead]
  | some head => simp [linkFront, hhead]

/-- Unlinking in one piece is unlinking write by write, with what a half-way stop leaves dropped. -/
theorem result_unlink (r : RecencyRing α) (x : SlotId) : (unlink x).result r = r.unlink? x := by
  simp only [unlink, unlink?, result_read_bind, result_ite, result_write_bind, result_setHead_bind,
    result_write, Option.bind_some, Option.bind_eq_bind]
  refine Option.bind_congr fun node _ => Option.bind_congr fun prev _ =>
    Option.bind_congr fun next _ => ?_
  split
  next => rfl
  next =>
    refine Option.bind_congr fun a _ => Option.bind_congr fun b _ => ?_
    by_cases hhead : r.head = some x
    · simp only [hhead, if_true]
    · simp only [hhead, if_false]

/-- Where the less recent neighbour is gone, unlinking stops half-way: the more recent one leads there
already, and the value itself is still linked to both. -/
theorem unlink_of_missing {p n : SlotId} (hp : prevOf r.arena x = some p) (hn : nextOf r.arena x = some n)
    (hpx : p ≠ x) (hpayload : (payload r.arena p).isSome) (hmissing : r.arena.get? n = none) :
    ∃ a, unlink x r = (none, { r with arena := a }) ∧ nextOf a p = some n ∧
      prevOf a x = some p ∧ nextOf a x = some n := by
  obtain ⟨node, hnode, hprev⟩ := Option.bind_eq_some_iff.mp hp
  have hnext : node.next = some n := by simpa [nextOf, hnode] using hn
  have hnx : n ≠ x := by
    rintro rfl
    cases hmissing.symm.trans hnode
  obtain ⟨a, ha, w, next, prev⟩ := modify?_links hpayload (fun _ => some n) fun prev => prev
  have hstop : a.modify? n ({ · with prev := some p }) = none := by
    have hgone : payload a n = none := by rw [w.payload_eq, payload, hmissing, Option.map_none]
    rw [payload, Option.map_eq_none_iff] at hgone
    simp [Arena.modify?, Arena.contains, hgone]
  refine ⟨a, ?_, by simp [next], by simp [prev, hp], by simp [next, hpx.symm, hn]⟩
  simp [unlink, bind, read, write, hnode, hprev, hnext, hnx, ha, hstop]

theorem eq_of_result {s : Surgery α Unit} (h : s.result r = some r') : s r = (some (), r') := by
  obtain ⟨done, hdone, rfl⟩ := Option.map_eq_some_iff.mp h
  exact Prod.ext hdone rfl

theorem tail_eq (r : RecencyRing α) : tail r = (r.tail?, r) := by
  rw [tail?]
  cases hhead : r.head with
  | none => simp [tail, bind, read, hhead]
  | some head =>
      cases hfirst : r.arena.get? head with
      | none => simp [tail, bind, read, hhead, hfirst]
      | some first => simp [tail, bind, read, hhead, hfirst]

end Surgery

/-! ## Operations with their attempts -/

/-- What is done about the links: a change of them, or a look for the least recently touched value. -/
inductive Job where
  | linkFront
  | unlink
  | tail

/-- An attempt at a job, on a ring without or with values, that came to its end or stopped before. -/
structure Attempt where
  job : Job
  onEmpty : Bool
  finished : Bool

/-- Nothing stopped, but that there is no least recently touched value in a ring without values. -/
def Attempt.Sound (t : Attempt) : Prop :=
  t.finished = true ∨ t.job = .tail ∧ t.onEmpty = true

/-- What an operation answers and leaves, with its attempts in order. -/
structure Watched (α β : Type) where
  value : β
  ring : RecencyRing α
  attempts : List Attempt

namespace Watched

/-- One attempt. -/
def attempt (job : Job) (s : Surgery α β) (r : RecencyRing α) : Watched α (Option β) :=
  ⟨(s r).1, (s r).2, [⟨job, r.isEmpty, (s r).1.isSome⟩]⟩

/-- Adds a value at the head, touched now. -/
def add (r : RecencyRing α) (now : Nat) (v : α) : Watched α Handle :=
  let (slot, arena) := r.arena.insert ⟨v, now, none, none⟩
  let linked := attempt .linkFront (.linkFront slot) { r with arena := arena }
  ⟨⟨r.id, slot⟩, linked.ring, linked.attempts⟩

/-- Touches the value of a handle now and makes it the head. -/
def touch (r : RecencyRing α) (now : Nat) (h : Handle) : Watched α Bool :=
  if r.owns h then
    let arena := (r.arena.modify? h.slot ({ · with touched := now })).getD r.arena
    let r := { r with arena := arena }
    if r.head = some h.slot then ⟨true, r, []⟩
    else
      let unlinked := attempt .unlink (.unlink h.slot) r
      let linked := attempt .linkFront (.linkFront h.slot) unlinked.ring
      ⟨true, linked.ring, unlinked.attempts ++ linked.attempts⟩
  else ⟨false, r, []⟩

/-- Takes the value at an identity out of the arena, linked or not. -/
def free (r : RecencyRing α) (slot : SlotId) : Option α × RecencyRing α :=
  ((r.arena.remove slot).1.map (·.value), { r with arena := (r.arena.remove slot).2 })

/-- Takes the value of a handle out of the ring; it stays where it could not be unlinked. -/
def remove (r : RecencyRing α) (h : Handle) : Watched α (Option α) :=
  if r.owns h then
    let unlinked := attempt .unlink (.unlink h.slot) r
    match unlinked.value with
    | none => ⟨none, unlinked.ring, unlinked.attempts⟩
    | some () => ⟨(free unlinked.ring h.slot).1, (free unlinked.ring h.slot).2, unlinked.attempts⟩
  else ⟨none, r, []⟩

/-- Takes stale values off at the tail, unlinked or not, in at most `n` turns. To be cut short after these
counts as a look for the tail that stopped. -/
def sweep (now : Nat) : Nat → RecencyRing α → Watched α (List α)
  | 0, r => ⟨[], r, [⟨.tail, r.isEmpty, false⟩]⟩
  | n + 1, r =>
    let look := attempt .tail .tail r
    match look.value with
    | none => ⟨[], look.ring, look.attempts⟩
    | some tail =>
      if look.ring.isStale now tail then
        let unlinked := attempt .unlink (.unlink tail) look.ring
        let (gone, r) := free unlinked.ring tail
        let others := sweep now n r
        ⟨gone.toList ++ others.value, others.ring,
          look.attempts ++ unlinked.attempts ++ others.attempts⟩
      else ⟨[], look.ring, look.attempts⟩

/-- One call of a ring. -/
def step (r : RecencyRing α) (now : Nat) : Call α → Watched α (Reply α)
  | .add v =>
    let added := add r now v
    ⟨.added (some added.value), added.ring, added.attempts⟩
  | .touch h =>
    let touched := touch r now h
    ⟨.touched touched.value, touched.ring, touched.attempts⟩
  | .remove h =>
    let removed := remove r h
    ⟨.removed removed.value, removed.ring, removed.attempts⟩
  | .expire =>
    let expired := sweep now r.size r
    ⟨.expired expired.value expired.value.length, expired.ring, expired.attempts⟩
  | .clear => ⟨.cleared, r.clear, []⟩
  | .get h => ⟨.got (r.get? h), r, []⟩

/-- The operation answers and leaves what is expected, and none of its attempts stopped. -/
structure Agrees (w : Watched α β) (expected : β × RecencyRing α) : Prop where
  value_eq : w.value = expected.1
  ring_eq : w.ring = expected.2
  sound : ∀ t ∈ w.attempts, t.Sound

theorem Agrees.map {w : Watched α β} {expected : β × RecencyRing α} (h : w.Agrees expected)
    (f : β → γ) :
    (⟨f w.value, w.ring, w.attempts⟩ : Watched α γ).Agrees (f expected.1, expected.2) where
  value_eq := congrArg f h.value_eq
  ring_eq := h.ring_eq
  sound := h.sound

theorem agrees_of_no_attempt (b : β) (r : RecencyRing α) :
    (⟨b, r, []⟩ : Watched α β).Agrees (b, r) where
  value_eq := rfl
  ring_eq := rfl
  sound := by simp

theorem attempt_linkFront (h : r.linkFront? x = some r') :
    attempt .linkFront (.linkFront x) r = ⟨some (), r', [⟨.linkFront, r.isEmpty, true⟩]⟩ := by
  rw [attempt, Surgery.eq_of_result ((Surgery.result_linkFront r x).trans h)]
  rfl

theorem attempt_unlink (h : r.unlink? x = some r') :
    attempt .unlink (.unlink x) r = ⟨some (), r', [⟨.unlink, r.isEmpty, true⟩]⟩ := by
  rw [attempt, Surgery.eq_of_result ((Surgery.result_unlink r x).trans h)]
  rfl

theorem attempt_tail (r : RecencyRing α) :
    attempt .tail .tail r = ⟨r.tail?, r, [⟨.tail, r.isEmpty, r.tail?.isSome⟩]⟩ := by
  rw [attempt, Surgery.tail_eq]

end Watched

open Watched

/-! ## What is linked is never found broken -/

theorem Linked.isEmpty_eq (h : r.Linked l) : r.isEmpty = l.isEmpty := by
  rw [isEmpty, Arena.isEmpty, h.size]
  cases l <;> rfl

/-- A new value is linked in. -/
theorem Linked.watched_add (h : r.Linked l) (now : Nat) (v : α) :
    (Watched.add r now v).Agrees (r.add now v) := by
  obtain ⟨r', hr', -⟩ := h.linkFront?_insert now v
  rw [Watched.add, RecencyRing.add]
  dsimp only
  rw [attempt_linkFront hr', hr', Option.getD_some]
  exact ⟨rfl, rfl, by simp [Attempt.Sound]⟩

/-- A touched value that is not the head is unlinked and linked in again. -/
theorem Linked.watched_touch (h : r.Linked l) (now : Nat) (hd : Handle) :
    (Watched.touch r now hd).Agrees (r.touch now hd) := by
  by_cases howns : r.owns hd
  · obtain ⟨e, he, rfl⟩ := h.exists_of_owns howns
    obtain ⟨before, after, rfl⟩ := List.append_of_mem he
    obtain ⟨a, ha, hlinked⟩ := h.restamp now
    obtain ⟨r₁, r₂, hr₁, hr₂, -⟩ := hlinked.linkFront?_unlink?
    rw [Watched.touch, RecencyRing.touch, if_pos howns, if_pos howns]
    dsimp only
    rw [ha, Option.getD_some, RecencyRing.moveToFront, attempt_unlink hr₁, attempt_linkFront hr₂, hr₁,
      Option.getD_some, hr₂, Option.getD_some]
    split
    next => exact agrees_of_no_attempt true _
    next => exact ⟨rfl, rfl, by simp [Attempt.Sound]⟩
  · rw [Watched.touch, if_neg howns, touch_of_not_owns howns]
    exact agrees_of_no_attempt false r

/-- What is unlinked is freed, and nothing else is. -/
theorem detach_of_unlink? (h : r.unlink? x = some r') : r.detach x = free r' x := by
  rw [detach, h]
  rfl

theorem Linked.watched_remove (h : r.Linked l) (hd : Handle) :
    (Watched.remove r hd).Agrees (r.remove hd) := by
  by_cases howns : r.owns hd
  · obtain ⟨e, he, rfl⟩ := h.exists_of_owns howns
    obtain ⟨before, after, rfl⟩ := List.append_of_mem he
    obtain ⟨r₁, hr₁, -⟩ := h.unlink?
    rw [Watched.remove, RecencyRing.remove, if_pos howns, if_pos howns, detach_of_unlink? hr₁,
      attempt_unlink hr₁]
    exact ⟨rfl, rfl, by simp [Attempt.Sound]⟩
  · rw [Watched.remove, if_neg howns, remove_of_not_owns howns]
    exact agrees_of_no_attempt none r

/-- With a turn for every value, a sweep ends at a value that is not stale, or at the empty ring. -/
theorem Linked.watched_sweep (h : r.Linked l) (now : Nat) {n : Nat} (hn : l.length ≤ n) :
    (Watched.sweep now n r).Agrees (RecencyRing.sweep now n r) := by
  induction n generalizing r l with
  | zero =>
      -- Without a turn left there is no value left either, and being cut short is what a look would find.
      obtain rfl := List.length_eq_zero_iff.mp (Nat.le_zero.mp hn)
      exact ⟨rfl, rfl, by simp [Watched.sweep, Attempt.Sound, h.isEmpty_eq]⟩
  | succ n ih =>
      rw [Watched.sweep, RecencyRing.sweep, attempt_tail]
      dsimp only
      rcases List.eq_nil_or_concat' l with rfl | ⟨before, e, rfl⟩
      · have htail : r.tail? = none := h.tail?_eq
        rw [htail]
        exact ⟨rfl, rfl, by simp [Attempt.Sound, h.isEmpty_eq]⟩
      · have htail : r.tail? = some e.slot := by simp [h.tail?_eq]
        obtain ⟨r₁, hr₁, -⟩ := h.unlink?
        have hrest := h.detach.2
        rw [List.append_nil, detach_of_unlink? hr₁] at hrest
        have hagrees := ih hrest (by simpa using hn)
        rw [htail]
        dsimp only
        rw [attempt_unlink hr₁, detach_of_unlink? hr₁]
        split
        next =>
          refine ⟨congrArg _ hagrees.value_eq, hagrees.ring_eq, fun t ht => ?_⟩
          simp only [List.mem_append, List.mem_singleton] at ht
          rcases ht with (rfl | rfl) | ht
          · exact .inl rfl
          · exact .inl rfl
          · exact hagrees.sound t ht
        next => exact ⟨rfl, rfl, by simp [Attempt.Sound]⟩

theorem Linked.watched_step (h : r.Linked l) (now : Nat) (call : Call α) :
    (Watched.step r now call).Agrees (r.step now call) := by
  cases call with
  | add v => exact (h.watched_add now v).map fun hd => Reply.added (some hd)
  | touch hd => exact (h.watched_touch now hd).map Reply.touched
  | remove hd => exact (h.watched_remove hd).map Reply.removed
  | expire => exact (h.watched_sweep now h.size.ge).map fun gone => Reply.expired gone gone.length
  | clear => exact agrees_of_no_attempt Reply.cleared r.clear
  | get hd => exact agrees_of_no_attempt (Reply.got (r.get? hd)) r

/-! ## Runs -/

/-- A call of a ring, with its attempts noted down after those of the calls before it. -/
def watch (s : RecencyRing α × List Attempt) (now : Nat) (call : Call α) :
    Reply α × RecencyRing α × List Attempt :=
  let w := Watched.step s.1 now call
  (w.value, w.ring, s.2 ++ w.attempts)

theorem Linked.watched_run (h : r.Linked l) {attempts : List Attempt}
    (hattempts : ∀ t ∈ attempts, t.Sound) (calls : List (Nat × Call α)) :
    replies watch (r, attempts) calls = replies RecencyRing.step r calls ∧
      (after watch (r, attempts) calls).1 = after RecencyRing.step r calls ∧
      (∀ t ∈ (after watch (r, attempts) calls).2, t.Sound) ∧
      (after RecencyRing.step r calls).Round := by
  induction calls generalizing r l attempts with
  | nil => exact ⟨rfl, rfl, hattempts, h.round⟩
  | cons call rest ih =>
      have hagrees := h.watched_step call.1 call.2
      obtain ⟨l', hlinked, -⟩ := h.step call.1 call.2
      have hsound : ∀ t ∈ attempts ++ (Watched.step r call.1 call.2).attempts, t.Sound := fun t ht =>
        (List.mem_append.mp ht).elim (hattempts t) (hagrees.sound t)
      have hwatch : watch (r, attempts) call.1 call.2 =
          ((r.step call.1 call.2).1, (r.step call.1 call.2).2,
            attempts ++ (Watched.step r call.1 call.2).attempts) := by
        rw [watch, hagrees.value_eq, hagrees.ring_eq]
      have hrest := ih hlinked hsound
      rw [replies, replies, after, after, List.foldl_cons, List.foldl_cons, hwatch]
      exact ⟨congrArg _ hrest.1, hrest.2⟩

/-- In every run of a new ring, with whatever handles and readings of the clock, no attempt at a change of
the links stops, and no look for the least recently touched value unless there is none. So the run leaves
and answers the same write by write as in one piece, and at each time the links lead from the head through
all values, each one once, and back. -/
theorem surgery_never_stops (id : Nat) (ttl : Duration) (calls : List (Nat × Call α)) :
    let start : RecencyRing α := .empty id ttl
    let (ring, attempts) := after watch (start, []) calls
    replies watch (start, []) calls = replies RecencyRing.step start calls ∧
      ring = after RecencyRing.step start calls ∧
      (∀ t ∈ attempts, t.finished = true ∨ t.job = .tail ∧ t.onEmpty = true) ∧ ring.Round := by
  intro start
  have hnone : ∀ t ∈ ([] : List Attempt), t.Sound := by simp
  obtain ⟨hreplies, hring, hattempts, hround⟩ := (linked_empty id ttl).watched_run hnone calls
  exact ⟨hreplies, hring, hattempts, hring ▸ hround⟩

end TieredCache.RecencyRing
