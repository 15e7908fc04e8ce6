import Mathlib.Data.List.DropRight
import Mathlib.Data.List.Perm.Basic
import Mathlib.Logic.Function.Basic
import TieredCache.Proofs.Ring.Links

/-!
# What the operations of a recency ring do to its list

A ring that shows a list shows after every operation what the operation does to the list: adding
puts an entry in front, touching moves one there, removing takes one out. Handles of other rings
and handles whose value has left change nothing.
-/

namespace TieredCache.RecencyRing

variable {α : Type} {r : RecencyRing α} {l before after : List (Entry α)} {e : Entry α}

/-! ## Values by identity -/

/-- The list has exactly the entries of a table of values and times. -/
def Lists (table : SlotId → Option (α × Nat)) (l : List (Entry α)) : Prop :=
  ∀ e, e ∈ l ↔ table e.slot = some (e.value, e.touched)

theorem Lists.perm {table : SlotId → Option (α × Nat)} {l' : List (Entry α)}
    (h : Lists table l) (hl : l.Perm l') : Lists table l' := fun e => by
  rw [← hl.mem_iff, h e]

theorem Lists.eq_none_iff {table : SlotId → Option (α × Nat)} (h : Lists table l) {x : SlotId} :
    table x = none ↔ x ∉ l.map (·.slot) := by
  rw [List.mem_map, ← Option.not_isSome_iff_eq_none, not_iff_not]
  constructor
  · intro hx
    obtain ⟨⟨v, t⟩, hp⟩ := Option.isSome_iff_exists.mp hx
    exact ⟨⟨x, v, t⟩, (h _).mpr hp, rfl⟩
  · rintro ⟨e, he, rfl⟩
    rw [(h e).mp he]
    rfl

theorem Lists.cons {table : SlotId → Option (α × Nat)} (h : Lists table l) {x : SlotId}
    (hx : table x = none) (v : α) (t : Nat) :
    Lists (Function.update table x (some (v, t))) (⟨x, v, t⟩ :: l) := by
  rintro ⟨y, w, u⟩
  rw [List.mem_cons, h]
  by_cases hy : y = x
  · subst hy
    simp [hx, eq_comm]
  · simp [hy]

/-- The first entry is taken away. -/
theorem Lists.tail {table : SlotId → Option (α × Nat)} (h : Lists table (e :: l))
    (he : e.slot ∉ l.map (·.slot)) : Lists (Function.update table e.slot none) l := by
  intro e'
  by_cases hy : e'.slot = e.slot
  · have hl : e' ∉ l := fun hl => he (hy ▸ List.mem_map_of_mem hl)
    simp [hy, hl]
  · have hne : e' ≠ e := fun hne => hy (congrArg Entry.slot hne)
    simpa [hy, hne] using h e'

/-- A new value and time for one entry, wherever it stands in the list. -/
theorem Lists.restamp {table : SlotId → Option (α × Nat)} (h : Lists table (before ++ e :: after))
    (hnodup : ((before ++ e :: after).map (·.slot)).Nodup) (v : α) (t : Nat) :
    Lists (Function.update table e.slot (some (v, t))) (before ++ ⟨e.slot, v, t⟩ :: after) := by
  rw [List.map_append, List.map_cons] at hnodup
  have hnot := (List.nodup_cons.mp (List.nodup_middle.mp hnodup)).1
  have htail := (h.perm List.perm_middle).tail (by simpa using hnot)
  have hcons := htail.cons (Function.update_self e.slot none table) v t
  rw [Function.update_idem] at hcons
  exact hcons.perm List.perm_middle.symm

/-! ## Links by identity -/

/-- Only the head and the links of the listed identities decide how a ring is strung. -/
theorem Strung.congr {r' : RecencyRing α} {slots : List SlotId} (h : r.Strung slots)
    (hhead : r'.head = r.head)
    (hlinks : ∀ y ∈ slots, nextOf r'.arena y = nextOf r.arena y ∧
      prevOf r'.arena y = prevOf r.arena y) : r'.Strung slots := by
  have joined {a b : SlotId} (ha : a ∈ slots) (hb : b ∈ slots)
      (hab : Joined (nextOf r.arena) (prevOf r.arena) a b) :
      Joined (nextOf r'.arena) (prevOf r'.arena) a b := by
    rw [Joined, (hlinks a ha).1, (hlinks b hb).2]
    exact hab
  refine ⟨h.nodup, hhead.trans h.head, ?_, fun z hz y hy => ?_⟩
  · exact h.closed.chain.imp_of_mem_imp fun a b ha hb hab => joined ha hb hab
  · exact joined (List.mem_of_mem_getLast? hz) (List.mem_of_mem_head? hy)
      (h.closed.wrap z hz y hy)

/-! ## Name and time to live -/

/-- What no operation changes: the name of a ring and its time to live. -/
def settings (r : RecencyRing α) : Nat × Duration :=
  (r.id, r.ttl)

theorem settings_of_linkFront? {r' : RecencyRing α} {x : SlotId} (h : r.linkFront? x = some r') :
    r'.settings = r.settings := by
  unfold linkFront? at h
  split at h
  all_goals
    simp only [Option.bind_eq_bind, Option.bind_eq_some_iff, Option.some.injEq] at h
  · obtain ⟨_, _, rfl⟩ := h
    rfl
  · obtain ⟨_, _, _, _, _, _, _, _, _, _, rfl⟩ := h
    rfl

theorem settings_of_unlink? {r' : RecencyRing α} {x : SlotId} (h : r.unlink? x = some r') :
    r'.settings = r.settings := by
  simp only [unlink?, Option.bind_eq_bind, Option.bind_eq_some_iff] at h
  obtain ⟨_, _, _, _, _, _, h⟩ := h
  split at h
  all_goals
    simp only [Option.bind_eq_some_iff, Option.some.injEq] at h
  · obtain ⟨_, _, rfl⟩ := h
    rfl
  · obtain ⟨_, _, _, _, _, _, rfl⟩ := h
    rfl

@[simp]
theorem settings_add (r : RecencyRing α) (now : Nat) (v : α) :
    (r.add now v).2.settings = r.settings := by
  simp only [add]
  cases h : linkFront? _ _ with
  | none => rfl
  | some r' => exact (settings_of_linkFront? h :)

@[simp]
theorem settings_moveToFront (r : RecencyRing α) (x : SlotId) :
    (r.moveToFront x).settings = r.settings := by
  have hunlink : ((r.unlink? x).getD r).settings = r.settings := by
    cases h : r.unlink? x with
    | none => rfl
    | some r' => exact settings_of_unlink? h
  rw [moveToFront]
  cases h : linkFront? _ x with
  | none => exact hunlink
  | some r' => exact (settings_of_linkFront? h).trans hunlink

@[simp]
theorem settings_touch (r : RecencyRing α) (now : Nat) (h : Handle) :
    (r.touch now h).2.settings = r.settings := by
  unfold touch
  split
  · dsimp only
    split
    · rfl
    · exact settings_moveToFront _ _
  · rfl

@[simp]
theorem settings_detach (r : RecencyRing α) (x : SlotId) :
    (r.detach x).2.settings = r.settings := by
  unfold detach
  split
  · rfl
  · next h => exact (settings_of_unlink? h :)

@[simp]
theorem settings_remove (r : RecencyRing α) (h : Handle) :
    (r.remove h).2.settings = r.settings := by
  unfold remove
  split
  · exact settings_detach r h.slot
  · rfl

theorem settings_sweep (now n : Nat) (r : RecencyRing α) :
    (sweep now n r).2.settings = r.settings := by
  induction n generalizing r with
  | zero => rfl
  | succ n ih =>
      unfold sweep
      split
      · rfl
      · split
        · exact (ih _).trans (settings_detach r _)
        · rfl

@[simp]
theorem settings_expire (r : RecencyRing α) (now : Nat) :
    (r.expire now).2.settings = r.settings :=
  settings_sweep now r.size r

/-! ## One value comes, moves or goes -/

theorem Linked.nodup (h : r.Linked l) : (l.map (·.slot)).Nodup :=
  h.strung.nodup

/-- The values that a ring holds are those of its list. -/
theorem Linked.lists (h : r.Linked l) : Lists (payload r.arena) l :=
  h.mem_iff

/-- An inserted value has an identity that is new to the list, and can be linked in front of it. -/
theorem Linked.linkFront?_insert (h : r.Linked l) (now : Nat) (v : α) :
    let x := (r.arena.insert ⟨v, now, none, none⟩).1
    ∃ r', RecencyRing.linkFront? { r with arena := (r.arena.insert ⟨v, now, none, none⟩).2 } x =
        some r' ∧ x ∉ l.map (·.slot) ∧ r'.Linked (⟨x, v, now⟩ :: l) := by
  let node : Node α := ⟨v, now, none, none⟩
  intro x
  let r₁ : RecencyRing α := { r with arena := (r.arena.insert node).2 }
  have hget (y : SlotId) : r₁.arena.get? y = if y = x then some node else r.arena.get? y :=
    Arena.get?_insert h.arena node y
  have hfresh : payload r.arena x = none := by
    simp [payload, x, Arena.get?_fst_insert h.arena]
  have hx : x ∉ l.map (·.slot) := h.lists.eq_none_iff.mp hfresh
  have htable : payload r₁.arena = Function.update (payload r.arena) x (some (v, now)) := by
    funext y
    by_cases hy : y = x <;> simp [payload, hget, hy, node]
  have hstrung : r₁.Strung (l.map (·.slot)) := by
    refine h.strung.congr rfl fun y hy => ?_
    have hyx : y ≠ x := fun hyx => hx (hyx ▸ hy)
    simp [nextOf, prevOf, hget, hyx]
  obtain ⟨r', hr', -, -, w, hstrung'⟩ := hstrung.linkFront hx (by simp [htable])
  refine ⟨r', hr', hx, w.wellFormed (h.arena.insert node), ?_, ?_, hstrung'⟩
  · rw [w.size_eq, List.length_cons, ← h.size]
    exact Arena.size_insert r.arena node
  · rw [w.payload_eq, htable]
    exact h.lists.cons hfresh v now

/-- Adding answers a handle of the ring for an identity that is new to the list, and puts the value
in front. -/
theorem Linked.add (h : r.Linked l) (now : Nat) (v : α) :
    ∃ x, (r.add now v).1 = ⟨r.id, x⟩ ∧ x ∉ l.map (·.slot) ∧
      (r.add now v).2.Linked (⟨x, v, now⟩ :: l) := by
  obtain ⟨r', hr', hx, hlinked⟩ := h.linkFront?_insert now v
  refine ⟨_, rfl, hx, ?_⟩
  rw [RecencyRing.add]
  dsimp only
  rw [hr']
  exact hlinked

/-- The value of an entry can be taken out of the links. -/
theorem Linked.unlink? (h : r.Linked (before ++ e :: after)) :
    ∃ r', r.unlink? e.slot = some r' ∧ Rewired r.arena r'.arena ∧
      r'.Strung ((before ++ after).map (·.slot)) := by
  have hstrung := h.strung
  rw [List.map_append, List.map_cons] at hstrung
  obtain ⟨r', hr', -, -, w, hstrung'⟩ := hstrung.unlink
  exact ⟨r', hr', w, by rwa [List.map_append]⟩

theorem Linked.not_mem_rest (h : r.Linked (before ++ e :: after)) :
    e.slot ∉ (before ++ after).map (·.slot) := by
  have hnodup := h.nodup
  rw [List.map_append, List.map_cons] at hnodup
  rw [List.map_append]
  exact (List.nodup_cons.mp (List.nodup_middle.mp hnodup)).1

/-- Detaching takes a value out and answers it. -/
theorem Linked.detach (h : r.Linked (before ++ e :: after)) :
    (r.detach e.slot).1 = some e.value ∧ (r.detach e.slot).2.Linked (before ++ after) := by
  obtain ⟨r₁, hr₁, w, hstrung₁⟩ := h.unlink?
  have hnot := h.not_mem_rest
  have hpayload : payload r₁.arena e.slot = some (e.value, e.touched) := by
    rw [w.payload_eq]
    exact (h.lists e).mp (by simp)
  obtain ⟨n₁, hn₁, hvalue₁, -⟩ := payload_eq_some_iff.mp hpayload
  have hdetach : r.detach e.slot =
      (some e.value, { r₁ with arena := (r₁.arena.remove e.slot).2 }) := by
    simp [RecencyRing.detach, hr₁, Arena.fst_remove, hn₁, hvalue₁]
  have htable : payload (r₁.arena.remove e.slot).2 =
      Function.update (payload r.arena) e.slot none := by
    funext y
    rw [← w.payload_eq]
    by_cases hy : y = e.slot <;> simp [payload, Arena.get?_remove, hy]
  rw [hdetach]
  refine ⟨rfl, (w.wellFormed h.arena).remove e.slot, ?_, ?_, ?_⟩
  · have hsize := h.size
    simp only [List.length_append, List.length_cons] at hsize ⊢
    rw [Arena.size_remove hn₁, w.size_eq]
    omega
  · rw [htable]
    exact (h.lists.perm List.perm_middle).tail hnot
  · refine hstrung₁.congr rfl fun y hy => ?_
    have hyx : y ≠ e.slot := fun hyx => hnot (hyx ▸ hy)
    simp [nextOf, prevOf, Arena.get?_remove, hyx]

/-- The value of an entry can be taken out of the links and linked again in front of the others. -/
theorem Linked.linkFront?_unlink? (h : r.Linked (before ++ e :: after)) :
    ∃ r₁ r₂, r.unlink? e.slot = some r₁ ∧ r₁.linkFront? e.slot = some r₂ ∧
      r₂.Linked (e :: (before ++ after)) := by
  obtain ⟨r₁, hr₁, w₁, hstrung₁⟩ := h.unlink?
  have hpayload : (payload r₁.arena e.slot).isSome := by
    rw [w₁.payload_eq, (h.lists e).mp (by simp)]
    rfl
  obtain ⟨r₂, hr₂, -, -, w₂, hstrung₂⟩ := hstrung₁.linkFront h.not_mem_rest hpayload
  have w := w₁.trans w₂
  refine ⟨r₁, r₂, hr₁, hr₂, w.wellFormed h.arena, ?_, ?_, hstrung₂⟩
  · rw [w.size_eq, h.size]
    exact List.perm_middle.length_eq
  · rw [w.payload_eq]
    exact h.lists.perm List.perm_middle

/-- Moving a linked value to the front leaves the order of the others alone. -/
theorem Linked.moveToFront (h : r.Linked (before ++ e :: after)) :
    (r.moveToFront e.slot).Linked (e :: (before ++ after)) := by
  obtain ⟨r₁, r₂, hr₁, hr₂, hlinked⟩ := h.linkFront?_unlink?
  rw [RecencyRing.moveToFront, hr₁, Option.getD_some, hr₂, Option.getD_some]
  exact hlinked

/-! ## Operations by handle -/

/-- The entries of the other identities. -/
def without (l : List (Entry α)) (x : SlotId) : List (Entry α) :=
  l.filter fun e => e.slot ≠ x

theorem mem_without {x : SlotId} : e ∈ without l x ↔ e ∈ l ∧ e.slot ≠ x := by
  simp [without]

theorem without_append_cons (h : ((before ++ e :: after).map (·.slot)).Nodup) :
    without (before ++ e :: after) e.slot = before ++ after := by
  rw [List.map_append, List.map_cons] at h
  have hnot := (List.nodup_cons.mp (List.nodup_middle.mp h)).1
  rw [List.mem_append, List.mem_map, List.mem_map, not_or] at hnot
  rw [without, List.filter_append, List.filter_cons_of_neg (by simp)]
  congr 1 <;> refine List.filter_eq_self.mpr fun e' he' => ?_
  · simpa using fun hslot => hnot.1 ⟨e', he', hslot⟩
  · simpa using fun hslot => hnot.2 ⟨e', he', hslot⟩

theorem Linked.get?_eq_some_iff (h : r.Linked l) {hd : Handle} {v : α} :
    r.get? hd = some v ↔ hd.ring = r.id ∧ ∃ e ∈ l, e.slot = hd.slot ∧ e.value = v := by
  have hslot : (r.arena.get? hd.slot).map (·.value) = some v ↔
      ∃ e ∈ l, e.slot = hd.slot ∧ e.value = v := by
    rw [Option.map_eq_some_iff]
    constructor
    · rintro ⟨n, hn, rfl⟩
      exact ⟨⟨hd.slot, n.value, n.touched⟩, (h.lists _).mpr (by simp [payload, hn]), rfl, rfl⟩
    · rintro ⟨e, he, hs, rfl⟩
      obtain ⟨n, hn, hv, -⟩ := payload_eq_some_iff.mp ((h.lists e).mp he)
      exact ⟨n, hs ▸ hn, hv⟩
  rw [← hslot, get?]
  by_cases hid : hd.ring = r.id <;> simp [hid]

theorem Linked.get?_of_mem (h : r.Linked l) (he : e ∈ l) : r.get? ⟨r.id, e.slot⟩ = some e.value :=
  h.get?_eq_some_iff.mpr ⟨rfl, e, he, rfl, rfl⟩

theorem Linked.contains_iff (h : r.Linked l) {x : SlotId} :
    r.arena.contains x ↔ x ∈ l.map (·.slot) := by
  rw [← not_iff_not, ← h.lists.eq_none_iff, payload, Option.map_eq_none_iff, Arena.contains]
  simp

theorem Linked.owns_iff (h : r.Linked l) {hd : Handle} :
    r.owns hd ↔ hd.ring = r.id ∧ hd.slot ∈ l.map (·.slot) := by
  rw [owns, Bool.and_eq_true, beq_iff_eq, h.contains_iff]

theorem Linked.exists_of_owns (h : r.Linked l) {hd : Handle} (howns : r.owns hd) :
    ∃ e ∈ l, hd = ⟨r.id, e.slot⟩ := by
  obtain ⟨hring, hslot⟩ := h.owns_iff.mp howns
  obtain ⟨e, he, hslot⟩ := List.mem_map.mp hslot
  refine ⟨e, he, ?_⟩
  rw [hslot, ← hring]

theorem touch_of_not_owns {hd : Handle} (h : ¬ r.owns hd) (now : Nat) :
    r.touch now hd = (false, r) :=
  if_neg h

theorem remove_of_not_owns {hd : Handle} (h : ¬ r.owns hd) : r.remove hd = (none, r) :=
  if_neg h

theorem get?_of_not_owns {hd : Handle} (h : ¬ r.owns hd) : r.get? hd = none := by
  rw [get?]
  split
  next hid =>
    have hnone : r.arena.get? hd.slot = none := by simpa [owns, hid, Arena.contains] using h
    rw [hnone, Option.map_none]
  next => rfl

/-- An entry can be stamped where it stands. -/
theorem Linked.restamp (h : r.Linked (before ++ e :: after)) (now : Nat) :
    ∃ a, r.arena.modify? e.slot ({ · with touched := now }) = some a ∧
      RecencyRing.Linked { r with arena := a } (before ++ ⟨e.slot, e.value, now⟩ :: after) := by
  obtain ⟨n, hn, hvalue, -⟩ := payload_eq_some_iff.mp ((h.lists e).mp (by simp))
  obtain ⟨a, ha, hget, hsize, hwf⟩ := Arena.modify?_of_get? hn ({ · with touched := now })
  have htable : payload a = Function.update (payload r.arena) e.slot (some (e.value, now)) := by
    funext y
    by_cases hy : y = e.slot <;> simp [payload, hget, hy, hvalue]
  refine ⟨a, ha, hwf h.arena, ?_, ?_, ?_⟩
  · rw [hsize, h.size]
    simp
  · rw [htable]
    exact h.lists.restamp h.nodup e.value now
  · have hslots : (before ++ ⟨e.slot, e.value, now⟩ :: after).map (·.slot) =
        (before ++ e :: after).map (·.slot) := by simp
    rw [hslots]
    refine h.strung.congr rfl fun y _ => ?_
    by_cases hy : y = e.slot <;> simp [nextOf, prevOf, hget, hy, hn]

/-- An entry in the place of the head is the first one. -/
theorem Linked.eq_nil_of_head (h : r.Linked (before ++ e :: after)) (hhead : r.head = some e.slot) :
    before = [] := by
  cases before with
  | nil => rfl
  | cons first before =>
      have hfirst : first.slot = e.slot := by simpa [h.strung.head] using hhead
      exact absurd (by simp [hfirst]) h.not_mem_rest

/-- A touch stamps its entry now and moves it to the front. -/
theorem Linked.touch (h : r.Linked l) (he : e ∈ l) (now : Nat) :
    (r.touch now ⟨r.id, e.slot⟩).1 = true ∧
      (r.touch now ⟨r.id, e.slot⟩).2.Linked (⟨e.slot, e.value, now⟩ :: without l e.slot) := by
  obtain ⟨before, after, rfl⟩ := List.append_of_mem he
  have howns : r.owns ⟨r.id, e.slot⟩ := h.owns_iff.mpr ⟨rfl, List.mem_map_of_mem he⟩
  obtain ⟨a, ha, hlinked⟩ := h.restamp now
  rw [RecencyRing.touch, if_pos howns, ha, Option.getD_some, without_append_cons h.nodup]
  refine ⟨rfl, ?_⟩
  dsimp only
  split
  next hhead =>
    obtain rfl := h.eq_nil_of_head hhead
    exact hlinked
  next => exact hlinked.moveToFront

/-- A removal takes its entry out and answers the value. -/
theorem Linked.remove (h : r.Linked l) (he : e ∈ l) :
    (r.remove ⟨r.id, e.slot⟩).1 = some e.value ∧
      (r.remove ⟨r.id, e.slot⟩).2.Linked (without l e.slot) := by
  have howns : r.owns ⟨r.id, e.slot⟩ := h.owns_iff.mpr ⟨rfl, List.mem_map_of_mem he⟩
  obtain ⟨before, after, rfl⟩ := List.append_of_mem he
  rw [RecencyRing.remove, if_pos howns, without_append_cons h.nodup]
  exact h.detach

/-! ## Sweeps -/

/-- The entry has gone untouched for longer than the time to live. -/
def lapsed (ttl : Duration) (now : Nat) (e : Entry α) : Bool :=
  ttl.nanos < now - e.touched

theorem Linked.tail?_eq (h : r.Linked l) : r.tail? = (l.map (·.slot)).getLast? := by
  cases l with
  | nil => simp [tail?, h.strung.head]
  | cons first rest =>
      have hclosed := h.strung.closed
      rw [List.map_cons] at hclosed
      have hlast := (closed_cons_iff.mp hclosed).2.1.2
      rw [List.map_cons, List.getLast?_cons, ← hlast]
      simp [tail?, h.strung.head, prevOf]

theorem Linked.isStale_eq (h : r.Linked l) (he : e ∈ l) (now : Nat) :
    r.isStale now e.slot = lapsed r.ttl now e := by
  obtain ⟨n, hn, -, htouched⟩ := payload_eq_some_iff.mp ((h.lists e).mp he)
  simp [isStale, hn, lapsed, htouched]

/-- With fuel for every entry, a sweep takes off the longest run of lapsed entries at the end and
answers their values, the last one first. -/
theorem Linked.sweep (h : r.Linked l) (now : Nat) {n : Nat} (hn : l.length ≤ n) :
    (sweep now n r).1 = ((l.rtakeWhile (lapsed r.ttl now)).reverse).map (·.value) ∧
      (sweep now n r).2.Linked (l.rdropWhile (lapsed r.ttl now)) := by
  induction l using List.reverseRecOn generalizing r n with
  | nil =>
      have htail : r.tail? = none := h.tail?_eq
      cases n with
      | zero => exact ⟨rfl, h⟩
      | succ n =>
          rw [RecencyRing.sweep, htail]
          exact ⟨rfl, h⟩
  | append_singleton l e ih =>
      have htail : r.tail? = some e.slot := by simp [h.tail?_eq]
      obtain ⟨n, rfl⟩ : ∃ m, n = m + 1 := Nat.exists_eq_add_one_of_ne_zero (by
        simp only [List.length_append, List.length_singleton] at hn
        omega)
      have hstale := h.isStale_eq (e := e) (by simp) now
      rw [RecencyRing.sweep, htail]
      dsimp only
      by_cases hlapsed : lapsed r.ttl now e
      · rw [if_pos (by rw [hstale, hlapsed]), List.rtakeWhile_concat_pos _ _ _ hlapsed,
          List.rdropWhile_concat_pos _ _ _ hlapsed]
        obtain ⟨hvalue, hlinked⟩ := h.detach
        rw [List.append_nil] at hlinked
        have httl : (r.detach e.slot).2.ttl = r.ttl := congrArg Prod.snd (settings_detach r e.slot)
        have hrest := ih hlinked (n := n) (by simpa using hn)
        rw [httl] at hrest
        exact ⟨by simp [hvalue, hrest.1], hrest.2⟩
      · rw [if_neg (by rw [hstale]; exact hlapsed), List.rtakeWhile_concat_neg _ _ _ hlapsed,
          List.rdropWhile_concat_neg _ _ _ hlapsed]
        exact ⟨rfl, h⟩

/-- A sweep takes off the longest run of lapsed entries at the end. -/
theorem Linked.expire (h : r.Linked l) (now : Nat) :
    (r.expire now).1 = ((l.rtakeWhile (lapsed r.ttl now)).reverse).map (·.value) ∧
      (r.expire now).2.Linked (l.rdropWhile (lapsed r.ttl now)) :=
  h.sweep now h.size.ge

theorem linked_clear (r : RecencyRing α) : r.clear.Linked [] where
  arena := Arena.wellFormed_clear r.arena
  size := rfl
  mem_iff e := by simp [RecencyRing.clear, payload]
  strung := ⟨List.nodup_nil, rfl, List.isChain_nil, by simp⟩

/-- The entries are in the order of their last touch, the most recent one first. -/
def Descending (l : List (Entry α)) : Prop :=
  l.Pairwise fun a b => b.touched ≤ a.touched

theorem rdropWhile_eq_filter {β : Type} {p : β → Bool} {s : List β}
    (h : s.Pairwise fun a b => p a → p b) : s.rdropWhile p = s.filter fun a => !p a := by
  induction s using List.reverseRecOn with
  | nil => rfl
  | append_singleton s b ih =>
      rw [List.pairwise_append] at h
      by_cases hb : p b
      · rw [List.rdropWhile_concat_pos _ _ _ hb, ih h.1]
        simp [hb]
      · have hs : ∀ a ∈ s, ¬ p a := fun a ha hpa => hb (h.2.2 a ha b (by simp) hpa)
        rw [List.rdropWhile_concat_neg _ _ _ hb]
        exact (List.filter_eq_self.mpr (by simpa [or_imp, forall_and, hb] using hs)).symm

/-- In the order of touches a sweep leaves exactly the entries that have not lapsed. -/
theorem Descending.rdropWhile_lapsed (h : Descending l) (ttl : Duration) (now : Nat) :
    l.rdropWhile (lapsed ttl now) = l.filter fun e => !lapsed ttl now e := by
  refine rdropWhile_eq_filter (h.imp fun hab ha => ?_)
  simp only [lapsed, decide_eq_true_eq] at ha ⊢
  omega

/-- The entries are in the order of their last touch, and none was touched after `now`. -/
structure Recent (now : Nat) (l : List (Entry α)) : Prop where
  descending : Descending l
  touched_le : ∀ e ∈ l, e.touched ≤ now

namespace Recent

variable {now : Nat}

theorem nil (now : Nat) : Recent now ([] : List (Entry α)) where
  descending := .nil
  touched_le := by simp

theorem cons (h : Recent now l) (x : SlotId) (v : α) : Recent now (⟨x, v, now⟩ :: l) where
  descending := List.pairwise_cons.mpr ⟨h.touched_le, h.descending⟩
  touched_le e he := by
    rcases List.mem_cons.mp he with rfl | he
    · exact Nat.le_refl now
    · exact h.touched_le e he

theorem sublist {l' : List (Entry α)} (h : Recent now l) (hl : l'.Sublist l) : Recent now l' where
  descending := h.descending.sublist hl
  touched_le e he := h.touched_le e (hl.subset he)

theorem later {later : Nat} (h : Recent now l) (hle : now ≤ later) : Recent later l where
  descending := h.descending
  touched_le e he := Nat.le_trans (h.touched_le e he) hle

end Recent

/-! ## The order of use -/

/-- The entries met from the head on, along the links towards the less recent side. -/
def entries (r : RecencyRing α) : List (Entry α) :=
  r.trail.map fun (slot, node) => ⟨slot, node.value, node.touched⟩

theorem map_value_entries (r : RecencyRing α) : r.entries.map (·.value) = r.toList :=
  List.map_map

theorem walk_eq {a : Arena (Node α)} (hchain : (l.map (·.slot)).IsChain (Joined (nextOf a) (prevOf a)))
    (hl : ∀ e ∈ l, payload a e.slot = some (e.value, e.touched)) :
    (walk a l.length (l.map (·.slot)).head?).map
      (fun (slot, node) => (⟨slot, node.value, node.touched⟩ : Entry α)) = l := by
  induction l with
  | nil => rfl
  | cons e rest ih =>
      obtain ⟨n, hn, hvalue, htouched⟩ := payload_eq_some_iff.mp (hl e (by simp))
      rw [List.map_cons] at hchain
      have hrest := ih hchain.of_cons fun e' he' => hl e' (List.mem_cons_of_mem e he')
      cases rest with
      | nil => simp [walk, hn, hvalue, htouched]
      | cons e' rest =>
          have hnext : n.next = some e'.slot := by
            simpa [nextOf, hn] using (List.isChain_cons_cons.mp hchain).1.1
          simp only [List.map_cons, List.head?_cons] at hrest
          rw [List.length_cons, List.map_cons, List.head?_cons, walk, hn]
          simp only [List.map_cons, hnext, hvalue, htouched, hrest]

/-- Followed from the head on, the links meet the entries in the order of the list. -/
theorem Linked.entries_eq (h : r.Linked l) : r.entries = l := by
  have hsize : r.size = l.length := h.size
  rw [entries, trail, hsize, h.strung.head]
  exact walk_eq h.strung.closed.chain fun e he => (h.lists e).mp he

theorem Linked.toList_eq (h : r.Linked l) : r.toList = l.map (·.value) := by
  rw [← map_value_entries, h.entries_eq]

end TieredCache.RecencyRing
