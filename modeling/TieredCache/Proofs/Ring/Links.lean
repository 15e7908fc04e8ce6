import Mathlib.Data.List.Chain
import TieredCache.Proofs.Arena
import TieredCache.RecencyRing

/-!
# The links of a recency ring

A ring shows a list when the arena holds the values of the list and nothing else, and the links lead
from each value to the one after it and from the last value back to the first. Taking a value out of
the links and putting one in front of them each rewrite two neighbours and never stop half-way.
-/

namespace TieredCache.RecencyRing

variable {α : Type}

/-- A value of a ring with its identity and the time of its last touch. -/
structure Entry (α : Type) where
  slot : SlotId
  value : α
  touched : Nat

/-- The neighbour of an identity on the less recent side. -/
def nextOf (a : Arena (Node α)) (x : SlotId) : Option SlotId :=
  (a.get? x).bind (·.next)

/-- The neighbour of an identity on the more recent side. -/
def prevOf (a : Arena (Node α)) (x : SlotId) : Option SlotId :=
  (a.get? x).bind (·.prev)

/-- What an arena keeps at an identity apart from the links. -/
def payload (a : Arena (Node α)) (x : SlotId) : Option (α × Nat) :=
  (a.get? x).map fun n => (n.value, n.touched)

/-- Two identities name each other as next and as previous one. -/
def Joined (next prev : SlotId → Option SlotId) (x y : SlotId) : Prop :=
  next x = some y ∧ prev y = some x

/-- Each identity is joined to the one after it in the list, and the last one to the first. -/
structure Closed (joined : SlotId → SlotId → Prop) (slots : List SlotId) : Prop where
  chain : slots.IsChain joined
  wrap : ∀ z ∈ slots.getLast?, ∀ y ∈ slots.head?, joined z y

/-- The links of the ring run through the identities in the order of the list, from the head on. -/
structure Strung (r : RecencyRing α) (slots : List SlotId) : Prop where
  nodup : slots.Nodup
  head : r.head = slots.head?
  closed : Closed (Joined (nextOf r.arena) (prevOf r.arena)) slots

/-- The ring holds exactly the entries of the list, linked in their order. -/
structure Linked (r : RecencyRing α) (l : List (Entry α)) : Prop where
  arena : r.arena.WellFormed
  size : r.arena.size = l.length
  mem_iff : ∀ e, e ∈ l ↔ payload r.arena e.slot = some (e.value, e.touched)
  strung : r.Strung (l.map (·.slot))

theorem linked_empty (id : Nat) (ttl : Duration) : (empty id ttl : RecencyRing α).Linked [] where
  arena := Arena.wellFormed_empty
  size := rfl
  mem_iff e := by simp [empty, payload]
  strung := ⟨List.nodup_nil, rfl, List.isChain_nil, by simp⟩

/-! ## Closed walks -/

section Walks

variable {joined : SlotId → SlotId → Prop} {next prev next' prev' : SlotId → Option SlotId}

/-- Where a closed walk begins does not matter. -/
theorem Closed.rotate {before after : List SlotId} (h : Closed joined (before ++ after)) :
    Closed joined (after ++ before) := by
  obtain ⟨hchain, hwrap⟩ := h
  rw [List.isChain_append] at hchain
  cases before with
  | nil => simpa using Closed.mk hchain.2.1 (by simpa using hwrap)
  | cons a before =>
      cases after with
      | nil => simpa using Closed.mk hchain.1 (by simpa using hwrap)
      | cons b after =>
          refine ⟨List.isChain_append.mpr ⟨hchain.2.1, hchain.1, fun z hz y hy => ?_⟩, ?_⟩
          · exact hwrap z (by rw [List.getLast?_append, Option.mem_def.mp hz]; rfl) y hy
          · intro z hz y hy
            rw [List.getLast?_append, List.getLast?_cons, Option.some_or, ← List.getLast?_cons] at hz
            exact hchain.2.2 z hz y hy

/-- The walk leads from its last stop to `x` and from `x` to the stop after it. -/
theorem closed_cons_iff {x : SlotId} {slots : List SlotId} :
    Closed joined (x :: slots) ↔ slots.IsChain joined ∧
      joined ((slots.getLast?).getD x) x ∧ joined x ((slots.head?).getD x) := by
  cases slots with
  | nil =>
      constructor
      · intro h
        simpa using h.wrap x rfl x rfl
      · intro h
        exact ⟨List.isChain_singleton x, by simpa using h.2.1⟩
  | cons y rest =>
      constructor
      · intro h
        have hchain := List.isChain_cons_cons.mp h.chain
        exact ⟨hchain.2, h.wrap _ List.getLast?_cons x rfl, hchain.1⟩
      · rintro ⟨hchain, hlast, hfirst⟩
        refine ⟨List.isChain_cons_cons.mpr ⟨hfirst, hchain⟩, ?_⟩
        rintro z hz y' ⟨rfl⟩
        obtain rfl := Option.some.inj (List.getLast?_cons.symm.trans hz)
        exact hlast

/-- Two neighbours stay joined when the links at `x` are bridged, unless one of them is `x`. -/
theorem Joined.bridge {a b p x n : SlotId} (h : Joined next prev a b) (ha : a ≠ x) (hb : b ≠ x)
    (hpx : Joined next prev p x) (hxn : Joined next prev x n)
    (hnext : ∀ y, y ≠ x → next' y = if y = p then some n else next y)
    (hprev : ∀ y, y ≠ x → prev' y = if y = n then some p else prev y) :
    Joined next' prev' a b := by
  have hap : a ≠ p := by
    rintro rfl
    exact hb (Option.some.inj (h.1.symm.trans hpx.1))
  have hbn : b ≠ n := by
    rintro rfl
    exact ha (Option.some.inj (h.2.symm.trans hxn.2))
  rw [Joined, hnext a ha, hprev b hb, if_neg hap, if_neg hbn]
  exact h

/-- A closed walk with its first stop taken out is closed again when that stop is bridged. -/
theorem Closed.bridge {x p n : SlotId} {slots : List SlotId}
    (h : Closed (Joined next prev) (x :: slots)) (hx : x ∉ slots)
    (hp : prev x = some p) (hn : next x = some n)
    (hnext : ∀ y, y ≠ x → next' y = if y = p then some n else next y)
    (hprev : ∀ y, y ≠ x → prev' y = if y = n then some p else prev y) :
    Closed (Joined next' prev') slots := by
  obtain ⟨hchain, hlast, hfirst⟩ := closed_cons_iff.mp h
  have hne : ∀ y ∈ slots, y ≠ x := fun y hy hyx => hx (hyx ▸ hy)
  have hlp : slots.getLast?.getD x = p := Option.some.inj (hlast.2.symm.trans hp)
  have hfn : slots.head?.getD x = n := Option.some.inj (hfirst.1.symm.trans hn)
  rw [hlp] at hlast
  rw [hfn] at hfirst
  refine ⟨hchain.imp_of_mem_imp fun a b ha hb hab =>
    hab.bridge (hne a ha) (hne b hb) hlast hfirst hnext hprev, fun z hz y hy => ?_⟩
  obtain rfl : z = p := by simpa [Option.mem_def.mp hz] using hlp
  obtain rfl : y = n := by simpa [Option.mem_def.mp hy] using hfn
  have hzx := hne z (List.mem_of_mem_getLast? hz)
  have hyx := hne y (List.mem_of_mem_head? hy)
  exact ⟨by simp [hnext z hzx], by simp [hprev y hyx]⟩

/-- A closed walk with a new stop in front is closed when that stop is linked to both ends. -/
theorem Closed.extend {x head tail : SlotId} {slots : List SlotId}
    (h : Closed (Joined next prev) (head :: slots)) (hnodup : (head :: slots).Nodup)
    (hx : x ∉ head :: slots) (htail : prev head = some tail)
    (hnext : ∀ y, next' y = if y = tail then some x else if y = x then some head else next y)
    (hprev : ∀ y, prev' y = if y = head then some x else if y = x then some tail else prev y) :
    Closed (Joined next' prev') (x :: head :: slots) := by
  obtain ⟨hchain, hlast, -⟩ := closed_cons_iff.mp h
  have hlt : slots.getLast?.getD head = tail := Option.some.inj (hlast.2.symm.trans htail)
  rw [hlt] at hlast
  rw [List.nodup_cons] at hnodup
  have hne : ∀ y ∈ head :: slots, y ≠ x := fun y hy hyx => hx (hyx ▸ hy)
  have htx : tail ≠ x := by
    refine hne tail ?_
    rw [← hlt]
    cases hl : slots.getLast? with
    | none => simp
    | some z => simpa using Or.inr (List.mem_of_mem_getLast? hl)
  have hhx : head ≠ x := hne head (by simp)
  refine closed_cons_iff.mpr ⟨?_, ?_, ?_⟩
  · refine h.chain.imp_of_mem_tail_imp fun a b ha hb hab => ?_
    have hbh : b ≠ head := fun hbh => hnodup.1 (hbh ▸ hb)
    have hat : a ≠ tail := by
      rintro rfl
      exact hbh (Option.some.inj (hab.1.symm.trans hlast.1))
    rw [Joined, hnext, hprev, if_neg hat, if_neg (hne a ha), if_neg hbh,
      if_neg (hne b (List.mem_cons_of_mem _ hb))]
    exact hab
  · rw [List.getLast?_cons, Option.getD_some, hlt]
    exact ⟨by simp [hnext], by simp [hprev, hhx.symm]⟩
  · exact ⟨by simp [hnext, htx.symm], by simp [hprev]⟩

end Walks

/-! ## Surgery -/

/-- Two arenas that differ at most in the links of their values. -/
structure Rewired (a b : Arena (Node α)) : Prop where
  payload_eq : payload b = payload a
  size_eq : b.size = a.size
  wellFormed : a.WellFormed → b.WellFormed

theorem Rewired.trans {a b c : Arena (Node α)} (h₁ : Rewired a b) (h₂ : Rewired b c) :
    Rewired a c where
  payload_eq := h₂.payload_eq.trans h₁.payload_eq
  size_eq := h₂.size_eq.trans h₁.size_eq
  wellFormed h := h₂.wellFormed (h₁.wellFormed h)

theorem payload_eq_some_iff {a : Arena (Node α)} {x : SlotId} {v : α} {t : Nat} :
    payload a x = some (v, t) ↔ ∃ n, a.get? x = some n ∧ n.value = v ∧ n.touched = t := by
  simp [payload]

theorem isSome_payload {a : Arena (Node α)} {x : SlotId} :
    (payload a x).isSome ↔ ∃ n, a.get? x = some n := by
  simp [payload, Option.isSome_iff_exists]

theorem isSome_payload_of_nextOf {a : Arena (Node α)} {x y : SlotId} (h : nextOf a x = some y) :
    (payload a x).isSome := by
  obtain ⟨n, hn, -⟩ := Option.bind_eq_some_iff.mp h
  exact isSome_payload.mpr ⟨n, hn⟩

theorem isSome_payload_of_prevOf {a : Arena (Node α)} {x y : SlotId} (h : prevOf a x = some y) :
    (payload a x).isSome := by
  obtain ⟨n, hn, -⟩ := Option.bind_eq_some_iff.mp h
  exact isSome_payload.mpr ⟨n, hn⟩

/-- New links for the value of one identity. -/
theorem modify?_links {a : Arena (Node α)} {x : SlotId} (h : (payload a x).isSome)
    (next prev : Option SlotId → Option SlotId) :
    ∃ b, a.modify? x (fun n => { n with next := next n.next, prev := prev n.prev }) = some b ∧
      Rewired a b ∧ (∀ y, nextOf b y = if y = x then next (nextOf a y) else nextOf a y) ∧
      ∀ y, prevOf b y = if y = x then prev (prevOf a y) else prevOf a y := by
  obtain ⟨n, hn⟩ := isSome_payload.mp h
  obtain ⟨b, hb, hget, hsize, hwf⟩ :=
    Arena.modify?_of_get? hn fun n => { n with next := next n.next, prev := prev n.prev }
  refine ⟨b, hb, ⟨funext fun y => ?_, hsize, hwf⟩, fun y => ?_, fun y => ?_⟩
  · by_cases hy : y = x <;> simp [payload, hget, hy, hn]
  · by_cases hy : y = x <;> simp [nextOf, hget, hy, hn]
  · by_cases hy : y = x <;> simp [prevOf, hget, hy, hn]

/-- A value that is its own neighbour leaves no head behind. -/
theorem unlink?_of_alone {r : RecencyRing α} {x : SlotId} (hp : prevOf r.arena x = some x)
    (hn : nextOf r.arena x = some x) :
    ∃ a, r.unlink? x = some { r with arena := a, head := none } ∧ Rewired r.arena a := by
  obtain ⟨node, hnode, hprev⟩ := Option.bind_eq_some_iff.mp hp
  have hnext : node.next = some x := by simpa [nextOf, hnode] using hn
  obtain ⟨a, h, w, -, -⟩ :=
    modify?_links (isSome_payload_of_nextOf hn) (fun _ => none) fun _ => none
  refine ⟨a, ?_, w⟩
  simp only [unlink?, hnode, hprev, hnext, Option.bind_eq_bind, Option.bind_some, ↓reduceIte, h]

/-- A value with two neighbours other than itself is taken out of the links, and its neighbours are
joined. -/
theorem unlink?_of_neighbours {r : RecencyRing α} {x p n : SlotId}
    (hp : prevOf r.arena x = some p) (hn : nextOf r.arena x = some n)
    (hpn : nextOf r.arena p = some x) (hnp : prevOf r.arena n = some x)
    (hnx : n ≠ x) :
    ∃ a, r.unlink? x =
        some { r with arena := a, head := if r.head = some x then some n else r.head } ∧
      Rewired r.arena a ∧ (∀ y, y ≠ x → nextOf a y = if y = p then some n else nextOf r.arena y) ∧
      ∀ y, y ≠ x → prevOf a y = if y = n then some p else prevOf r.arena y := by
  obtain ⟨node, hnode, hprev⟩ := Option.bind_eq_some_iff.mp hp
  have hnext : node.next = some n := by simpa [nextOf, hnode] using hn
  obtain ⟨a₁, h₁, w₁, next₁, prev₁⟩ :=
    modify?_links (isSome_payload_of_nextOf hpn) (fun _ => some n) fun prev => prev
  have hn₁ : (payload a₁ n).isSome := by
    rw [w₁.payload_eq]
    exact isSome_payload_of_prevOf hnp
  obtain ⟨a₂, h₂, w₂, next₂, prev₂⟩ := modify?_links hn₁ (fun next => next) fun _ => some p
  have hx₂ : (payload a₂ x).isSome := by
    rw [(w₁.trans w₂).payload_eq]
    exact isSome_payload_of_prevOf hp
  obtain ⟨a₃, h₃, w₃, next₃, prev₃⟩ := modify?_links hx₂ (fun _ => none) fun _ => none
  refine ⟨a₃, ?_, (w₁.trans w₂).trans w₃, fun y hy => ?_, fun y hy => ?_⟩
  · simp only [unlink?, hnode, hprev, hnext, Option.bind_eq_bind, Option.bind_some, if_neg hnx,
      h₁, h₂, h₃]
  · rw [next₃, if_neg hy, next₂, ite_self, next₁]
  · rw [prev₃, if_neg hy, prev₂, prev₁, ite_self]

/-- The first value of a ring is linked to itself. -/
theorem linkFront?_of_no_head {r : RecencyRing α} {x : SlotId} (hr : r.head = none)
    (hx : (payload r.arena x).isSome) :
    ∃ a, r.linkFront? x = some { r with arena := a, head := some x } ∧ Rewired r.arena a ∧
      nextOf a x = some x ∧ prevOf a x = some x := by
  obtain ⟨a, h, w, next, prev⟩ := modify?_links hx (fun _ => some x) fun _ => some x
  refine ⟨a, ?_, w, by simp [next], by simp [prev]⟩
  simp only [linkFront?, hr, Option.bind_eq_bind, h, Option.bind_some]

/-- A value is linked in front of the head, between it and the tail. -/
theorem linkFront?_of_head {r : RecencyRing α} {x head tail : SlotId} (hr : r.head = some head)
    (htail : prevOf r.arena head = some tail) (hxt : (payload r.arena tail).isSome)
    (hx : (payload r.arena x).isSome) :
    ∃ a, r.linkFront? x = some { r with arena := a, head := some x } ∧ Rewired r.arena a ∧
      (∀ y, nextOf a y =
        if y = tail then some x else if y = x then some head else nextOf r.arena y) ∧
      ∀ y, prevOf a y =
        if y = head then some x else if y = x then some tail else prevOf r.arena y := by
  obtain ⟨first, hfirst, hprev⟩ := Option.bind_eq_some_iff.mp htail
  obtain ⟨a₁, h₁, w₁, next₁, prev₁⟩ := modify?_links hx (fun _ => some head) fun _ => some tail
  have ht₁ : (payload a₁ tail).isSome := by
    rw [w₁.payload_eq]
    exact hxt
  obtain ⟨a₂, h₂, w₂, next₂, prev₂⟩ := modify?_links ht₁ (fun _ => some x) fun prev => prev
  have hh₂ : (payload a₂ head).isSome := by
    rw [(w₁.trans w₂).payload_eq]
    exact isSome_payload_of_prevOf htail
  obtain ⟨a₃, h₃, w₃, next₃, prev₃⟩ := modify?_links hh₂ (fun next => next) fun _ => some x
  refine ⟨a₃, ?_, (w₁.trans w₂).trans w₃, fun y => ?_, fun y => ?_⟩
  · simp only [linkFront?, hr, hfirst, hprev, Option.bind_eq_bind, Option.bind_some, h₁, h₂, h₃]
  · rw [next₃, ite_self, next₂, next₁]
  · rw [prev₃, prev₂, ite_self, prev₁]

/-! ## The links of a ring under surgery -/

/-- A linked value can be taken out of the links, and the others keep their order. -/
theorem Strung.unlink {r : RecencyRing α} {before after : List SlotId} {x : SlotId}
    (h : r.Strung (before ++ x :: after)) :
    ∃ r', r.unlink? x = some r' ∧ r'.id = r.id ∧ r'.ttl = r.ttl ∧ Rewired r.arena r'.arena ∧
      r'.Strung (before ++ after) := by
  have hnodup := List.nodup_cons.mp (List.nodup_middle.mp h.nodup)
  have hx : x ∉ after ++ before := fun hx => hnodup.1 (List.perm_append_comm.mem_iff.mp hx)
  have hclosed : Closed (Joined (nextOf r.arena) (prevOf r.arena)) (x :: (after ++ before)) :=
    h.closed.rotate
  obtain ⟨-, hlast, hfirst⟩ := closed_cons_iff.mp hclosed
  cases hs : (after ++ before).head? with
  | none =>
      have hnil := List.head?_eq_none_iff.mp hs
      rw [hnil] at hlast hfirst
      obtain ⟨rfl, rfl⟩ := List.append_eq_nil_iff.mp hnil
      obtain ⟨a, ha, w⟩ := unlink?_of_alone hlast.2 hfirst.1
      exact ⟨_, ha, rfl, rfl, w, List.nodup_nil, rfl, List.isChain_nil, by simp⟩
  | some n =>
      rw [hs, Option.getD_some] at hfirst
      have hn : n ∈ after ++ before := List.mem_of_mem_head? hs
      have hnx : n ≠ x := fun hnx => hx (hnx ▸ hn)
      obtain ⟨a, ha, w, next, prev⟩ :=
        unlink?_of_neighbours hlast.2 hfirst.1 hlast.1 hfirst.2 hnx
      refine ⟨_, ha, rfl, rfl, w, hnodup.2, ?_, ?_⟩
      · cases before with
        | nil => simpa [h.head] using hs.symm
        | cons b before =>
            have hbx : b ≠ x := fun hbx => hx (by simp [hbx])
            simp [h.head, hbx]
      · exact (hclosed.bridge hx hlast.2 hfirst.1 next prev).rotate

/-- An unlinked value can be linked in front of the others. -/
theorem Strung.linkFront {r : RecencyRing α} {slots : List SlotId} {x : SlotId}
    (h : r.Strung slots) (hx : x ∉ slots) (hpayload : (payload r.arena x).isSome) :
    ∃ r', r.linkFront? x = some r' ∧ r'.id = r.id ∧ r'.ttl = r.ttl ∧ Rewired r.arena r'.arena ∧
      r'.Strung (x :: slots) := by
  cases slots with
  | nil =>
      obtain ⟨a, ha, w, hnext, hprev⟩ := linkFront?_of_no_head h.head hpayload
      have hjoined : Joined (nextOf a) (prevOf a) x x := ⟨hnext, hprev⟩
      exact ⟨_, ha, rfl, rfl, w, List.nodup_singleton x, rfl,
        closed_cons_iff.mpr ⟨List.isChain_nil, hjoined, hjoined⟩⟩
  | cons head slots =>
      obtain ⟨-, hlast, -⟩ := closed_cons_iff.mp h.closed
      obtain ⟨a, ha, w, next, prev⟩ :=
        linkFront?_of_head h.head hlast.2 (isSome_payload_of_nextOf hlast.1) hpayload
      exact ⟨_, ha, rfl, rfl, w, List.nodup_cons.mpr ⟨hx, h.nodup⟩, rfl,
        h.closed.extend h.nodup hx hlast.2 next prev⟩

end TieredCache.RecencyRing
