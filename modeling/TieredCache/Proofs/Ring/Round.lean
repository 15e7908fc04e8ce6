import TieredCache.Proofs.Ring.Operations

/-!
# Once round a recency ring

The links of a ring lead from the head through all of its values, each one once, and back to the head. So
the head is missing only where there is no value, and the two directions are inverse to each other.
-/

namespace TieredCache.RecencyRing

variable {α : Type} {r : RecencyRing α} {l : List (Entry α)} {slots : List SlotId} {x y : SlotId}

/-! ## Places on a closed walk -/

section Walks

variable {joined : SlotId → SlotId → Prop}

/-- Each stop of a closed walk is joined to the one at the place after it, counted round. -/
theorem Closed.joined_of_getElem? (h : Closed joined slots) {i : Nat} (hx : slots[i]? = some x) :
    ∃ y, slots[(i + 1) % slots.length]? = some y ∧ joined x y := by
  obtain ⟨hi, rfl⟩ := List.getElem?_eq_some_iff.mp hx
  rcases Nat.lt_or_ge (i + 1) slots.length with hlt | hge
  · refine ⟨slots[i + 1], ?_, List.isChain_iff_getElem.mp h.chain i hlt⟩
    rw [Nat.mod_eq_of_lt hlt, List.getElem?_eq_getElem hlt]
  · obtain rfl : i = slots.length - 1 := by omega
    have hpos : 0 < slots.length := by omega
    refine ⟨slots[0], ?_, h.wrap _ ?_ _ ?_⟩
    · rw [Nat.sub_add_cancel hpos, Nat.mod_self, List.getElem?_eq_getElem hpos]
    · rw [List.getLast?_eq_getElem?, List.getElem?_eq_getElem hi]
      rfl
    · rw [List.head?_eq_getElem?, List.getElem?_eq_getElem hpos]
      rfl

/-- Each stop of a closed walk is joined on both sides to stops of the walk. -/
theorem Closed.neighbours (h : Closed joined slots) (hx : x ∈ slots) :
    ∃ p ∈ slots, ∃ n ∈ slots, joined p x ∧ joined x n := by
  obtain ⟨before, after, rfl⟩ := List.append_of_mem hx
  obtain ⟨-, hlast, hfirst⟩ := closed_cons_iff.mp h.rotate
  refine ⟨_, ?_, _, ?_, hlast, hfirst⟩
  · cases hl : (after ++ before).getLast? with
    | none => exact hx
    | some p =>
        have hp := List.mem_of_mem_getLast? hl
        grind
  · cases hf : (after ++ before).head? with
    | none => exact hx
    | some n =>
        have hn := List.mem_of_mem_head? hf
        grind

end Walks

/-! ## The links as a whole -/

/-- The identity that `n` links lead to from the head on. -/
def hop (r : RecencyRing α) : Nat → Option SlotId
  | 0 => r.head
  | n + 1 => (r.hop n).bind (nextOf r.arena)

theorem Strung.hop_eq (h : r.Strung slots) (n : Nat) : r.hop n = slots[n % slots.length]? := by
  induction n with
  | zero => rw [hop, h.head, Nat.zero_mod, List.head?_eq_getElem?]
  | succ n ih =>
      rw [hop, ih]
      cases hx : slots[n % slots.length]? with
      | none =>
          have hlen : slots.length = 0 := by
            by_contra hne
            have hlt := Nat.mod_lt n (Nat.pos_of_ne_zero hne)
            rw [List.getElem?_eq_getElem hlt] at hx
            cases hx
          obtain rfl := List.length_eq_zero_iff.mp hlen
          rfl
      | some x =>
          obtain ⟨y, hy, hjoined⟩ := h.closed.joined_of_getElem? hx
          rw [Nat.mod_add_mod] at hy
          rw [Option.bind_some, hjoined.1, hy]

theorem Strung.prevOf_of_nextOf (h : r.Strung slots) (hx : x ∈ slots)
    (hnext : nextOf r.arena x = some y) : prevOf r.arena y = some x := by
  obtain ⟨-, -, n, -, -, hxn⟩ := h.closed.neighbours hx
  obtain rfl := Option.some.inj (hxn.1.symm.trans hnext)
  exact hxn.2

theorem Strung.nextOf_of_prevOf (h : r.Strung slots) (hy : y ∈ slots)
    (hprev : prevOf r.arena y = some x) : nextOf r.arena x = some y := by
  obtain ⟨p, -, -, -, hpy, -⟩ := h.closed.neighbours hy
  obtain rfl := Option.some.inj (hpy.2.symm.trans hprev)
  exact hpy.1

/-- The ring is linked through and through: it has a head unless it holds nothing, the links from there
meet each identity with a value once and no other one before they come back, the two directions undo each
other, and each value has both of its neighbours. -/
structure Round (r : RecencyRing α) : Prop where
  head_eq_none_iff : r.head = none ↔ r.arena.isEmpty
  contains_of_hop : ∀ n x, r.hop n = some x → r.arena.contains x
  existsUnique_hop : ∀ x, r.arena.contains x → ∃! n, n < r.size ∧ r.hop n = some x
  hop_size : r.hop r.size = r.head
  nextOf_iff : ∀ x y, nextOf r.arena x = some y ↔ prevOf r.arena y = some x
  neighbours : ∀ x, r.arena.contains x → ∃ p n, prevOf r.arena x = some p ∧
    nextOf r.arena x = some n ∧ r.arena.contains p ∧ r.arena.contains n

theorem Linked.round (h : r.Linked l) : r.Round := by
  have hsize : r.size = (l.map (·.slot)).length := by
    rw [List.length_map]
    exact h.size
  have hcontains {x : SlotId} : r.arena.contains x ↔ x ∈ l.map (·.slot) := h.contains_iff
  have hstrung := h.strung
  generalize l.map (·.slot) = slots at hsize hcontains hstrung
  have hpayload {z : SlotId} (hz : (payload r.arena z).isSome) : z ∈ slots := by
    obtain ⟨node, hnode⟩ := isSome_payload.mp hz
    exact hcontains.mp (Arena.contains_iff.mpr ⟨node, hnode⟩)
  constructor
  case head_eq_none_iff =>
    rw [hstrung.head, List.head?_eq_none_iff, ← List.length_eq_zero_iff, ← hsize, Arena.isEmpty,
      beq_iff_eq, RecencyRing.size]
  case contains_of_hop =>
    intro n x hx
    rw [hstrung.hop_eq] at hx
    exact hcontains.mpr (List.mem_of_getElem? hx)
  case existsUnique_hop =>
    intro x hx
    obtain ⟨n, hn, rfl⟩ := List.mem_iff_getElem.mp (hcontains.mp hx)
    refine ⟨n, ⟨hsize ▸ hn, ?_⟩, ?_⟩
    · rw [hstrung.hop_eq, Nat.mod_eq_of_lt hn, List.getElem?_eq_getElem hn]
    · rintro m ⟨hm, hhop⟩
      rw [hsize] at hm
      rw [hstrung.hop_eq, Nat.mod_eq_of_lt hm, List.getElem?_eq_getElem hm] at hhop
      exact (hstrung.nodup.getElem_inj_iff).mp (Option.some.inj hhop)
  case hop_size =>
    rw [hstrung.hop_eq, hsize, Nat.mod_self, hstrung.head, List.head?_eq_getElem?]
  case nextOf_iff =>
    intro x y
    constructor
    · intro hnext
      exact hstrung.prevOf_of_nextOf (hpayload (isSome_payload_of_nextOf hnext)) hnext
    · intro hprev
      exact hstrung.nextOf_of_prevOf (hpayload (isSome_payload_of_prevOf hprev)) hprev
  case neighbours =>
    intro x hx
    obtain ⟨p, hp, n, hn, hpx, hxn⟩ := hstrung.closed.neighbours (hcontains.mp hx)
    exact ⟨p, n, hpx.2, hxn.1, hcontains.mpr hp, hcontains.mpr hn⟩

end TieredCache.RecencyRing
