import TieredCache.Clock.Shared

/-!
# Readings of a clock

An advance counts at most the greatest word, and the count wraps around. So a clock goes back exactly when
what it has counted does not fit the word any more, and handles show an advance exactly when they share
the clock that is moved.
-/

namespace TieredCache

namespace Clock

/-- The nanoseconds that a clock counts for an advance. -/
def counted (d : Duration) : Nat :=
  min d.nanos (UInt64.size - 1)

theorem counted_lt_size (d : Duration) : counted d < UInt64.size :=
  Nat.lt_of_le_of_lt (Nat.min_le_right _ _) (by decide)

theorem now_lt_size (c : Clock) : c.now < UInt64.size :=
  c.elapsed.toNat_lt

theorem now_advance (c : Clock) (d : Duration) :
    (c.advance d).now = (c.now + counted d) % UInt64.size := by
  have hcounted : (UInt64.ofNat (counted d)).toNat = counted d :=
    UInt64.toNat_ofNat_of_lt' (counted_lt_size d)
  calc (c.advance d).now = (c.elapsed + UInt64.ofNat (counted d)).toNat := rfl
    _ = (c.now + (UInt64.ofNat (counted d)).toNat) % UInt64.size := UInt64.toNat_add _ _
    _ = (c.now + counted d) % UInt64.size := by rw [hcounted]

/-- A sum of two words falls below the first one when it wraps around, and only then. -/
theorem le_add_mod_iff {a b size : Nat} (ha : a < size) (hb : b < size) :
    a ≤ (a + b) % size ↔ a + b < size := by
  rcases Nat.lt_or_ge (a + b) size with hlt | hge
  · rw [Nat.mod_eq_of_lt hlt]
    exact iff_of_true (Nat.le_add_right a b) hlt
  · rw [Nat.mod_eq_sub_mod hge, Nat.mod_eq_of_lt (by omega)]
    omega

/-- A clock does not go back as long as its count fits the word. -/
theorem now_le_now_advance_iff {c : Clock} {d : Duration} :
    c.now ≤ (c.advance d).now ↔ c.now + counted d < UInt64.size := by
  rw [now_advance, le_add_mod_iff c.now_lt_size (counted_lt_size d)]

end Clock

namespace SharedClocks

variable {t : SharedClocks} {handle x position : Nat}

/-- Every handle has a clock. -/
def Resolved (t : SharedClocks) : Prop :=
  ∀ handle position : Nat, t.handles[handle]? = some position → position < t.clocks.size

/-- Two handles have one clock. -/
def Shares (t : SharedClocks) (handle x : Nat) : Prop :=
  (t.handles[handle]?).isSome ∧ t.handles[handle]? = t.handles[x]?

instance : Decidable (t.Shares handle x) :=
  inferInstanceAs (Decidable (_ ∧ _))

theorem resolved_start : start.Resolved := by
  intro handle position h
  obtain ⟨-, rfl⟩ := Array.getElem?_eq_some_iff.mp h
  simp [start]

theorem clock_of_handle (h : t.handles[x]? = some position) :
    t.clock x = (t.clocks[position]?).getD .start := by
  rw [clock, h, Option.bind_some]

/-- A further handle leaves those that are there alone. -/
theorem handles_push (hx : t.handles[x]? = some position) (shared : Nat) :
    (t.handles.push shared)[x]? = some position := by
  have hlt : x < t.handles.size := (Array.getElem?_eq_some_iff.mp hx).1
  rw [Array.getElem?_push, if_neg (Nat.ne_of_lt hlt), hx]

namespace Resolved

theorem fresh (ht : t.Resolved) : t.fresh.2.Resolved := by
  intro handle position h
  simp only [SharedClocks.fresh, Array.getElem?_push] at h ⊢
  rw [Array.size_push]
  split at h
  next => simp_all
  next => exact Nat.lt_succ_of_lt (ht handle position h)

theorem share (ht : t.Resolved) (handle : Nat) : (t.share handle).2.Resolved := by
  rw [SharedClocks.share]
  cases hhandle : t.handles[handle]? with
  | none => exact ht.fresh
  | some shared =>
      dsimp only
      intro x position h
      simp only [Array.getElem?_push] at h
      split at h
      next =>
        cases h
        exact ht handle shared hhandle
      next => exact ht x position h

theorem advance (ht : t.Resolved) (handle : Nat) (d : Duration) : (t.advance handle d).Resolved := by
  rw [SharedClocks.advance]
  cases t.handles[handle]? with
  | none => exact ht
  | some shared =>
      dsimp only
      intro x position h
      rw [Array.size_modify]
      exact ht x position h

/-- A new clock does not show through the handles that are there. -/
theorem clock_fresh (ht : t.Resolved) (hx : t.handles[x]? = some position) :
    t.fresh.2.handles[x]? = some position ∧ t.fresh.2.clock x = t.clock x := by
  have hfresh : t.fresh.2.handles[x]? = some position := handles_push hx t.clocks.size
  refine ⟨hfresh, ?_⟩
  rw [clock_of_handle hfresh, clock_of_handle hx]
  have hne : position ≠ t.clocks.size := Nat.ne_of_lt (ht x position hx)
  simp [SharedClocks.fresh, Array.getElem?_push, hne]

theorem clock_share (ht : t.Resolved) (hx : t.handles[x]? = some position) (handle : Nat) :
    (t.share handle).2.handles[x]? = some position ∧ (t.share handle).2.clock x = t.clock x := by
  rw [SharedClocks.share]
  cases t.handles[handle]? with
  | none => exact ht.clock_fresh hx
  | some shared =>
      have hkept := handles_push hx shared
      refine ⟨hkept, ?_⟩
      rw [clock_of_handle hx]
      exact clock_of_handle hkept

/-- An advance shows through the handles that share the clock, and through no others. -/
theorem clock_advance (ht : t.Resolved) (hx : t.handles[x]? = some position) (handle : Nat)
    (d : Duration) : (t.advance handle d).handles = t.handles ∧
      (t.advance handle d).clock x =
        if t.Shares handle x then (t.clock x).advance d else t.clock x := by
  rw [SharedClocks.advance]
  cases hhandle : t.handles[handle]? with
  | none => exact ⟨rfl, (if_neg fun h => by simp [Shares, hhandle] at h).symm⟩
  | some shared =>
      refine ⟨rfl, ?_⟩
      have hshares : t.Shares handle x ↔ shared = position := by
        simp [Shares, hhandle, hx]
      have hx' : ({ t with clocks := t.clocks.modify shared (·.advance d) } : SharedClocks).handles[x]? =
        some position := hx
      dsimp only
      rw [clock_of_handle hx', clock_of_handle hx, Array.getElem?_modify,
        Array.getElem?_eq_getElem (ht x position hx)]
      by_cases h : shared = position
      · rw [if_pos h, if_pos (hshares.mpr h)]
        rfl
      · rw [if_neg h, if_neg fun hs => h (hshares.mp hs)]

end Resolved

end SharedClocks

end TieredCache
