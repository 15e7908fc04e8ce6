import TieredCache.Proofs.Arena.Issued
import TieredCache.Proofs.Ring.Operations

/-!
# Handles that a ring has handed out

Adding hands out a handle that the ring never handed out before. Links, touches, removals, sweeps and
clearings hand out none and take back none, so a handle that went stale is never handed out again.
-/

namespace TieredCache.RecencyRing

variable {α : Type} {r r' : RecencyRing α} {x : SlotId}

theorem issued_of_linkFront? (h : r.linkFront? x = some r') (y : SlotId) :
    r'.arena.Issued y ↔ r.arena.Issued y := by
  unfold linkFront? at h
  split at h
  all_goals
    simp only [Option.bind_eq_bind, Option.bind_eq_some_iff, Option.some.injEq] at h
  · obtain ⟨a, ha, rfl⟩ := h
    exact Arena.issued_modify? ha y
  · obtain ⟨_, _, _, _, a, ha, b, hb, c, hc, rfl⟩ := h
    calc c.Issued y ↔ b.Issued y := Arena.issued_modify? hc y
      _ ↔ a.Issued y := Arena.issued_modify? hb y
      _ ↔ r.arena.Issued y := Arena.issued_modify? ha y

theorem issued_of_unlink? (h : r.unlink? x = some r') (y : SlotId) :
    r'.arena.Issued y ↔ r.arena.Issued y := by
  simp only [unlink?, Option.bind_eq_bind, Option.bind_eq_some_iff] at h
  obtain ⟨_, _, _, _, _, _, h⟩ := h
  split at h
  all_goals
    simp only [Option.bind_eq_some_iff, Option.some.injEq] at h
  · obtain ⟨a, ha, rfl⟩ := h
    exact Arena.issued_modify? ha y
  · obtain ⟨a, ha, b, hb, c, hc, rfl⟩ := h
    calc c.Issued y ↔ b.Issued y := Arena.issued_modify? hc y
      _ ↔ a.Issued y := Arena.issued_modify? hb y
      _ ↔ r.arena.Issued y := Arena.issued_modify? ha y

theorem issued_getD_linkFront? (r : RecencyRing α) (x y : SlotId) :
    ((r.linkFront? x).getD r).arena.Issued y ↔ r.arena.Issued y := by
  cases h : r.linkFront? x with
  | none => rfl
  | some r' => exact issued_of_linkFront? h y

/-- Adding hands out one more handle. -/
theorem issued_add_iff (h : r.arena.WellFormed) (now : Nat) (v : α) (y : SlotId) :
    (r.add now v).2.arena.Issued y ↔ y = (r.add now v).1.slot ∨ r.arena.Issued y := by
  calc (r.add now v).2.arena.Issued y
      ↔ (r.arena.insert ⟨v, now, none, none⟩).2.Issued y := issued_getD_linkFront? _ _ y
    _ ↔ y = (r.add now v).1.slot ∨ r.arena.Issued y := Arena.issued_insert_iff h _ y

theorem not_issued_fst_add (h : r.arena.WellFormed) (now : Nat) (v : α) :
    ¬ r.arena.Issued (r.add now v).1.slot :=
  Arena.not_issued_fst_insert h _

theorem issued_moveToFront (r : RecencyRing α) (x y : SlotId) :
    (r.moveToFront x).arena.Issued y ↔ r.arena.Issued y := by
  refine (issued_getD_linkFront? _ x y).trans ?_
  cases h : r.unlink? x with
  | none => rfl
  | some r' => exact issued_of_unlink? h y

theorem issued_touch (r : RecencyRing α) (now : Nat) (h : Handle) (y : SlotId) :
    (r.touch now h).2.arena.Issued y ↔ r.arena.Issued y := by
  have hstamp : ((r.arena.modify? h.slot ({ · with touched := now })).getD r.arena).Issued y ↔
      r.arena.Issued y := by
    cases ha : r.arena.modify? h.slot ({ · with touched := now }) with
    | none => rfl
    | some a => exact Arena.issued_modify? ha y
  unfold touch
  split
  · dsimp only
    split
    · exact hstamp
    · exact (issued_moveToFront _ h.slot y).trans hstamp
  · rfl

theorem issued_detach (r : RecencyRing α) (x y : SlotId) :
    (r.detach x).2.arena.Issued y ↔ r.arena.Issued y := by
  unfold detach
  split
  · rfl
  · next h => exact (Arena.issued_remove _ x y).trans (issued_of_unlink? h y)

theorem issued_remove (r : RecencyRing α) (h : Handle) (y : SlotId) :
    (r.remove h).2.arena.Issued y ↔ r.arena.Issued y := by
  unfold remove
  split
  · exact issued_detach r h.slot y
  · rfl

theorem issued_sweep (now n : Nat) (r : RecencyRing α) (y : SlotId) :
    (sweep now n r).2.arena.Issued y ↔ r.arena.Issued y := by
  induction n generalizing r with
  | zero => rfl
  | succ n ih =>
      unfold sweep
      split
      · rfl
      · split
        · exact (ih _).trans (issued_detach r _ y)
        · rfl

theorem issued_expire (r : RecencyRing α) (now : Nat) (y : SlotId) :
    (r.expire now).2.arena.Issued y ↔ r.arena.Issued y :=
  issued_sweep now r.size r y

theorem issued_clear (r : RecencyRing α) (y : SlotId) :
    r.clear.arena.Issued y ↔ r.arena.Issued y :=
  Arena.issued_clear r.arena y

end TieredCache.RecencyRing
