import TieredCache.Key

/-!
# Keys that are sequences of parts

A key made of parts is ordered part by part, a shorter sequence before its extensions, and one
sequence covers another when it starts it. The main statement is `lawfulKey`: this order and this
coverage agree in the way `LawfulKey` asks for, whatever the order of the parts.
-/

namespace TieredCache.Sequence

variable {α : Type} [Ord α]

/-- `starts p k` holds when the parts of `p` are the first parts of `k`. -/
def starts : List α → List α → Bool
  | [], _ => true
  | _ :: _, [] => false
  | a :: p, b :: k => (compare a b).isEq && starts p k

theorem compare_cons_cons (a b : α) (as bs : List α) :
    compare (a :: as) (b :: bs) = (compare a b).then (compare as bs) := by
  change List.compareLex compare (a :: as) (b :: bs) = _
  rw [List.compareLex]
  cases compare a b <;> rfl

theorem starts_iff_isPrefix [Std.LawfulEqOrd α] {p k : List α} : starts p k ↔ p <+: k := by
  induction p generalizing k with
  | nil => simp [starts]
  | cons a p ih =>
      cases k with
      | nil => simp [starts]
      | cons b k => simp [starts, ih, List.cons_prefix_cons, Ordering.isEq_iff_eq_eq]

theorem le_of_starts {p k : List α} (h : starts p k) : (compare p k).isLE := by
  induction p generalizing k with
  | nil => cases k <;> rfl
  | cons a p ih =>
      cases k with
      | nil => simp [starts] at h
      | cons b k =>
          simp only [starts, Bool.and_eq_true, Ordering.isEq_iff_eq_eq] at h
          rw [compare_cons_cons, h.1]
          exact ih h.2

theorem starts_of_between [Std.TransOrd α] [Std.LawfulEqOrd α] {p x k : List α}
    (h : starts p k) (hpx : (compare p x).isLE) (hxk : (compare x k).isLE) : starts p x := by
  induction p generalizing x k with
  | nil => rfl
  | cons a p ih =>
      cases k with
      | nil => simp [starts] at h
      | cons b k =>
          cases x with
          | nil => cases hpx
          | cons c x =>
              simp only [starts, Bool.and_eq_true, Ordering.isEq_iff_eq_eq] at h
              obtain rfl := Std.LawfulEqOrd.eq_of_compare h.1
              rw [compare_cons_cons] at hpx hxk
              have hac : compare a c = .eq := by
                have swap := Std.OrientedOrd.eq_swap (a := a) (b := c)
                revert hpx hxk
                cases hca : compare c a <;> rw [hca] at swap <;> simp [swap]
              obtain rfl := Std.LawfulEqOrd.eq_of_compare hac
              simp only [hac] at hpx hxk
              simp only [starts, hac]
              exact ih h.2 hpx hxk

variable {κ : Type} (parts : κ → List α) (parts_inj : ∀ a b, parts a = parts b → a = b)
  (groupCode : κ → Option UInt32) (text : κ → String)

/-- The kind of key that is determined by its parts, in the order and with the coverage of sequences. -/
@[reducible]
def key [Std.TransOrd α] [Std.LawfulEqOrd α] : Key κ where
  compare a b := compare (parts a) (parts b)
  eq_swap {a b} := Std.OrientedOrd.eq_swap (a := parts a) (b := parts b)
  isLE_trans {a b c} := Std.TransOrd.isLE_trans (a := parts a) (b := parts b) (c := parts c)
  compare_self {a} := Std.ReflOrd.compare_self (a := parts a)
  eq_of_compare {a b} h := parts_inj a b (Std.LawfulEqOrd.eq_of_compare h)
  covers p k := starts (parts p) (parts k)
  groupCode := groupCode
  text := text

theorem lawfulKey [Std.TransOrd α] [Std.LawfulEqOrd α] :
    @LawfulKey κ (key parts parts_inj groupCode text) := by
  let _ := key parts parts_inj groupCode text
  exact {
    covers_refl k := starts_iff_isPrefix.mpr (List.prefix_refl (parts k))
    covers_trans h h' := starts_iff_isPrefix.mpr
      ((starts_iff_isPrefix.mp h).trans (starts_iff_isPrefix.mp h'))
    le_of_covers := le_of_starts
    covers_of_between := starts_of_between }

end TieredCache.Sequence
