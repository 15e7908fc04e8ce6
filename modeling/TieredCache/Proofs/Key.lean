import TieredCache.Key.Path
import TieredCache.Key.Text
import TieredCache.Proofs.OrderedMap

/-!
# Path keys and text keys

Paths are ordered and cover one another segment by segment, texts byte by byte. In both kinds of key the
empty one covers every key, and it is the only one whose group code says nothing about the keys that it
covers: this is what `RootedKey` names, together with the laws of order and coverage.
-/

namespace TieredCache

/-! ## Sequences -/

namespace Sequence

variable {α : Type} [Ord α]

/-- The comparison of sequences decides the lexicographic order. -/
theorem compare_eq_lt_iff [LT α] [Std.LawfulEqOrd α] (hlt : ∀ a b : α, compare a b = .lt ↔ a < b)
    {as bs : List α} : compare as bs = .lt ↔ as < bs := by
  induction as generalizing bs with
  | nil =>
      cases bs with
      | nil => simp
      | cons b bs => exact iff_of_true rfl (List.nil_lt_cons b bs)
  | cons a as ih =>
      cases bs with
      | nil => exact iff_of_false nofun (List.not_lt_nil _)
      | cons b bs =>
          rw [compare_cons_cons, Ordering.then_eq_lt, List.cons_lt_cons_iff, hlt, ih,
            Std.LawfulEqOrd.compare_eq_iff_eq]

/-- A sequence that starts another one has its first part, unless it has none. -/
theorem headD_eq_of_starts [Std.LawfulEqOrd α] {p k : List α} (h : starts p k) (hp : p ≠ [])
    (a : α) : p.headD a = k.headD a := by
  obtain ⟨rest, rfl⟩ := starts_iff_isPrefix.mp h
  cases p with
  | nil => exact absurd rfl hp
  | cons b p => rfl

end Sequence

/-! ## Rooted keys -/

/-- A kind of key in which coverage is a partial order that agrees with the order of the keys, in which what
covers one key is a chain, and in which a key has the group code of everything it covers, unless it is
the root. -/
structure RootedKey (κ : Type) [Key κ] (root : κ) : Prop where
  covers_refl (k : κ) : Key.covers k k
  covers_trans {p q k : κ} : Key.covers p q → Key.covers q k → Key.covers p k
  covers_antisymm {p k : κ} : Key.covers p k → Key.covers k p → p = k
  le_of_covers {p k : κ} : Key.covers p k → (compare p k).isLE
  covers_of_between {p x k : κ} :
    Key.covers p k → (compare p x).isLE → (compare x k).isLE → Key.covers p x
  covers_or_covers {p q k : κ} : Key.covers p k → Key.covers q k → Key.covers p q ∨ Key.covers q p
  groupCode_eq {p k : κ} : p ≠ root → Key.covers p k → Key.groupCode p = Key.groupCode k

/-- Lawful keys are rooted as soon as group codes follow coverage. -/
theorem LawfulKey.rooted {κ : Type} [Key κ] [LawfulKey κ] {root : κ}
    (hcode : ∀ p k : κ, p ≠ root → Key.covers p k → Key.groupCode p = Key.groupCode k) :
    RootedKey κ root where
  covers_refl := LawfulKey.covers_refl
  covers_trans := LawfulKey.covers_trans
  covers_antisymm := OrderedKey.covers_antisymm
  le_of_covers := LawfulKey.le_of_covers
  covers_of_between := LawfulKey.covers_of_between
  covers_or_covers := OrderedMap.covers_or_covers
  groupCode_eq := hcode _ _

namespace PathKey

theorem covers_iff {p k : PathKey} : Key.covers p k ↔ p.segments <+: k.segments :=
  Sequence.starts_iff_isPrefix

theorem compare_eq_lt_iff {p k : PathKey} : compare p k = .lt ↔ p.segments < k.segments :=
  Sequence.compare_eq_lt_iff fun _ _ => Std.compare_eq_lt

theorem rooted : RootedKey PathKey ⟨[]⟩ :=
  LawfulKey.rooted fun _ _ hp hcovers =>
    congrArg some (Sequence.headD_eq_of_starts hcovers (fun hnil => hp (PathKey.ext hnil)) 0)

end PathKey

namespace TextKey

theorem covers_iff {p k : TextKey} : Key.covers p k ↔ p.bytes <+: k.bytes :=
  Sequence.starts_iff_isPrefix

theorem compare_eq_lt_iff {p k : TextKey} : compare p k = .lt ↔ p.bytes < k.bytes :=
  Sequence.compare_eq_lt_iff fun _ _ => Std.compare_eq_lt

theorem rooted : RootedKey TextKey ⟨""⟩ := by
  refine LawfulKey.rooted fun p k hp hcovers => ?_
  have hbytes : p.bytes ≠ [] := fun hnil => hp (bytes_injective p ⟨""⟩ hnil)
  exact congrArg (fun b => some b.toUInt32) (Sequence.headD_eq_of_starts hcovers hbytes 0)

end TextKey

end TieredCache
