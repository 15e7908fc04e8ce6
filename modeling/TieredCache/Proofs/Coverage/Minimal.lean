import TieredCache.Key.Path
import TieredCache.Proofs.Coverage.Permanent

/-!
# Permanent certifications in any order

Whatever keys are certified one after the other, those that stay are the minimal ones: the certified
keys that no other certified key covers. They depend on which keys were certified and not on when or
how often, and they cover what the certified keys cover.
-/

namespace TieredCache.PermanentCoverage

variable {κ : Type} [Key κ] {c : PermanentCoverage κ} {keys : List κ} {k : κ}

/-- Certifies keys one after the other; of each, whether it was not covered before. -/
def addAll (c : PermanentCoverage κ) : List κ → List Bool × PermanentCoverage κ
  | [] => ([], c)
  | k :: rest =>
    let (fresh, c) := c.add k
    let (answers, c) := c.addAll rest
    (fresh :: answers, c)

theorem addAll_cons (c : PermanentCoverage κ) (k : κ) (rest : List κ) :
    c.addAll (k :: rest) =
      ((c.add k).1 :: ((c.add k).2.addAll rest).1, ((c.add k).2.addAll rest).2) :=
  rfl

theorem length_addAll (c : PermanentCoverage κ) (keys : List κ) :
    (c.addAll keys).1.length = keys.length := by
  induction keys generalizing c with
  | nil => rfl
  | cons k rest ih => rw [addAll_cons, List.length_cons, ih, List.length_cons]

theorem addAll_append (c : PermanentCoverage κ) (before after : List κ) :
    c.addAll (before ++ after) =
      ((c.addAll before).1 ++ ((c.addAll before).2.addAll after).1,
        ((c.addAll before).2.addAll after).2) := by
  induction before generalizing c with
  | nil => rfl
  | cons k rest ih => rw [List.cons_append, addAll_cons, ih, addAll_cons, List.cons_append]

/-- The stored keys stand for certified ones: none covers another, each is one of the certified keys,
and together they cover what the certified keys cover. -/
structure StandsFor (c : PermanentCoverage κ) (keys : List κ) : Prop where
  antichain : c.index.Antichain
  certified : ∀ k, (c.index.find? k).isSome → k ∈ keys
  covers_iff : ∀ k, c.covers k = true ↔ ∃ a ∈ keys, Key.covers a k

theorem standsFor_empty : (empty : PermanentCoverage κ).StandsFor [] where
  antichain := antichain_empty
  certified k hk := by simp [empty] at hk
  covers_iff k := by simp [covers, empty, OrderedMap.covering?, OrderedMap.floor?, OrderedMap.empty]

variable [LawfulKey κ]

namespace StandsFor

theorem add (h : c.StandsFor keys) (k : κ) : (c.add k).2.StandsFor (keys ++ [k]) where
  antichain := antichain_add h.antichain k
  certified x hx := by
    cases hk : c.covers k with
    | true =>
        rw [add_of_covers hk] at hx
        exact List.mem_append_left _ (h.certified x hx)
    | false =>
        rcases of_isSome_find?_add hk hx with rfl | ⟨hx, -⟩
        · exact List.mem_append_right _ List.mem_cons_self
        · exact List.mem_append_left _ (h.certified x hx)
  covers_iff x := by
    rw [covers_add_iff h.antichain, h.covers_iff]
    constructor
    · rintro (⟨a, ha, hcov⟩ | hcov)
      · exact ⟨a, List.mem_append_left _ ha, hcov⟩
      · exact ⟨k, List.mem_append_right _ List.mem_cons_self, hcov⟩
    · rintro ⟨a, ha, hcov⟩
      rcases List.mem_append.mp ha with ha | ha
      · exact .inl ⟨a, ha, hcov⟩
      · rw [List.mem_singleton.mp ha] at hcov
        exact .inr hcov

theorem addAll (h : c.StandsFor keys) (more : List κ) :
    (c.addAll more).2.StandsFor (keys ++ more) := by
  induction more generalizing c keys with
  | nil =>
      rw [List.append_nil]
      exact h
  | cons k rest ih =>
      rw [List.append_cons]
      exact ih (h.add k)

omit [LawfulKey κ] in
/-- A key is fresh when no certified key covers it. -/
theorem fst_add (h : c.StandsFor keys) (k : κ) :
    (c.add k).1 = decide (∀ a ∈ keys, ¬ Key.covers a k) := by
  have hcovers : c.covers k = true ↔ ¬ ∀ a ∈ keys, ¬ Key.covers a k := by
    rw [h.covers_iff]
    push Not
    rfl
  rw [PermanentCoverage.fst_add, Bool.eq_iff_iff, Bool.not_eq_true', decide_eq_true_iff,
    ← Bool.not_eq_true, hcovers, not_not]

/-- The stored keys are the minimal ones. -/
theorem mem_keys_iff (h : c.StandsFor keys) :
    k ∈ c.keys ↔ k ∈ keys ∧ ∀ a ∈ keys, Key.covers a k → a = k := by
  have hstored {x : κ} (hx : x ∈ keys) : ∃ p, (c.index.find? p).isSome ∧ Key.covers p x :=
    (PermanentCoverage.covers_iff h.antichain).mp
      ((h.covers_iff x).mpr ⟨x, hx, LawfulKey.covers_refl x⟩)
  rw [PermanentCoverage.keys, OrderedMap.mem_keys_iff]
  constructor
  · intro hk
    refine ⟨h.certified k hk, fun a ha hak => ?_⟩
    -- What covers `a` covers `k` as well, and so is `k` itself.
    obtain ⟨p, hp, hpa⟩ := hstored ha
    have hpk : p = k := h.antichain p k hp hk (LawfulKey.covers_trans hpa hak)
    rw [hpk] at hpa
    exact OrderedKey.covers_antisymm hak hpa
  · rintro ⟨hk, hminimal⟩
    obtain ⟨p, hp, hpk⟩ := hstored hk
    rw [← hminimal p (h.certified p hp) hpk]
    exact hp

theorem keys_eq {c' : PermanentCoverage κ} {others : List κ} (h : c.StandsFor keys)
    (h' : c'.StandsFor others) (hsame : ∀ k, k ∈ others ↔ k ∈ keys) : c'.keys = c.keys := by
  apply OrderedMap.keys_eq_of_isSome_iff
  intro k
  rw [← OrderedMap.mem_keys_iff, ← OrderedMap.mem_keys_iff]
  calc k ∈ c'.keys ↔ k ∈ others ∧ ∀ a ∈ others, Key.covers a k → a = k := h'.mem_keys_iff
    _ ↔ k ∈ keys ∧ ∀ a ∈ keys, Key.covers a k → a = k := by simp only [hsame]
    _ ↔ k ∈ c.keys := h.mem_keys_iff.symm

end StandsFor

theorem standsFor_addAll (keys : List κ) : (empty.addAll keys).2.StandsFor keys :=
  standsFor_empty.addAll keys

/-- Keys certified one after the other leave, in key order, those that no other of them covers; the
order of the certifications and repetitions among them do not matter. What is covered is what one of
them covers, and a certification finds its key fresh when no earlier one covers it. -/
theorem keys_addAll (keys : List κ) :
    ((empty.addAll keys).2.keys.Pairwise fun a b => compare a b = .lt) ∧
    (∀ k, k ∈ (empty.addAll keys).2.keys ↔ k ∈ keys ∧ ∀ a ∈ keys, Key.covers a k → a = k) ∧
    (∀ others : List κ, (∀ k, k ∈ others ↔ k ∈ keys) →
      (empty.addAll others).2.keys = (empty.addAll keys).2.keys) ∧
    (∀ k, (empty.addAll keys).2.covers k = true ↔ ∃ a ∈ keys, Key.covers a k) ∧
    ∀ before k after, keys = before ++ k :: after →
      (empty.addAll keys).1[before.length]? =
        some (decide (∀ a ∈ before, ¬ Key.covers a k)) := by
  have h := standsFor_addAll keys
  refine ⟨OrderedMap.pairwise_keys _, fun k => h.mem_keys_iff, fun others hsame => ?_,
    h.covers_iff, ?_⟩
  · exact h.keys_eq (standsFor_addAll others) hsame
  · rintro before k after rfl
    rw [addAll_append, addAll_cons, List.getElem?_append_right (length_addAll _ _).symm.ge,
      length_addAll, Nat.sub_self, List.getElem?_cons_zero, (standsFor_addAll before).fst_add]

/-- `[1]` takes the place of `[1, 2]`, which is not certified again. -/
theorem keys_addAll_paths :
    let keys : List PathKey := [⟨[1, 2]⟩, ⟨[3]⟩, ⟨[1]⟩, ⟨[1, 2]⟩, ⟨[1]⟩]
    (empty.addAll keys).1 = [true, true, true, false, false] ∧
      (empty.addAll keys).2.keys = [⟨[1]⟩, ⟨[3]⟩] ∧
      (empty.addAll keys.reverse).2.keys = (empty.addAll keys).2.keys ∧
      ∀ k, (empty.addAll keys).2.covers k = true ↔ ∃ a ∈ keys, Key.covers a k := by
  intro keys
  obtain ⟨-, -, hsame, hcovers, -⟩ := keys_addAll keys
  have hreverse (k : PathKey) : k ∈ keys.reverse ↔ k ∈ keys := List.mem_reverse
  exact ⟨by decide +kernel, by decide +kernel, hsame keys.reverse hreverse, hcovers⟩

end TieredCache.PermanentCoverage
