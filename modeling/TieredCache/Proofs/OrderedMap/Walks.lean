import TieredCache.Proofs.OrderedMap

/-!
# Which kinds of key can be walked

A walk under `p` starts at the first key that is not before `p` and stops at the first one that `p` does
not cover. The main statement is `under_exact_iff_contiguous`: it meets exactly the entries that `p` covers,
in every map and for every `p`, just when covering keys come first and what a key covers is contiguous.
-/

namespace TieredCache.OrderedMap

variable {κ ν : Type} [Key κ]

/-- The map with one entry. -/
def single (k : κ) (v : ν) : OrderedMap κ ν :=
  ⟨[(k, v)], List.pairwise_singleton _ _⟩

/-- The map with two entries. -/
def pair {k x : κ} (h : compare k x = .lt) (v w : ν) : OrderedMap κ ν :=
  ⟨[(k, v), (x, w)], List.pairwise_pair.mpr h⟩

/-- A walk does not meet an entry that comes before its start. -/
theorem under_single_of_lt {p k : κ} (h : compare k p = .lt) (v : ν) : (single k v).under p = [] := by
  simp [under, single, h]

/-- A walk does not meet an entry that comes after one that `p` does not cover. -/
theorem under_pair_of_not_covers {p k x : κ} (h : compare k x = .lt) (hpk : (compare p k).isLE)
    (hnot : ¬ Key.covers p k) (v w : ν) : (pair h v w).under p = [] := by
  have hfrom : ¬ (compare k p).isLT := by
    have hswap : compare p k = (compare k p).swap := Std.OrientedCmp.eq_swap
    cases hc : compare k p <;> simp_all
  simp [under, pair, hfrom, hnot]

/-- Maps of one and two entries tell whether a kind of key is contiguous. -/
theorem contiguous_of_covers_imp_mem_under
    (h : ∀ (m : OrderedMap κ Unit) (p k : κ), (k, ()) ∈ m.entries → Key.covers p k →
      (k, ()) ∈ m.under p) : ContiguousKey κ where
  le_of_covers {p k} hcov := by
    by_contra hle
    have hlt : compare k p = .lt := by
      have hswap : compare k p = (compare p k).swap := Std.OrientedCmp.eq_swap
      cases hc : compare p k <;> simp_all
    have hmem := h (single k ()) p k List.mem_cons_self hcov
    rw [under_single_of_lt hlt] at hmem
    cases hmem
  covers_of_between {p x k} hcov hpx hxk := by
    by_contra hnot
    cases hc : compare x k with
    | lt =>
        have hmem := h (pair hc () ()) p k (List.mem_cons_of_mem _ List.mem_cons_self) hcov
        rw [under_pair_of_not_covers hc hpx hnot] at hmem
        cases hmem
    | eq => exact hnot (Std.LawfulEqCmp.eq_of_compare hc ▸ hcov)
    | gt => simp [hc] at hxk

/-- A kind of key is contiguous just when every walk in every map meets exactly the entries that its key
covers: it is the filter of all entries, each of them met once and in strictly increasing order. -/
theorem under_exact_iff_contiguous :
    ContiguousKey κ ↔ ∀ (ν : Type) (m : OrderedMap κ ν) (p : κ),
      (m.under p = m.entries.filter fun e => Key.covers p e.1) ∧
        (∀ k v, (k, v) ∈ m.under p ↔ m.find? k = some v ∧ Key.covers p k) ∧
        ((m.under p).map (·.1)).Nodup ∧
        (m.under p).Pairwise fun a b => compare a.1 b.1 = .lt := by
  constructor
  · intro hκ ν m p
    exact ⟨under_eq_filter, fun k v => mem_under_iff, nodup_keys_under p, pairwise_under p⟩
  · intro hwalks
    refine contiguous_of_covers_imp_mem_under fun m p k hmem hcov => ?_
    obtain ⟨-, hiff, -⟩ := hwalks Unit m p
    exact (hiff k ()).mpr ⟨find?_eq_some_iff.mpr hmem, hcov⟩

end TieredCache.OrderedMap
