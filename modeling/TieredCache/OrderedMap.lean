import TieredCache.Key

/-!
# Ordered maps

A finite map as the list of its entries in strictly increasing order of their keys. Besides looking
up, inserting and erasing it answers two walks: `under p` starts at the first key not before `p` and
stops at the first one that `p` does not cover, and `floor? k` is the last entry not after `k`.
-/

namespace TieredCache

/-- The entries of a finite map, in strictly increasing order of their keys. -/
structure OrderedMap (κ ν : Type) [Ord κ] where
  entries : List (κ × ν)
  ordered : entries.Pairwise fun a b => compare a.1 b.1 = .lt

namespace OrderedMap

variable {κ ν : Type}

section Order

variable [Ord κ]

/-- The map without entries. -/
def empty : OrderedMap κ ν :=
  ⟨[], .nil⟩

/-- The number of entries. -/
def size (m : OrderedMap κ ν) : Nat :=
  m.entries.length

/-- The keys, in increasing order. -/
def keys (m : OrderedMap κ ν) : List κ :=
  m.entries.map (·.1)

/-- The values, in the order of their keys. -/
def values (m : OrderedMap κ ν) : List ν :=
  m.entries.map (·.2)

/-- The value stored under `k`. -/
def find? (m : OrderedMap κ ν) (k : κ) : Option ν :=
  (m.entries.find? fun e => (compare e.1 k).isEq).map (·.2)

/-- The greatest entry whose key is not after `k`. -/
def floor? (m : OrderedMap κ ν) (k : κ) : Option (κ × ν) :=
  (m.entries.takeWhile fun e => (compare e.1 k).isLE).getLast?

/-- The map without the entry of `k`. -/
def erase (m : OrderedMap κ ν) (k : κ) : OrderedMap κ ν :=
  ⟨m.entries.filter fun e => !(compare e.1 k).isEq, m.ordered.filter _⟩

/-- Ordered insertion: an entry with the same key takes the new value. -/
def place (k : κ) (v : ν) : List (κ × ν) → List (κ × ν)
  | [] => [(k, v)]
  | e :: rest =>
    match compare k e.1 with
    | .lt => (k, v) :: e :: rest
    | .eq => (e.1, v) :: rest
    | .gt => e :: place k v rest

theorem mem_place {k : κ} {v : ν} {e : κ × ν} {entries : List (κ × ν)} (h : e ∈ place k v entries) :
    e.1 = k ∨ ∃ e' ∈ entries, e'.1 = e.1 := by
  induction entries with
  | nil => simp_all [place]
  | cons head rest ih =>
      rw [place] at h
      split at h <;> grind

theorem pairwise_place [Std.TransOrd κ] (k : κ) (v : ν) {entries : List (κ × ν)}
    (h : entries.Pairwise fun a b => compare a.1 b.1 = .lt) :
    (place k v entries).Pairwise fun a b => compare a.1 b.1 = .lt := by
  induction entries with
  | nil => simp [place]
  | cons head rest ih =>
      rw [List.pairwise_cons] at h
      rw [place]
      split
      next hlt =>
        refine .cons (fun e he => ?_) (.cons h.1 h.2)
        rcases List.mem_cons.mp he with rfl | he
        · exact hlt
        · exact Std.TransCmp.lt_trans hlt (h.1 e he)
      next => exact .cons h.1 h.2
      next hgt =>
        refine .cons (fun e he => ?_) (ih h.2)
        rcases mem_place he with hk | ⟨e', he', hk⟩
        · rw [hk]
          exact Std.OrientedCmp.lt_of_gt hgt
        · rw [← hk]
          exact h.1 e' he'

/-- The map with `v` under `k`, in place of what was there. -/
def insert [Std.TransOrd κ] (m : OrderedMap κ ν) (k : κ) (v : ν) : OrderedMap κ ν :=
  ⟨place k v m.entries, pairwise_place k v m.ordered⟩

/-- The map of a list of entries, a later one taking the place of an earlier one with its key. -/
def ofList [Std.TransOrd κ] (entries : List (κ × ν)) : OrderedMap κ ν :=
  entries.foldl (fun m e => m.insert e.1 e.2) empty

/-! ## What each operation does to a look-up -/

@[simp]
theorem find?_empty (k : κ) : (empty : OrderedMap κ ν).find? k = none :=
  rfl

theorem find?_erase [Std.TransOrd κ] (m : OrderedMap κ ν) (k x : κ) :
    (m.erase k).find? x = if compare k x = .eq then none else m.find? x := by
  simp only [find?, erase, List.find?_filter]
  split
  next h =>
    rw [Option.map_eq_none_iff, List.find?_eq_none]
    intro e _ he
    simp only [Bool.not_eq_true', decide_eq_true_eq, Ordering.isEq_iff_eq_eq] at he
    have hk : compare e.1 k = .eq := Std.TransCmp.eq_trans he.2 (Std.OrientedCmp.eq_symm h)
    simp [hk] at he
  next h =>
    congr 2
    funext e
    cases he : compare e.1 x <;> simp
    intro hk
    exact h (Std.TransCmp.eq_trans (Std.OrientedCmp.eq_symm hk) he)

theorem find?_place [Std.TransOrd κ] (k x : κ) (v : ν) (entries : List (κ × ν)) :
    ((place k v entries).find? fun e => (compare e.1 x).isEq).map (·.2) =
      if compare k x = .eq then some v
      else (entries.find? fun e => (compare e.1 x).isEq).map (·.2) := by
  induction entries with
  | nil => cases h : compare k x <;> simp [place, h]
  | cons e rest ih =>
      rw [place]
      split
      next => cases h : compare k x <;> simp [List.find?_cons, h]
      next hk =>
        have hx : compare e.1 x = compare k x := (Std.TransCmp.congr_left hk).symm
        cases h : compare k x <;> simp [hx, h]
      next hk =>
        cases he : compare e.1 x
        case eq =>
          have hne : compare k x ≠ .eq := fun h => by
            have := Std.TransCmp.eq_trans h (Std.OrientedCmp.eq_symm he)
            simp [this] at hk
          simp [he, hne]
        all_goals simpa [List.find?_cons, he] using ih

@[simp]
theorem find?_insert [Std.TransOrd κ] (m : OrderedMap κ ν) (k x : κ) (v : ν) :
    (m.insert k v).find? x = if compare k x = .eq then some v else m.find? x :=
  find?_place k x v m.entries

end Order

variable [Key κ]

/-- The entries that `p` covers: a walk from the first key not before `p` to the first one that `p`
does not cover. -/
def under (m : OrderedMap κ ν) (p : κ) : List (κ × ν) :=
  (m.entries.dropWhile fun e => (compare e.1 p).isLT).takeWhile fun e => Key.covers p e.1

/-- The entry whose key covers `k`, sought at the greatest key not after `k` alone. -/
def covering? (m : OrderedMap κ ν) (k : κ) : Option (κ × ν) :=
  (m.floor? k).filter fun e => Key.covers e.1 k

end OrderedMap

end TieredCache
