import TieredCache.Coverage
import TieredCache.Proofs.OrderedMap

/-!
# How many keys are stored

A certification that tells of a new key stores one key more at most, and nothing else that is asked of
the certified ranges stores any.
-/

namespace TieredCache

namespace OrderedMap

variable {κ ν : Type} [Ord κ]

theorem size_erase_le (m : OrderedMap κ ν) (k : κ) : (m.erase k).size ≤ m.size :=
  List.length_filter_le _ _

theorem size_foldl_erase_le {α : Type} (key : α → κ) (gone : List α) (m : OrderedMap κ ν) :
    (gone.foldl (fun m a => m.erase (key a)) m).size ≤ m.size := by
  induction gone generalizing m with
  | nil => exact Nat.le_refl _
  | cons a rest ih => exact (ih _).trans (m.size_erase_le (key a))

theorem length_place_le (k : κ) (v : ν) (entries : List (κ × ν)) :
    (place k v entries).length ≤ entries.length + 1 := by
  induction entries with
  | nil => simp [place]
  | cons e rest ih =>
      rw [place]
      split
      next => simp
      next => simp
      next => simpa using ih

theorem size_insert_le [Std.TransOrd κ] (m : OrderedMap κ ν) (k : κ) (v : ν) :
    (m.insert k v).size ≤ m.size + 1 :=
  length_place_le k v m.entries

end OrderedMap

variable {κ : Type} [Key κ]

theorem PermanentCoverage.size_add_le (c : PermanentCoverage κ) (k : κ) :
    (c.add k).2.size ≤ c.size + (c.add k).1.toNat := by
  rw [add]
  split
  next => exact Nat.le_refl _
  next =>
    apply (OrderedMap.size_insert_le _ _ _).trans
    exact Nat.add_le_add_right (OrderedMap.size_foldl_erase_le (fun e : κ × Unit => e.1) _ c.index) 1

namespace AgingCoverage

theorem size_expire_le (c : AgingCoverage κ) (now : Nat) : (c.expire now).size ≤ c.size :=
  OrderedMap.size_foldl_erase_le id _ c.index

theorem size_covers_le (c : AgingCoverage κ) (now : Nat) (k : κ) (refresh : Bool) :
    (c.covers now k refresh).2.size ≤ c.size := by
  apply Nat.le_trans _ (c.size_expire_le now)
  rw [covers]
  split
  next => exact Nat.le_refl _
  next => cases refresh <;> exact Nat.le_refl _

theorem size_discards_le (gone : List (κ × Handle)) (c : AgingCoverage κ) :
    (gone.foldl discard c).size ≤ c.size := by
  induction gone generalizing c with
  | nil => exact Nat.le_refl _
  | cons e rest ih => exact (ih _).trans (c.index.size_erase_le e.1)

theorem size_add_le (c : AgingCoverage κ) (now : Nat) (k : κ) :
    (c.add now k).2.size ≤ c.size + (c.add now k).1.toNat := by
  apply Nat.le_trans _ (Nat.add_le_add_right (c.size_expire_le now) _)
  rw [add]
  split
  next => exact Nat.le_refl _
  next =>
    apply (OrderedMap.size_insert_le _ _ _).trans
    exact Nat.add_le_add_right (size_discards_le _ (c.expire now)) 1

end AgingCoverage

namespace Coverage

theorem size_empty (canonical : Bool) (ttl : Duration) :
    (empty canonical ttl : Coverage κ).size = 0 := by
  cases canonical <;> rfl

theorem size_covers_le (c : Coverage κ) (now : Nat) (k : κ) (refresh : Bool) :
    (c.covers now k refresh).2.size ≤ c.size := by
  cases c with
  | permanent c => exact Nat.le_refl _
  | aging c => exact c.size_covers_le now k refresh

theorem size_add_le (c : Coverage κ) (now : Nat) (k : κ) :
    (c.add now k).2.size ≤ c.size + (c.add now k).1.toNat := by
  cases c with
  | permanent c => exact c.size_add_le k
  | aging c => exact c.size_add_le now k

end Coverage

end TieredCache
