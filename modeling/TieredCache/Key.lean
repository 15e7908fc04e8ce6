/-!
# Keys

A key is a point of a linear order that also knows which keys lie below it: `covers p k` says that
`p` is a leading part of `k`. Its group code decides which shard holds it; a key without a code is
never cached. `OrderedKey` is what order and coverage owe each other, so that everything under a key
is one contiguous stretch of the order that begins at the key itself. `LawfulKey` asks besides that
coverage be transitive.
-/

namespace TieredCache

/-- A kind of key: a lawful linear order with a coverage relation, a group code and a printed form. -/
class Key (κ : Type) extends Ord κ, Std.TransOrd κ, Std.LawfulEqOrd κ where
  /-- `covers p k` holds when `p` is a leading part of `k`. -/
  covers : κ → κ → Bool
  /-- The number that picks a key's shard; a key without one opts out of caching. -/
  groupCode : κ → Option UInt32
  /-- The form in which a key appears in messages. -/
  text : κ → String

/-- The agreement of order and coverage: coverage is a partial order, a covering key comes first, and
whatever lies between a key and something it covers is covered too. -/
class LawfulKey (κ : Type) [Key κ] : Prop where
  covers_refl (k : κ) : Key.covers k k
  covers_trans {p q k : κ} : Key.covers p q → Key.covers q k → Key.covers p k
  le_of_covers {p k : κ} : Key.covers p k → (compare p k).isLE
  covers_of_between {p x k : κ} :
    Key.covers p k → (compare p x).isLE → (compare x k).isLE → Key.covers p x

/-- The agreement of order and coverage alone: a key covers itself, a covering key comes first, and
whatever lies between a key and something it covers is covered too. Coverage need not be transitive. -/
class OrderedKey (κ : Type) [Key κ] : Prop where
  covers_refl (k : κ) : Key.covers k k
  le_of_covers {p k : κ} : Key.covers p k → (compare p k).isLE
  covers_of_between {p x k : κ} :
    Key.covers p k → (compare p x).isLE → (compare x k).isLE → Key.covers p x

instance {κ : Type} [Key κ] [LawfulKey κ] : OrderedKey κ where
  covers_refl := LawfulKey.covers_refl
  le_of_covers := LawfulKey.le_of_covers
  covers_of_between := LawfulKey.covers_of_between

/-- What a walk through the keys that a key covers needs: a covering key comes first, and whatever lies
between a key and something it covers is covered too. -/
class ContiguousKey (κ : Type) [Key κ] : Prop where
  le_of_covers {p k : κ} : Key.covers p k → (compare p k).isLE
  covers_of_between {p x k : κ} :
    Key.covers p k → (compare p x).isLE → (compare x k).isLE → Key.covers p x

instance {κ : Type} [Key κ] [OrderedKey κ] : ContiguousKey κ where
  le_of_covers := OrderedKey.le_of_covers
  covers_of_between := OrderedKey.covers_of_between

theorem OrderedKey.covers_antisymm {κ : Type} [Key κ] [OrderedKey κ] {p k : κ}
    (hpk : Key.covers p k) (hkp : Key.covers k p) : p = k :=
  Std.LawfulEqCmp.eq_of_compare
    (Std.OrientedCmp.isLE_antisymm (le_of_covers hpk) (le_of_covers hkp))

end TieredCache
