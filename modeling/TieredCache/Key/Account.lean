import TieredCache.Key.Sequence

/-!
# Account keys

An account key names every account, the accounts of a region, or one account. The parts that it
gives are compared in turn, so a region comes before its accounts and covers them. The region is the
group code, and accounts of a negative region are never cached.
-/

namespace TieredCache

/-- A key that names accounts, by region and number. -/
inductive AccountKey where
  | every
  | within (region : Int32)
  | numbered (region number : Int32)
  deriving DecidableEq

namespace AccountKey

/-- The parts that the key gives. -/
def parts : AccountKey → List Int32
  | every => []
  | within region => [region]
  | numbered region number => [region, number]

/-- The key with the given parts, if there are at most two. -/
def ofParts? : List Int32 → Option AccountKey
  | [] => some every
  | [region] => some (within region)
  | [region, number] => some (numbered region number)
  | _ => none

@[simp]
theorem ofParts?_parts (k : AccountKey) : ofParts? k.parts = some k := by
  cases k <;> rfl

theorem parts_injective (a b : AccountKey) (h : a.parts = b.parts) : a = b := by
  simpa using congrArg ofParts? h

/-- The region, zero when the key names every account. -/
def region (k : AccountKey) : Int32 :=
  k.parts.headD 0

/-- The number within the region, zero when the key gives none. -/
def number (k : AccountKey) : Int32 :=
  k.parts.getD 1 0

/-- The region as group code, none when it is negative. -/
def code? (k : AccountKey) : Option UInt32 :=
  if 0 ≤ k.region then some k.region.toUInt32 else none

/-- All three numbers of a key: region, number and how many of the two count. -/
def text (k : AccountKey) : String :=
  "AccountKey \x7b region: " ++ toString k.region.toInt ++ ", number: " ++ toString k.number.toInt
    ++ ", significant: " ++ toString k.parts.length ++ " \x7d"

instance : Key AccountKey :=
  Sequence.key parts parts_injective code? text

instance : LawfulKey AccountKey :=
  Sequence.lawfulKey parts parts_injective _ _

end AccountKey

end TieredCache
