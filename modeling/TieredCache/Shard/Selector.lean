import TieredCache.Key

/-!
# Choice of a shard

A selector spreads group codes over a fixed positive number of shards by remainder. A key without a
code has no shard.
-/

namespace TieredCache

/-- A positive number of shards. -/
structure ShardSelector where
  count : Nat
  count_pos : 0 < count

namespace ShardSelector

/-- The selector for `n` shards, or for a single one when `n` is zero. -/
def ofCount (n : Nat) : ShardSelector :=
  ⟨max n 1, by omega⟩

instance : Inhabited ShardSelector :=
  ⟨ofCount 1⟩

/-- The shard of a group code. -/
def ofCode (s : ShardSelector) (code : Option UInt32) : Option (Fin s.count) :=
  code.map fun c => ⟨c.toNat % s.count, Nat.mod_lt _ s.count_pos⟩

/-- The shard of a key. -/
def ofKey {κ : Type} [Key κ] (s : ShardSelector) (k : κ) : Option (Fin s.count) :=
  s.ofCode (Key.groupCode k)

end ShardSelector

end TieredCache
