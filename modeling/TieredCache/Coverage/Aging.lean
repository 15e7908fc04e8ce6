import TieredCache.OrderedMap
import TieredCache.RecencyRing

/-!
# Aging certifications

The set of keys under which everything is known to be cached, each of which lapses when it has not
been refreshed for longer than a lifetime. The rules of permanent certifications hold among the keys
that are stored. Every question sweeps first, so a lapsed key never answers.
-/

namespace TieredCache

/-- Handles by stored key, and the ring of keys that issued them. -/
structure AgingCoverage (κ : Type) [Key κ] where
  index : OrderedMap κ Handle
  ring : RecencyRing κ

namespace AgingCoverage

variable {κ : Type} [Key κ]

/-- Nothing is certified. The handles never leave this set, so the name of its ring does not matter. -/
def empty (ttl : Duration) : AgingCoverage κ :=
  ⟨.empty, .empty 0 ttl⟩

/-- The stored keys in increasing order, lapsed ones that no sweep has met included. -/
def keys (c : AgingCoverage κ) : List κ :=
  c.index.keys

/-- The number of stored keys. -/
def size (c : AgingCoverage κ) : Nat :=
  c.index.size

/-- The lifetime of a certification. -/
def ttl (c : AgingCoverage κ) : Duration :=
  c.ring.ttl

/-- Drops the keys that have outlived their lifetime. -/
def expire (c : AgingCoverage κ) (now : Nat) : AgingCoverage κ :=
  let (lapsed, ring) := c.ring.expire now
  ⟨lapsed.foldl (fun m k => m.erase k) c.index, ring⟩

/-- Sweeps, then tells whether a stored key covers `k`, and refreshes that key if asked to. -/
def covers (c : AgingCoverage κ) (now : Nat) (k : κ) (refresh : Bool) : Bool × AgingCoverage κ :=
  let c := c.expire now
  match c.index.covering? k with
  | none => (false, c)
  | some (_, handle) =>
    (true, if refresh then { c with ring := (c.ring.touch now handle).2 } else c)

/-- Drops one stored key. -/
def discard (c : AgingCoverage κ) (e : κ × Handle) : AgingCoverage κ :=
  ⟨c.index.erase e.1, (c.ring.remove e.2).2⟩

/-- Sweeps, then certifies a key, in place of the keys it covers; whether it was not covered before. -/
def add (c : AgingCoverage κ) (now : Nat) (k : κ) : Bool × AgingCoverage κ :=
  let c := c.expire now
  if (c.index.covering? k).isSome then (false, c)
  else
    let c := (c.index.under k).foldl discard c
    let (handle, ring) := c.ring.add now k
    (true, ⟨c.index.insert k handle, ring⟩)

end AgingCoverage

end TieredCache
