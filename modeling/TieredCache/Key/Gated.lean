import TieredCache.Key.Path

/-!
# Gated keys

A gated key has the segments, the order and the coverage of a path, but a first segment of zero
keeps it out of every cache. The empty gated key is cached, with code zero.
-/

namespace TieredCache

/-- A path whose first segment decides whether it may be cached. -/
@[ext]
structure GatedKey where
  segments : List UInt32
  deriving DecidableEq

namespace GatedKey

/-- The group code: none behind a closed gate, which is a first segment of zero. -/
def code? (k : GatedKey) : Option UInt32 :=
  match k.segments with
  | [] => some 0
  | first :: _ => if first = 0 then none else some first

instance : Key GatedKey :=
  Sequence.key segments (fun _ _ => GatedKey.ext) code?
    (fun k => "GatedKey(" ++ PathKey.bracketed k.segments ++ ")")

instance : LawfulKey GatedKey :=
  Sequence.lawfulKey segments (fun _ _ => GatedKey.ext) _ _

end GatedKey

end TieredCache
