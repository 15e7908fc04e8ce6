import TieredCache.Key.Sequence

/-!
# Path keys

A path is a sequence of segments. Its first segment is its group code, and the empty path, which
covers every path, has code zero.
-/

namespace TieredCache

/-- A key made of numbered segments. -/
@[ext]
structure PathKey where
  segments : List UInt32
  deriving DecidableEq

namespace PathKey

/-- Segments between brackets, separated by commas. -/
def bracketed (segments : List UInt32) : String :=
  "[" ++ ", ".intercalate (segments.map fun s => toString s.toNat) ++ "]"

instance : Key PathKey :=
  Sequence.key segments (fun _ _ => PathKey.ext) (fun k => some (k.segments.headD 0))
    (fun k => bracketed k.segments)

instance : LawfulKey PathKey :=
  Sequence.lawfulKey segments (fun _ _ => PathKey.ext) _ _

end PathKey

end TieredCache
