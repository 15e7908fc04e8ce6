import TieredCache.Key.Sequence
import TieredCache.Text.Quoted

/-!
# Text keys

A text key is compared, and covers other keys, by the bytes of its UTF-8 encoding. Its first byte is
its group code, and the empty text has code zero.
-/

namespace TieredCache

/-- A key that is a text. -/
@[ext]
structure TextKey where
  value : String
  deriving DecidableEq

namespace TextKey

/-- The bytes that encode the text. -/
def bytes (k : TextKey) : List UInt8 :=
  k.value.toByteArray.data.toList

theorem bytes_injective (a b : TextKey) (h : a.bytes = b.bytes) : a = b :=
  TextKey.ext (String.toByteArray_inj.mp (ByteArray.ext (Array.toList_inj.mp h)))

instance : Key TextKey :=
  Sequence.key bytes bytes_injective (fun k => some (k.bytes.headD 0).toUInt32)
    (fun k => Text.quoted k.value)

instance : LawfulKey TextKey :=
  Sequence.lawfulKey bytes bytes_injective _ _

end TextKey

end TieredCache
