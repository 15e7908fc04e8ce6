import TieredCache.Text.Unprintable

/-!
# Quoted text

A text between quotes, on one line and free of invisible characters: quotes and backslashes follow a
backslash, the common controls have a letter, and any other unprintable character is spelt by its
code point in hexadecimal.
-/

namespace TieredCache.Text

/-- The written form of one character inside quotes. -/
def escaped (c : Char) : String :=
  match c with
  | '"' => "\\\""
  | '\\' => "\\\\"
  | '\n' => "\\n"
  | '\r' => "\\r"
  | '\t' => "\\t"
  | '\x00' => "\\0"
  | c =>
    if isUnprintable c then
      "\\u\x7b" ++ String.ofList (Nat.toDigits 16 c.toNat) ++ "\x7d"
    else String.singleton c

/-- A text between quotes, each character in its written form. -/
def quoted (s : String) : String :=
  "\"" ++ String.join (s.toList.map escaped) ++ "\""

end TieredCache.Text
