/-!
# JSON tokens

The words of a JSON text. A number keeps its value only when it is written as a plain natural number;
a quoted text keeps its escapes by code unit, so that a text with an unpaired surrogate is still a
token, though it decodes to no characters.
-/

namespace TieredCache.Json

/-- A character of a quoted text as it stands, or a code unit given in hexadecimal. -/
inductive Piece where
  | literal (c : Char)
  | coded (unit : Nat)
  deriving DecidableEq

/-- A word of a JSON text. -/
inductive Token where
  | null
  | bool (b : Bool)
  | number (natural? : Option Nat)
  | text (pieces : List Piece)
  | leftBracket
  | rightBracket
  | leftBrace
  | rightBrace
  | comma
  | colon
  deriving DecidableEq

namespace Piece

/-- The first unit of a surrogate pair. -/
def isHigh (unit : Nat) : Bool :=
  0xD800 ≤ unit && unit < 0xDC00

/-- The second unit of a surrogate pair. -/
def isLow (unit : Nat) : Bool :=
  0xDC00 ≤ unit && unit < 0xE000

/-- The characters of a quoted text; none when a surrogate stands alone. -/
def decode : List Piece → Option (List Char)
  | [] => some []
  | .literal c :: rest => (decode rest).map (c :: ·)
  | .coded unit :: rest =>
    if isHigh unit then
      match rest with
      | .coded low :: rest =>
        if isLow low then
          let c := Char.ofNat (0x10000 + (unit - 0xD800) * 0x400 + (low - 0xDC00))
          (decode rest).map (c :: ·)
        else none
      | _ => none
    else if isLow unit then none
    else (decode rest).map (Char.ofNat unit :: ·)

end Piece

namespace Token

/-- The value of a hexadecimal digit. -/
def hexDigit? (c : Char) : Option Nat :=
  if '0' ≤ c && c ≤ '9' then some (c.toNat - '0'.toNat)
  else if 'a' ≤ c && c ≤ 'f' then some (c.toNat - 'a'.toNat + 10)
  else if 'A' ≤ c && c ≤ 'F' then some (c.toNat - 'A'.toNat + 10)
  else none

/-- The value of four hexadecimal digits. -/
def hexUnit? (a b c d : Char) : Option Nat := do
  return ((← hexDigit? a) * 16 + (← hexDigit? b)) * 256 + (← hexDigit? c) * 16 + (← hexDigit? d)

/-- The character that a letter stands for after a backslash. -/
def escape? : Char → Option Char
  | '"' => some '"'
  | '\\' => some '\\'
  | '/' => some '/'
  | 'b' => some '\x08'
  | 'f' => some '\x0c'
  | 'n' => some '\n'
  | 'r' => some '\r'
  | 't' => some '\t'
  | _ => none

/-- Reads on to the closing quote. -/
def readText : List Char → Option (List Piece × List Char)
  | [] => none
  | '"' :: rest => some ([], rest)
  | '\\' :: 'u' :: a :: b :: c :: d :: rest => do
    let unit ← hexUnit? a b c d
    let (pieces, rest) ← readText rest
    some (.coded unit :: pieces, rest)
  | '\\' :: e :: rest => do
    let c ← escape? e
    let (pieces, rest) ← readText rest
    some (.literal c :: pieces, rest)
  | c :: rest => do
    guard (' ' ≤ c)
    let (pieces, rest) ← readText rest
    some (.literal c :: pieces, rest)

/-- The digits at the beginning and what follows them. -/
def readDigits (cs : List Char) : List Char × List Char :=
  (cs.takeWhile Char.isDigit, cs.dropWhile Char.isDigit)

/-- The same, with at least one digit. -/
def readDigits? (cs : List Char) : Option (List Char × List Char) :=
  let (digits, rest) := readDigits cs
  if digits.isEmpty then none else some (digits, rest)

/-- Reads an integer part: a zero, or digits that do not begin with one. -/
def readInteger? : List Char → Option (Nat × List Char)
  | '0' :: rest => some (0, rest)
  | cs => do
    let (digits, rest) ← readDigits? cs
    some (Nat.ofDigitChars 10 digits 0, rest)

/-- Reads a fraction, if a point begins one; whether it did. -/
def readFraction? : List Char → Option (Bool × List Char)
  | '.' :: rest => do
    let (_, rest) ← readDigits? rest
    some (true, rest)
  | cs => some (false, cs)

/-- The characters after a sign, if there is one. -/
def skipSign : List Char → List Char
  | '+' :: rest => rest
  | '-' :: rest => rest
  | cs => cs

/-- Reads an exponent, if its letter begins one; whether it did. -/
def readExponent? : List Char → Option (Bool × List Char)
  | c :: rest =>
    if c = 'e' || c = 'E' then do
      let (_, rest) ← readDigits? (skipSign rest)
      some (true, rest)
    else some (false, c :: rest)
  | [] => some (false, [])

/-- Reads a number. It is a plain natural number when it has no sign, fraction or exponent. -/
def readNumber? (cs : List Char) : Option (Token × List Char) := do
  let (negative, cs) := match cs with
    | '-' :: rest => (true, rest)
    | cs => (false, cs)
  let (n, cs) ← readInteger? cs
  let (fraction, cs) ← readFraction? cs
  let (exponent, cs) ← readExponent? cs
  some (.number (if negative || fraction || exponent then none else some n), cs)

/-- Reads one token. -/
def read? : List Char → Option (Token × List Char)
  | '[' :: rest => some (.leftBracket, rest)
  | ']' :: rest => some (.rightBracket, rest)
  | '\x7b' :: rest => some (.leftBrace, rest)
  | '\x7d' :: rest => some (.rightBrace, rest)
  | ',' :: rest => some (.comma, rest)
  | ':' :: rest => some (.colon, rest)
  | 'n' :: 'u' :: 'l' :: 'l' :: rest => some (.null, rest)
  | 't' :: 'r' :: 'u' :: 'e' :: rest => some (.bool true, rest)
  | 'f' :: 'a' :: 'l' :: 's' :: 'e' :: rest => some (.bool false, rest)
  | '"' :: rest => (readText rest).map fun (pieces, rest) => (.text pieces, rest)
  | cs => readNumber? cs

/-- The four characters that may stand between tokens. -/
def isBlank (c : Char) : Bool :=
  c = ' ' || c = '\n' || c = '\t' || c = '\r'

/-- Reads at most `n` tokens, all there are. -/
def readAll : Nat → List Char → Option (List Token)
  | 0, cs => if (cs.dropWhile isBlank).isEmpty then some [] else none
  | n + 1, cs =>
    match cs.dropWhile isBlank with
    | [] => some []
    | cs => do
      let (token, rest) ← read? cs
      let tokens ← readAll n rest
      some (token :: tokens)

/-- The tokens of a text. Each takes a character, so there are no more tokens than characters. -/
def ofText? (s : String) : Option (List Token) :=
  readAll s.length s.toList

end Token

end TieredCache.Json
