import TieredCache.Json.Token

/-!
# JSON values

The structure of a JSON text. Objects keep their fields in order, repeated ones included, and names
stay as they are written, so that a reader decides what to make of them.
-/

namespace TieredCache

/-- A value of a JSON text. -/
inductive Json where
  | null
  | bool (b : Bool)
  | number (natural? : Option Nat)
  | text (pieces : List Json.Piece)
  | array (values : List Json)
  | object (fields : List (List Json.Piece × Json))

namespace Json

mutual

/-- Reads a value, down to a nesting of `n`. -/
def read : Nat → List Token → Option (Json × List Token)
  | 0, _ => none
  | n + 1, tokens =>
    match tokens with
    | .null :: rest => some (.null, rest)
    | .bool b :: rest => some (.bool b, rest)
    | .number natural? :: rest => some (.number natural?, rest)
    | .text pieces :: rest => some (.text pieces, rest)
    | .leftBracket :: .rightBracket :: rest => some (.array [], rest)
    | .leftBracket :: rest => (readValues n rest).map fun (values, rest) => (.array values, rest)
    | .leftBrace :: .rightBrace :: rest => some (.object [], rest)
    | .leftBrace :: rest => (readFields n rest).map fun (fields, rest) => (.object fields, rest)
    | _ => none

/-- Reads the values of an array, of which there is at least one more. -/
def readValues : Nat → List Token → Option (List Json × List Token)
  | 0, _ => none
  | n + 1, tokens => do
    let (value, tokens) ← read n tokens
    match tokens with
    | .rightBracket :: rest => some ([value], rest)
    | .comma :: rest =>
      let (values, rest) ← readValues n rest
      some (value :: values, rest)
    | _ => none

/-- Reads the fields of an object, of which there is at least one more. -/
def readFields : Nat → List Token → Option (List (List Piece × Json) × List Token)
  | 0, _ => none
  | n + 1, tokens =>
    match tokens with
    | .text name :: .colon :: tokens => do
      let (value, tokens) ← read n tokens
      match tokens with
      | .rightBrace :: rest => some ([(name, value)], rest)
      | .comma :: rest =>
        let (fields, rest) ← readFields n rest
        some ((name, value) :: fields, rest)
      | _ => none
    | _ => none

end

/-- The value of a text that holds one value and nothing else. A value nests no deeper than it has
tokens. -/
def ofText? (s : String) : Option Json := do
  let tokens ← Token.ofText? s
  match read (tokens.length + 1) tokens with
  | some (value, []) => some value
  | _ => none

/-- Fields by decoded name; none when some name does not decode. -/
def named? (fields : List (List Piece × Json)) : Option (List (String × Json)) :=
  fields.mapM fun (name, value) => (Piece.decode name).map fun cs => (String.ofList cs, value)

/-- The only field of a name: none when there is no such field or more than one. -/
def unique? (fields : List (String × Json)) (name : String) : Option Json :=
  match fields.filter (·.1 = name) with
  | [(_, value)] => some value
  | _ => none

end Json

end TieredCache
