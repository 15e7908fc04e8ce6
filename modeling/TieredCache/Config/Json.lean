import TieredCache.Config
import TieredCache.Json

/-!
# Configurations as JSON

A configuration is an object of its two settings or an array of them in order; the second may be
missing. A duration is an object or an array of its seconds and nanoseconds, both given. Fields that a
configuration does not know are passed over, fields that a duration does not know are refused, and so
is a field given twice. Nanoseconds beyond a second carry over into the seconds.
-/

namespace TieredCache

/-- The duration of two numbers, if they fit 64 and 32 bits and the seconds still do after carrying. -/
def Duration.ofWords? (secs nanos : Nat) : Option Duration :=
  let d := ofParts secs nanos
  if secs < UInt64.size ∧ nanos < UInt32.size ∧ d.Representable then some d else none

/-- Reads a duration. -/
def Duration.ofJson? : Json → Option Duration
  | .array [.number (some secs), .number (some nanos)] => ofWords? secs nanos
  | .object fields => do
    let fields ← Json.named? fields
    guard (fields.all fun (name, _) => name = "secs" || name = "nanos")
    match (← Json.unique? fields "secs"), (← Json.unique? fields "nanos") with
    | .number (some secs), .number (some nanos) => ofWords? secs nanos
    | _, _ => none
  | _ => none

/-- A duration as an object. -/
def Duration.json (d : Duration) : String :=
  "\x7b\"secs\":" ++ toString d.secs ++ ",\"nanos\":" ++ toString d.subsecNanos ++ "\x7d"

namespace Config

/-- Reads a configuration, which accepts expiring entries unless it says otherwise. -/
def ofJson? : Json → Option Config
  | .array [ttl] => (Duration.ofJson? ttl).map .ofTtl
  | .array [ttl, .bool canonical] => (Duration.ofJson? ttl).map (⟨·, canonical⟩)
  | .object fields => do
    let fields ← Json.named? fields
    let ttl ← Duration.ofJson? (← Json.unique? fields "ttl")
    match fields.filter (·.1 = "canonical") with
    | [] => some (.ofTtl ttl)
    | [(_, .bool canonical)] => some ⟨ttl, canonical⟩
    | _ => none
  | _ => none

/-- Reads the text of a configuration. -/
def ofJsonText? (s : String) : Option Config :=
  (Json.ofText? s).bind ofJson?

/-- A configuration as an object. -/
def json (c : Config) : String :=
  "\x7b\"ttl\":" ++ c.ttl.json ++ ",\"canonical\":" ++ toString c.canonical ++ "\x7d"

end Config

end TieredCache
