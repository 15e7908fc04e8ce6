import TieredCache.Key
import TieredCache.TypeTag

/-!
# Faults

What a cache and its configuration can refuse, with the message and the written form of each
refusal. The message of a mismatch names the types alone; its written form shows whole tags.
-/

namespace TieredCache

/-- A broken agreement inside a shard. -/
structure InvariantFault where
  message : String
  deriving DecidableEq

namespace InvariantFault

/-- A holder that no tier indexes cannot move to another tier. -/
def uncachedHolder {κ : Type} [Key κ] (k : κ) : InvariantFault :=
  ⟨"cannot switch tier of uncached holder " ++ Key.text k⟩

/-- The fault with its message quoted. -/
def text (f : InvariantFault) : String :=
  "InvariantError(" ++ Text.quoted f.message ++ ")"

end InvariantFault

/-- A configuration that no cache can have. -/
structure ConfigFault where
  message : String
  deriving DecidableEq

namespace ConfigFault

/-- A time to live of zero. -/
def zeroTtl : ConfigFault :=
  ⟨"cache ttl must be greater than zero"⟩

/-- The fault with its message quoted. -/
def text (f : ConfigFault) : String :=
  "ConfigError(" ++ Text.quoted f.message ++ ")"

end ConfigFault

/-- The refusal of a write. -/
inductive WriteFault where
  | expiringOnCanonical
  | typeMismatch (expected actual : TypeTag)
  | invariant (fault : InvariantFault)
  deriving DecidableEq

namespace WriteFault

/-- The message for a reader. -/
def message : WriteFault → String
  | expiringOnCanonical => "canonical cache does not accept expiring entries"
  | typeMismatch expected actual =>
    "type mismatch: cache holds `" ++ expected.name ++ "`, value is `" ++ actual.name ++ "`"
  | invariant fault => fault.message

/-- The fault with everything it carries. -/
def text : WriteFault → String
  | expiringOnCanonical => "ExpiringOnCanonical"
  | typeMismatch expected actual =>
    "TypeMismatch \x7b expected: " ++ expected.text ++ ", actual: " ++ actual.text ++ " \x7d"
  | invariant fault => "Invariant(" ++ fault.text ++ ")"

end WriteFault

end TieredCache
