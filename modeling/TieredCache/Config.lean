import TieredCache.Duration.Text
import TieredCache.Fault

/-!
# Configuration

What a cache is told when it is made: the time to live of its expiring entries, and whether it is
canonical, which means that it is the only holder of its entities and accepts none that expire.
-/

namespace TieredCache

/-- The time to live of expiring entries, and whether the cache refuses them. -/
structure Config where
  ttl : Duration
  canonical : Bool
  deriving DecidableEq

namespace Config

/-- The configuration of a cache that accepts expiring entries. -/
def ofTtl (ttl : Duration) : Config :=
  ⟨ttl, false⟩

/-- The same time to live, canonical or not. -/
def withCanonical (c : Config) (canonical : Bool) : Config :=
  { c with canonical := canonical }

/-- A time to live of zero is refused. -/
def validate (c : Config) : Except ConfigFault Unit :=
  if c.ttl.nanos = 0 then .error .zeroTtl else .ok ()

/-- Both settings in text. -/
def text (c : Config) : String :=
  "CacheConfig \x7b ttl: " ++ c.ttl.text ++ ", canonical: " ++ toString c.canonical ++ " \x7d"

end Config

end TieredCache
