import TierCache.Key.SizeTag
import TierCache.Lifetime
import TierCache.Resident

/-!
# Parsed values

A memory tier for values that have been decoded already, every value at cost one. It is used by
normalized keys, and values of several types share it.
-/
namespace TierCache

structure ParsedValue (α : Type) where
  value : α
  metadata : Metadata

abbrev Parsed (α : Type) := Resident (ParsedValue α)

namespace Parsed

variable {α : Type}

def defaultCapacity : Nat := 15

/-- A value of another type counts as found, but is no answer. -/
def get (d : Parsed α) (accepts : α → Bool) (key : String) :
    Option (ParsedValue α) × Parsed α :=
  let (found, d) := Resident.get d (Key.normalize key)
  (found.filter fun v => accepts v.value, d)

def put (d : Parsed α) (key : String) (value : α) (metadata : Metadata) :
    Except Fault (Parsed α) := do
  let (d, _) ← Resident.put d (Key.normalize key) ⟨value, metadata⟩ 1
  return d

end Parsed

end TierCache
