/-!
# Substrings
-/
namespace TierCache

def occursIn (part : List Char) : List Char → Bool
  | [] => part.isEmpty
  | c :: r => part.isPrefixOf (c :: r) || occursIn part r

/-- A key that holds at least one of the given texts. -/
def holdsAny (criteria : List String) (key : String) : Bool :=
  criteria.any fun c => occursIn c.toList key.toList

end TierCache
