import TierCache.Text.Decimal

/-!
# Size variants of a key

Requests for one picture in several sizes carry the size in front of their key, as
`#W<width>#H<height>`. All sizes share the cache slot of the bare key, so every tier normalizes a
key by dropping the tag.
-/
namespace TierCache.Key

/-- A number of 32 bits in decimal at the head, and what follows its digits. -/
def takeSize (cs : List Char) : Option (UInt32 × List Char) :=
  (Decimal.below? UInt32.size (cs.takeWhile Char.isDigit)).map fun n =>
    (UInt32.ofNat n, cs.dropWhile Char.isDigit)

def splitChars : List Char → Option (UInt32 × UInt32 × List Char)
  | '#' :: 'W' :: r =>
    match takeSize r with
    | some (width, '#' :: 'H' :: r) => (takeSize r).map fun (height, rest) => (width, height, rest)
    | _ => none
  | _ => none

/-- The size and the bare key of a tagged key. -/
def split (key : String) : Option (UInt32 × UInt32 × String) :=
  (splitChars key.toList).map fun (width, height, rest) => (width, height, String.ofList rest)

def normalize (key : String) : String :=
  match split key with
  | some (_, _, rest) => rest
  | none => key

def withSize (width height : UInt32) (key : String) : String :=
  "#W" ++ toString width.toNat ++ "#H" ++ toString height.toNat ++ key

end TierCache.Key
