/-!
# Paths

A path as it is written, cut at its slashes. An empty piece and a single dot stay where they are,
two dots lead back. Where a path leads depends on the volume, so no piece is dropped here.
-/
namespace TierCache

structure Path where
  pieces : List String
  deriving DecidableEq, Repr

namespace Path

def ofString (s : String) : Path := ⟨s.splitOn "/"⟩

def text (p : Path) : String := String.intercalate "/" p.pieces

/-- A slash at the end is the one before the name. -/
def join (p : Path) (name : String) : Path :=
  ⟨(if p.pieces.getLast? = some "" then p.pieces.dropLast else p.pieces) ++ [name]⟩

/-- A piece that leads nowhere. -/
def isStill (piece : String) : Bool := piece = "" || piece = "."

/-- The path up to its last piece that leads somewhere. -/
def parent (p : Path) : Path :=
  ⟨((p.pieces.reverse.dropWhile isStill).tail.dropWhile isStill).reverse⟩

/-- The last piece with a character is a single dot. -/
def endsInDot (p : Path) : Bool :=
  (p.pieces.reverse.dropWhile fun piece => piece = "").head? = some "."

/-- No name on a volume holds this character. -/
def isBroken (p : Path) : Bool := p.pieces.any fun piece => piece.toList.contains '\x00'

/-- A path of more bytes is not followed: of four kibibytes, some are for the way to the volume. -/
def longest : Nat := 4079

def isTooLong (p : Path) : Bool := longest < p.text.utf8ByteSize

/-- A name of more bytes is not given. -/
def longestName : Nat := 255

def isLongName (name : String) : Bool := longestName < name.utf8ByteSize

theorem pieces_join {p : Path} {name : String} (h : p.pieces.getLast? ≠ some "") :
    (p.join name).pieces = p.pieces ++ [name] := by
  simp [join, h]

end Path

end TierCache
