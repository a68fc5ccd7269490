import TierCache.Json.Tree
import TierCache.Problem
import TierCache.Text.Blank
import TierCache.Text.Decimal
import TierCache.Text.Quoted

/-!
# Reading response bodies

Readers turn the bytes of a body into a value of one type. A parser is a reader into a type that
several requests share, together with a test which of its values the reader makes.
-/
namespace TierCache

abbrev Reader (α : Type) := List UInt8 → Except Problem α

namespace Reader

def text : Reader String := fun bytes =>
  match Utf8.decode bytes with
  | .ok s => .ok s
  | .error defect => .error (.decode (.notUtf8 defect))

/-- An integer of 64 bits; blanks around it are ignored. -/
def integer : Reader Int := fun bytes => do
  let s ← text bytes
  let cs := trim s.toList
  match Decimal.signed? cs with
  | some n => return n
  | none => throw (.decode (.notInteger (Quoted.ofChars cs)))

/-- True exactly for the word `true`, in any case of letters and with blanks around it. -/
def flag : Reader Bool := fun bytes => do
  let s ← text bytes
  return (trim s.toList).map Char.toLower = ['t', 'r', 'u', 'e']

/-- A JSON document, after its text has been prepared. -/
def json {α : Type} (prepare : List Char → List Char) (decode : Json.Tree → Option α) :
    Reader α := fun bytes => do
  let s ← text bytes
  match (Json.Tree.ofBytes? (Utf8.encodeChars (prepare s.toList))).bind decode with
  | some a => return a
  | none => throw (.decode .malformed)

end Reader

structure Parser (α : Type) where
  parse : Reader α
  accepts : α → Bool
  accepts_parse : ∀ {bytes : List UInt8} {a : α}, parse bytes = .ok a → accepts a = true

namespace Parser

/-- A reader of one of the types that are joined in `α`. -/
def ofReader {α β : Type} (read : Reader β) (inject : β → α) (accepts : α → Bool)
    (h : ∀ b, accepts (inject b) = true) : Parser α where
  parse bytes := (read bytes).map inject
  accepts
  accepts_parse := by
    intro bytes a ha
    cases hr : read bytes with
    | error e => simp [hr, Except.map] at ha
    | ok b =>
      simp only [hr, Except.map, Except.ok.injEq] at ha
      exact ha ▸ h b

end Parser

end TierCache
