import TierCache.Text.Hex

/-!
# JSON documents

Documents as they are written: whole numbers, truth values, texts, lists, and records whose fields
keep their order. `compact` writes no blanks; `pretty` puts each element and each field on a line
of its own, indented by two blanks a level.
-/
namespace TierCache

inductive Json where
  | number (n : Nat)
  | truth (b : Bool)
  | text (s : String)
  | list (items : List Json)
  | record (fields : List (String × Json))

namespace Json

/-- Only the quote, the backslash and the characters below the blank are escaped. -/
def escape (c : Char) : List Char :=
  if c = '"' then ['\\', '"']
  else if c = '\\' then ['\\', '\\']
  else if c = '\x08' then ['\\', 'b']
  else if c = '\t' then ['\\', 't']
  else if c = '\n' then ['\\', 'n']
  else if c = '\x0c' then ['\\', 'f']
  else if c = '\r' then ['\\', 'r']
  else if c.toNat < 0x20 then ['\\', 'u', '0', '0'] ++ Hex.ofByte (UInt8.ofNat c.toNat)
  else [c]

def quote (s : String) : List Char := '"' :: s.toList.flatMap escape ++ ['"']

def digits (n : Nat) : List Char := Nat.toDigits 10 n

def word (b : Bool) : List Char := if b then ['t', 'r', 'u', 'e'] else ['f', 'a', 'l', 's', 'e']

mutual

def compact : Json → List Char
  | .number n => digits n
  | .truth b => word b
  | .text s => quote s
  | .list [] => ['[', ']']
  | .list (j :: items) => '[' :: compact j ++ compactItems items ++ [']']
  | .record [] => ['\x7b', '\x7d']
  | .record ((k, j) :: fields) =>
    '\x7b' :: quote k ++ ':' :: compact j ++ compactFields fields ++ ['\x7d']

def compactItems : List Json → List Char
  | [] => []
  | j :: items => ',' :: compact j ++ compactItems items

def compactFields : List (String × Json) → List Char
  | [] => []
  | (k, j) :: fields => ',' :: quote k ++ ':' :: compact j ++ compactFields fields

end

def line (indent : Nat) : List Char := '\n' :: List.replicate (2 * indent) ' '

mutual

def prettyAt (indent : Nat) : Json → List Char
  | .number n => digits n
  | .truth b => word b
  | .text s => quote s
  | .list [] => ['[', ']']
  | .list (j :: items) =>
    '[' :: line (indent + 1) ++ prettyAt (indent + 1) j ++ prettyItems (indent + 1) items ++
      line indent ++ [']']
  | .record [] => ['\x7b', '\x7d']
  | .record ((k, j) :: fields) =>
    '\x7b' :: line (indent + 1) ++ quote k ++ [':', ' '] ++ prettyAt (indent + 1) j ++
      prettyFields (indent + 1) fields ++ line indent ++ ['\x7d']

def prettyItems (indent : Nat) : List Json → List Char
  | [] => []
  | j :: items => ',' :: line indent ++ prettyAt indent j ++ prettyItems indent items

def prettyFields (indent : Nat) : List (String × Json) → List Char
  | [] => []
  | (k, j) :: fields =>
    ',' :: line indent ++ quote k ++ [':', ' '] ++ prettyAt indent j ++ prettyFields indent fields

end

def pretty (j : Json) : List Char := prettyAt 0 j

end Json

end TierCache
