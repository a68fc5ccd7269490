import TierCache.Text.Hex
import TierCache.Text.Unprinted

/-!
# Quoted text in messages

A text in double quotes. A quote, a backslash and the usual controls are escaped by a backslash,
every other character without a shape of its own by its code point in braces.
-/
namespace TierCache.Quoted

def escape (c : Char) : List Char :=
  if c = '\x00' then ['\\', '0']
  else if c = '\t' then ['\\', 't']
  else if c = '\r' then ['\\', 'r']
  else if c = '\n' then ['\\', 'n']
  else if c = '\\' then ['\\', '\\']
  else if c = '"' then ['\\', '"']
  else if isUnprinted c then ['\\', 'u', '\x7b'] ++ Hex.ofNat c.toNat ++ ['\x7d']
  else [c]

def ofChars (cs : List Char) : String := String.ofList ('"' :: cs.flatMap escape ++ ['"'])

end TierCache.Quoted
