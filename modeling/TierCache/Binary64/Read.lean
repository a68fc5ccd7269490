import TierCache.Binary64
import TierCache.Text.Decimal

/-!
# Reading doubles

A decimal with an optional sign, fraction and exponent, or one of the words for infinity and NaN
in any case of letters. There must be a digit before or after the point.
-/
namespace TierCache.Binary64

/-- `m * 10 ^ k`. Values far outside the range are settled by their number of digits. -/
def ofDecimal (m : Nat) (digits : Nat) (k : Int) : Binary64 :=
  if m = 0 then zero
  else if 400 < k + digits then infinity
  else if k + digits < -400 then zero
  else if 0 ≤ k then ofQuotient (m * Nat.pow 10 k.toNat) 1
  else ofQuotient m (Nat.pow 10 (-k).toNat)

/-- The digits of an exponent are read until it is far outside the range. -/
def exponentDigits? (ds : List Char) : Option Nat :=
  if ds ≠ [] ∧ ds.all Char.isDigit then
    some (ds.foldl (fun n d => if n < 0x10000 then 10 * n + Decimal.digitValue d else n) 0)
  else none

def exponent? : List Char → Option Int
  | [] => some 0
  | c :: r =>
    if c = 'e' || c = 'E' then
      match r with
      | '-' :: ds => (exponentDigits? ds).map fun n => -(n : Int)
      | '+' :: ds => (exponentDigits? ds).map fun n => (n : Int)
      | ds => (exponentDigits? ds).map fun n => (n : Int)
    else none

/-- The digits `ds`, the first of them no zero, times `10 ^ k`. No two neighbouring doubles have a
middle of more than 767 digits, so of the digits after these only matters whether they are zeros. -/
def ofDigits (ds : List Char) (k : Int) : Binary64 :=
  let (kept, rest) := ds.splitAt 800
  if rest.all (· = '0') then ofDecimal (Decimal.value kept) kept.length (k + rest.length)
  else ofDecimal (10 * Decimal.value kept + 1) (kept.length + 1) (k + rest.length - 1)

def number? (cs : List Char) : Option Binary64 :=
  let whole := cs.takeWhile Char.isDigit
  let (fraction, rest) := match cs.dropWhile Char.isDigit with
    | '.' :: r => (r.takeWhile Char.isDigit, r.dropWhile Char.isDigit)
    | r => ([], r)
  let ds := (whole ++ fraction).dropWhile (· = '0')
  if whole = [] ∧ fraction = [] then none
  else (exponent? rest).map fun e => ofDigits ds (e - fraction.length)

def unsigned? (cs : List Char) : Option Binary64 :=
  let word := cs.map Char.toLower
  if word = ['i', 'n', 'f'] || word = ['i', 'n', 'f', 'i', 'n', 'i', 't', 'y'] then some infinity
  else if word = ['n', 'a', 'n'] then some nan
  else number? cs

def read? : List Char → Option Binary64
  | '-' :: r => (unsigned? r).map neg
  | '+' :: r => unsigned? r
  | cs => unsigned? cs

end TierCache.Binary64
