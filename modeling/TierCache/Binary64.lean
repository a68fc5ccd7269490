/-!
# Doubles

A double is its 64 bits. Its value is a whole number of at most 53 bits times a power of two, and
every operation here is exact arithmetic followed by one rounding to the nearest double, ties to
the even one.
-/
namespace TierCache

structure Binary64 where
  bits : UInt64
  deriving DecidableEq, Repr

namespace Binary64

/-- A double taken apart. A finite one is `significand * 2 ^ exponent`, with its sign. -/
inductive Shape where
  | nan
  | infinite (negative : Bool)
  | finite (negative : Bool) (significand : Nat) (exponent : Int)
  deriving DecidableEq, Repr

/-- The leading bit of a significand of 53 bits, which is not stored. -/
def hiddenBit : Nat := 0x10000000000000

def shape (x : Binary64) : Shape :=
  let n := x.bits.toNat
  let negative := 0x8000000000000000 ≤ n
  let field := n / hiddenBit % 2048
  let fraction := n % hiddenBit
  if field = 2047 then if fraction = 0 then .infinite negative else .nan
  else if field = 0 then .finite negative fraction (-1074)
  else .finite negative (hiddenBit + fraction) ((field : Int) - 1075)

def zero : Binary64 := ⟨0⟩

def infinity : Binary64 := ⟨0x7FF0000000000000⟩

def nan : Binary64 := ⟨0x7FF8000000000000⟩

def neg (x : Binary64) : Binary64 := ⟨x.bits ^^^ 0x8000000000000000⟩

/-- The whole number nearest to `n / d`, of two the even one. -/
def roundHalfEven (n d : Nat) : Nat :=
  let q := n / d
  let r := n % d
  if 2 * r > d || (2 * r = d && q % 2 = 1) then q + 1 else q

/-- Numerator and denominator of `n / d * 2 ^ (-e)`. -/
def scale (n d : Nat) (e : Int) : Nat × Nat :=
  if 0 ≤ e then (n, d <<< e.toNat) else (n <<< (-e).toNat, d)

/-- The exponent at which `n / d` has a significand of 53 bits, or the least exponent. -/
def exponentOf (n d : Nat) : Int :=
  let e : Int := (n.log2 : Int) - d.log2 - 52
  let (num, den) := scale n d e
  max (if num < den * hiddenBit then e - 1 else e) (-1074)

/-- The double nearest to `n / d`, for a positive `d`. A significand that rounds up to the next
power of two carries into the exponent by itself. -/
def ofQuotient (n d : Nat) : Binary64 :=
  if n = 0 then zero
  else
    let e := exponentOf n d
    let (num, den) := scale n d e
    let bits := (e + 1074).toNat * hiddenBit + roundHalfEven num den
    if bits < 2047 * hiddenBit then ⟨UInt64.ofNat bits⟩ else infinity

/-- The double nearest to `m * 2 ^ e`. -/
def ofScaled (m : Nat) (e : Int) : Binary64 :=
  if 0 ≤ e then ofQuotient (m <<< e.toNat) 1 else ofQuotient m (1 <<< (-e).toNat)

def ofNat (n : Nat) : Binary64 := ofQuotient n 1

/-- The value without its fraction, brought into 64 bits; a NaN counts as zero. -/
def truncate (x : Binary64) : Nat :=
  match x.shape with
  | .nan | .infinite true | .finite true _ _ => 0
  | .infinite false => UInt64.size - 1
  | .finite false m e =>
    min (if 0 ≤ e then m <<< e.toNat else m >>> (-e).toNat) (UInt64.size - 1)

/-- The value is above zero; false for a NaN. -/
def isPositive (x : Binary64) : Bool :=
  match x.shape with
  | .infinite negative => !negative
  | .finite negative m _ => !negative && 0 < m
  | .nan => false

def isZero (x : Binary64) : Bool :=
  match x.shape with
  | .finite _ m _ => m = 0
  | _ => false

def isNan (x : Binary64) : Bool := x.shape = .nan

/-- The value is above one; false for a NaN. -/
def exceedsOne (x : Binary64) : Bool :=
  match x.shape with
  | .infinite negative => !negative
  | .finite negative m e =>
    !negative && (if 0 ≤ e then 1 < m <<< e.toNat else 1 <<< (-e).toNat < m)
  | .nan => false

/-- The product of two doubles that are not negative. -/
def mul (x y : Binary64) : Binary64 :=
  match x.shape, y.shape with
  | .finite _ m e, .finite _ m' e' => ofScaled (m * m') (e + e')
  | .nan, _ | _, .nan => nan
  | _, _ => if x.isZero || y.isZero then nan else infinity

/-- The quotient of two counts, each of them rounded to a double first. -/
def ratio (n d : Nat) : Binary64 :=
  match (ofNat n).shape, (ofNat d).shape with
  | .finite _ m e, .finite _ m' e' =>
    let (num, den) := scale m m' (e' - e)
    ofQuotient num den
  | _, _ => nan

end Binary64

end TierCache
