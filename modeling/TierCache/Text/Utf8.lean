/-!
# UTF-8

`encode` writes a text as bytes. `segments` cuts any bytes into characters and maximal broken
parts; `decode` accepts the bytes without a broken part and otherwise tells where the first one
begins, and `decodeLossy` puts the replacement character for each broken part.
-/
namespace TierCache.Utf8

def encodeChars (cs : List Char) : List UInt8 := cs.flatMap String.utf8EncodeChar

def encode (s : String) : List UInt8 := encodeChars s.toList

inductive Segment where
  | char (c : Char)
  /-- So many bytes that begin no character. -/
  | broken (length : Nat)
  /-- The input ends inside a character. -/
  | cut
  deriving DecidableEq, Repr

def isTail (b : UInt8) : Bool := 0x80 ≤ b && b ≤ 0xBF

def tailBits (b : UInt8) : Nat := b.toNat % 64

/-- The second byte of a character of three or more bytes: the bounds exclude overlong forms,
surrogates and values above the last code point. -/
def isSecond (lead second : UInt8) : Bool :=
  if lead = 0xE0 then 0xA0 ≤ second && second ≤ 0xBF
  else if lead = 0xED then 0x80 ≤ second && second ≤ 0x9F
  else if lead = 0xF0 then 0x90 ≤ second && second ≤ 0xBF
  else if lead = 0xF4 then 0x80 ≤ second && second ≤ 0x8F
  else isTail second

/-- The segment that begins with the byte `a`, when `r` follows. -/
def next (a : UInt8) (r : List UInt8) : Segment :=
  if a < 0x80 then .char (Char.ofNat a.toNat)
  else if a < 0xC2 then .broken 1
  else if a < 0xE0 then
    match r with
    | [] => .cut
    | b :: _ =>
      if isTail b then .char (Char.ofNat (a.toNat % 32 * 64 + tailBits b)) else .broken 1
  else if a < 0xF0 then
    match r with
    | [] => .cut
    | [b] => if isSecond a b then .cut else .broken 1
    | b :: c :: _ =>
      if !isSecond a b then .broken 1
      else if !isTail c then .broken 2
      else .char (Char.ofNat (a.toNat % 16 * 4096 + tailBits b * 64 + tailBits c))
  else if a < 0xF5 then
    match r with
    | [] => .cut
    | [b] => if isSecond a b then .cut else .broken 1
    | [b, c] => if !isSecond a b then .broken 1 else if !isTail c then .broken 2 else .cut
    | b :: c :: d :: _ =>
      if !isSecond a b then .broken 1
      else if !isTail c then .broken 2
      else if !isTail d then .broken 3
      else .char (Char.ofNat (a.toNat % 8 * 262144 + tailBits b * 4096 + tailBits c * 64 +
        tailBits d))
  else .broken 1

/-- The bytes that a segment takes. A cut segment takes all that is left, at most three bytes. -/
def Segment.length : Segment → Nat
  | .char c => c.utf8Size
  | .broken n => n
  | .cut => 3

/-- The segments of the input after its first `skip` bytes. -/
def segmentsAfter : Nat → List UInt8 → List Segment
  | _, [] => []
  | skip + 1, _ :: r => segmentsAfter skip r
  | 0, a :: r => next a r :: segmentsAfter ((next a r).length - 1) r

def segments (bytes : List UInt8) : List Segment := segmentsAfter 0 bytes

inductive Defect where
  | invalid (length index : Nat)
  | incomplete (index : Nat)
  deriving DecidableEq, Repr

def Defect.message : Defect → String
  | .invalid length index =>
    "invalid utf-8 sequence of " ++ toString length ++ " bytes from index " ++ toString index
  | .incomplete index => "incomplete utf-8 byte sequence from index " ++ toString index

/-- The characters of segments that begin at byte `index`, if none of them is broken. -/
def collect (index : Nat) : List Segment → Except Defect (List Char)
  | [] => .ok []
  | .char c :: r => (collect (index + c.utf8Size) r).map (c :: ·)
  | .broken length :: _ => .error (.invalid length index)
  | .cut :: _ => .error (.incomplete index)

def decode (bytes : List UInt8) : Except Defect String :=
  (collect 0 (segments bytes)).map String.ofList

def Segment.shown : Segment → Char
  | .char c => c
  | _ => '\uFFFD'

def decodeLossy (bytes : List UInt8) : String :=
  String.ofList ((segments bytes).map Segment.shown)

end TierCache.Utf8
