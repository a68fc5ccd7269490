import TierCache.Text.Utf8

/-!
# Tokens of a JSON text

`lex` cuts bytes into tokens. A string is scanned first for its escapes alone; whether it is a
text, with whole characters and paired surrogates, is a property of the token.
-/
namespace TierCache.Json

/-- A part of a string: a byte as it stands or from a short escape, or a UTF-16 unit. -/
inductive Piece where
  | byte (b : UInt8)
  | unit (n : Nat)
  deriving DecidableEq, Repr

inductive Token where
  | openList
  | closeList
  | openRecord
  | closeRecord
  | comma
  | colon
  | null
  | truth (b : Bool)
  /-- The value of an integer literal; none for a fraction, an exponent, a negative zero or a
  number of more digits than 64 bits can hold. -/
  | number (n : Option Int)
  /-- None if the string is no Unicode text. -/
  | text (s : Option String)
  deriving DecidableEq, Repr

def isSpace (b : UInt8) : Bool := b = 0x20 || b = 0x09 || b = 0x0A || b = 0x0D

def isDigit (b : UInt8) : Bool := 0x30 ≤ b && b ≤ 0x39

def hexValue? (b : UInt8) : Option Nat :=
  if isDigit b then some (b.toNat - 0x30)
  else if 0x61 ≤ b && b ≤ 0x66 then some (b.toNat - 0x57)
  else if 0x41 ≤ b && b ≤ 0x46 then some (b.toNat - 0x37)
  else none

def unit? (a b c d : UInt8) : Option Nat := do
  let a ← hexValue? a
  let b ← hexValue? b
  let c ← hexValue? c
  let d ← hexValue? d
  return a * 4096 + b * 256 + c * 16 + d

def shortEscape? (b : UInt8) : Option UInt8 :=
  if b = 0x22 || b = 0x5C || b = 0x2F then some b
  else if b = 0x62 then some 0x08
  else if b = 0x66 then some 0x0C
  else if b = 0x6E then some 0x0A
  else if b = 0x72 then some 0x0D
  else if b = 0x74 then some 0x09
  else none

/-- The scan of a string when the piece `p` stands in front. -/
def before (p : Piece) (scan : Option (List Piece × List UInt8)) :
    Option (List Piece × List UInt8) :=
  scan.map fun q => (p :: q.1, q.2)

/-- The pieces up to the closing quote, and what follows it. -/
def scanString : List UInt8 → Option (List Piece × List UInt8)
  | [] => none
  | b :: r =>
    if b = 0x22 then some ([], r)
    else if b = 0x5C then
      match r with
      | [] => none
      | e :: r₁ =>
        if e = 0x75 then
          match r₁ with
          | x :: y :: z :: w :: r₂ =>
            match unit? x y z w with
            | some n => before (.unit n) (scanString r₂)
            | none => none
          | _ => none
        else
          match shortEscape? e with
          | some c => before (.byte c) (scanString r₁)
          | none => none
    else if b < 0x20 then none
    else before (.byte b) (scanString r)

def isHighSurrogate (n : Nat) : Bool := 0xD800 ≤ n && n < 0xDC00

def isLowSurrogate (n : Nat) : Bool := 0xDC00 ≤ n && n < 0xE000

/-- The bytes of a string; every surrogate must stand in a pair. -/
def bytesOf : List Piece → Option (List UInt8)
  | [] => some []
  | .byte b :: r => (bytesOf r).map (b :: ·)
  | .unit n :: .unit m :: r =>
    if isHighSurrogate n then
      if isLowSurrogate m then
        let c := Char.ofNat (0x10000 + (n - 0xD800) * 0x400 + (m - 0xDC00))
        (bytesOf r).map (String.utf8EncodeChar c ++ ·)
      else none
    else if isLowSurrogate n then none
    else (bytesOf (.unit m :: r)).map (String.utf8EncodeChar (Char.ofNat n) ++ ·)
  | .unit n :: r =>
    if isHighSurrogate n || isLowSurrogate n then none
    else (bytesOf r).map (String.utf8EncodeChar (Char.ofNat n) ++ ·)

def textOf (pieces : List Piece) : Option String :=
  match (bytesOf pieces).map Utf8.decode with
  | some (.ok s) => some s
  | _ => none

/-- One digit or more, and what follows them. -/
def scanDigits (bytes : List UInt8) : Option (List UInt8 × List UInt8) :=
  match bytes.takeWhile isDigit with
  | [] => none
  | ds => some (ds, bytes.dropWhile isDigit)

/-- The digits before a fraction: a zero stands alone. -/
def scanWhole : List UInt8 → Option (List UInt8 × List UInt8)
  | 0x30 :: r => some ([0x30], r)
  | bytes => scanDigits bytes

def skipFraction : List UInt8 → Option (Bool × List UInt8)
  | 0x2E :: r => (scanDigits r).map fun p => (true, p.2)
  | bytes => some (false, bytes)

def skipSign : List UInt8 → List UInt8
  | b :: r => if b = 0x2B || b = 0x2D then r else b :: r
  | [] => []

def skipExponent : List UInt8 → Option (Bool × List UInt8)
  | b :: r =>
    if b = 0x65 || b = 0x45 then (scanDigits (skipSign r)).map fun p => (true, p.2)
    else some (false, b :: r)
  | [] => some (false, [])

def digitsValue (ds : List UInt8) : Nat := ds.foldl (fun n d => 10 * n + (d.toNat - 0x30)) 0

def scanUnsigned (negative : Bool) (bytes : List UInt8) : Option (Token × List UInt8) := do
  let (ds, r) ← scanWhole bytes
  let (fraction, r) ← skipFraction r
  let (exponent, r) ← skipExponent r
  let value : Option Int :=
    if fraction || exponent || 20 < ds.length then none
    else
      let n := digitsValue ds
      if negative && n = 0 then none else if negative then some (-n) else some n
  return (.number value, r)

def dropWord (word : List UInt8) (t : Token) (bytes : List UInt8) : Option (Token × List UInt8) :=
  if bytes.take word.length = word then some (t, bytes.drop word.length) else none

def mark? (b : UInt8) : Option Token :=
  if b = 0x5B then some .openList
  else if b = 0x5D then some .closeList
  else if b = 0x7B then some .openRecord
  else if b = 0x7D then some .closeRecord
  else if b = 0x2C then some .comma
  else if b = 0x3A then some .colon
  else none

def scanWord (b : UInt8) (r : List UInt8) : Option (Token × List UInt8) :=
  if b = 0x6E then dropWord [0x75, 0x6C, 0x6C] .null r
  else if b = 0x74 then dropWord [0x72, 0x75, 0x65] (.truth true) r
  else if b = 0x66 then dropWord [0x61, 0x6C, 0x73, 0x65] (.truth false) r
  else none

/-- The token that begins with the byte `b`, and what follows it. -/
def scanToken (b : UInt8) (r : List UInt8) : Option (Token × List UInt8) :=
  match mark? b with
  | some t => some (t, r)
  | none =>
    if b = 0x22 then (scanString r).map fun p => (.text (textOf p.1), p.2)
    else if b = 0x2D then scanUnsigned true r
    else if isDigit b then scanUnsigned false (b :: r)
    else scanWord b r

theorem before_eq_some_iff {p : Piece} {scan : Option (List Piece × List UInt8)}
    {ps : List Piece} {rest : List UInt8} :
    before p scan = some (ps, rest) ↔ ∃ qs, scan = some (qs, rest) ∧ ps = p :: qs := by
  cases scan with
  | none => simp [before]
  | some q =>
    obtain ⟨qs, r⟩ := q
    simp only [before, Option.map_some, Option.some.injEq, Prod.mk.injEq]
    exact ⟨fun ⟨h₁, h₂⟩ => ⟨qs, ⟨rfl, h₂⟩, h₁.symm⟩, fun ⟨_, ⟨h₁, h₂⟩, h₃⟩ => ⟨h₁ ▸ h₃.symm, h₂⟩⟩

theorem length_scanString {bytes rest : List UInt8} {ps : List Piece}
    (h : scanString bytes = some (ps, rest)) : rest.length ≤ bytes.length := by
  fun_induction scanString bytes generalizing ps with
  | case2 r => simp_all
  | case4 _ x y z w r n _ ih =>
    obtain ⟨qs, hs, -⟩ := before_eq_some_iff.mp h
    exact Nat.le_trans (ih hs) (by simp only [List.length_cons]; omega)
  | case7 e r _ c _ _ ih =>
    obtain ⟨qs, hs, -⟩ := before_eq_some_iff.mp h
    exact Nat.le_trans (ih hs) (by simp only [List.length_cons]; omega)
  | case10 b r _ _ _ ih =>
    obtain ⟨qs, hs, -⟩ := before_eq_some_iff.mp h
    exact Nat.le_trans (ih hs) (by simp only [List.length_cons]; omega)
  | case1 | case3 | case5 | case6 | case8 | case9 => simp_all

theorem length_scanDigits {bytes ds rest : List UInt8} (h : scanDigits bytes = some (ds, rest)) :
    rest.length < bytes.length := by
  rw [scanDigits] at h
  cases bytes with
  | nil => simp at h
  | cons b r =>
    by_cases hb : isDigit b
    · simp [hb] at h
      rw [← h.2]
      exact Nat.lt_succ_of_le (List.dropWhile_suffix isDigit).length_le
    · simp [hb] at h

theorem length_scanWhole {bytes ds rest : List UInt8} (h : scanWhole bytes = some (ds, rest)) :
    rest.length < bytes.length := by
  unfold scanWhole at h
  split at h
  · simp only [Option.some.injEq, Prod.mk.injEq] at h
    simp [h.2]
  · exact length_scanDigits h

theorem length_skipFraction {bytes rest : List UInt8} {b : Bool}
    (h : skipFraction bytes = some (b, rest)) : rest.length ≤ bytes.length := by
  unfold skipFraction at h
  split at h
  · obtain ⟨⟨ds, r'⟩, hs, he⟩ := Option.map_eq_some_iff.mp h
    have := length_scanDigits hs
    simp_all only [Prod.mk.injEq, List.length_cons]
    omega
  · simp_all

theorem length_skipSign (bytes : List UInt8) : (skipSign bytes).length ≤ bytes.length := by
  unfold skipSign
  split
  · split <;> simp
  · simp

theorem length_skipExponent {bytes rest : List UInt8} {b : Bool}
    (h : skipExponent bytes = some (b, rest)) : rest.length ≤ bytes.length := by
  unfold skipExponent at h
  split at h
  · rename_i c r
    split at h
    · obtain ⟨⟨ds, r'⟩, hs, he⟩ := Option.map_eq_some_iff.mp h
      have := length_scanDigits hs
      have := length_skipSign r
      simp_all only [Prod.mk.injEq, List.length_cons]
      omega
    · simp_all
  · simp_all

theorem length_scanUnsigned {negative : Bool} {bytes rest : List UInt8} {t : Token}
    (h : scanUnsigned negative bytes = some (t, rest)) : rest.length < bytes.length := by
  simp only [scanUnsigned, Option.bind_eq_bind, Option.bind_eq_some_iff, Option.pure_def,
    Option.some.injEq, Prod.mk.injEq] at h
  obtain ⟨⟨ds, r₁⟩, h₁, ⟨f, r₂⟩, h₂, ⟨e, r₃⟩, h₃, -, rfl⟩ := h
  have h₁ : r₁.length < bytes.length := length_scanWhole h₁
  have h₂ : r₂.length ≤ r₁.length := length_skipFraction h₂
  have h₃ : r₃.length ≤ r₂.length := length_skipExponent h₃
  show r₃.length < bytes.length
  omega

theorem length_dropWord {word bytes rest : List UInt8} {t t' : Token}
    (h : dropWord word t bytes = some (t', rest)) : rest.length ≤ bytes.length := by
  rw [dropWord] at h
  split at h
  · simp only [Option.some.injEq, Prod.mk.injEq] at h
    simp [← h.2]
  · simp at h

theorem length_scanWord {b : UInt8} {r rest : List UInt8} {t : Token}
    (h : scanWord b r = some (t, rest)) : rest.length ≤ r.length := by
  rw [scanWord] at h
  split at h
  · exact length_dropWord h
  · split at h
    · exact length_dropWord h
    · split at h
      · exact length_dropWord h
      · simp at h

theorem length_scanToken {b : UInt8} {r rest : List UInt8} {t : Token}
    (h : scanToken b r = some (t, rest)) : rest.length ≤ r.length := by
  rw [scanToken] at h
  split at h
  · simp only [Option.some.injEq, Prod.mk.injEq] at h
    simp [h.2]
  · split at h
    · obtain ⟨⟨ps, r'⟩, hs, he⟩ := Option.map_eq_some_iff.mp h
      simp only [Prod.mk.injEq] at he
      exact he.2 ▸ length_scanString hs
    · split at h
      · exact Nat.le_of_lt (length_scanUnsigned h)
      · split at h
        · exact Nat.le_of_lt_succ (length_scanUnsigned h)
        · exact length_scanWord h

def lex (bytes : List UInt8) : Option (List Token) :=
  match bytes with
  | [] => some []
  | b :: r =>
    if isSpace b then lex r
    else
      match _ : scanToken b r with
      | some (t, rest) => (lex rest).map (t :: ·)
      | none => none
termination_by bytes.length
decreasing_by
  · simp
  · exact Nat.lt_succ_of_le (length_scanToken ‹_›)

end TierCache.Json
