/-!
# Lowercase hexadecimal
-/
namespace TierCache.Hex

def digit (n : Nat) : Char := Char.ofNat (if n < 10 then 48 + n else 87 + n)

def isDigit (c : Char) : Bool := c.isDigit || ('a' ≤ c && c ≤ 'f')

def ofByte (b : UInt8) : List Char := [digit (b.toNat / 16), digit (b.toNat % 16)]

def ofBytes (bytes : List UInt8) : List Char := bytes.flatMap ofByte

/-- The shortest digits of a number. -/
def ofNat (n : Nat) : List Char :=
  if n < 16 then [digit n] else ofNat (n / 16) ++ [digit (n % 16)]

theorem isDigit_digit {n : Nat} (h : n < 16) : isDigit (digit n) = true := by
  have : ∀ m : Fin 16, isDigit (digit m) = true := by decide
  exact this ⟨n, h⟩

theorem all_ofBytes (bytes : List UInt8) : (ofBytes bytes).all isDigit = true := by
  rw [List.all_eq_true]
  intro c hc
  obtain ⟨b, -, hb⟩ := List.mem_flatMap.mp hc
  have hlt := b.toNat_lt
  rcases List.mem_cons.mp hb with rfl | hb
  · exact isDigit_digit (by omega)
  · rw [List.mem_singleton] at hb
    subst hb
    exact isDigit_digit (by omega)

@[simp] theorem length_ofBytes (bytes : List UInt8) :
    (ofBytes bytes).length = 2 * bytes.length := by
  induction bytes with
  | nil => rfl
  | cons b r ih => simp only [ofBytes, List.flatMap_cons, List.length_append, List.length_cons] at *
                   simp only [ofByte, List.length_cons, List.length_nil, ih]
                   omega

end TierCache.Hex
