/-!
# Decimal integers

`digits?` reads a non-empty run of ASCII digits, leading zeros allowed; `below?` adds a bound and
`unsigned?` and `signed?` a sign.
-/
namespace TierCache.Decimal

def digitValue (c : Char) : Nat := c.toNat - 48

/-- Most significant digit first. -/
def value (ds : List Char) : Nat := ds.foldl (fun n d => 10 * n + digitValue d) 0

def digits? (cs : List Char) : Option Nat :=
  if cs ≠ [] ∧ cs.all Char.isDigit then some (value cs) else none

/-- A number below `bound`. Nothing is read after it has become too large. -/
def below? (bound : Nat) (cs : List Char) : Option Nat :=
  if cs ≠ [] ∧ cs.all Char.isDigit then
    cs.foldlM (fun n d =>
      if 10 * n + digitValue d < bound then some (10 * n + digitValue d) else none) 0
  else none

/-- A plus sign may stand in front. -/
def unsigned? (bound : Nat) : List Char → Option Nat
  | '+' :: r => below? bound r
  | cs => below? bound cs

/-- A number of 64 bits in two's complement; either sign may stand in front. -/
def signed? : List Char → Option Int
  | '-' :: r => (below? 0x8000000000000001 r).map fun n => -(n : Int)
  | '+' :: r => (below? 0x8000000000000000 r).map fun n => (n : Int)
  | cs => (below? 0x8000000000000000 cs).map fun n => (n : Int)

theorem le_foldl (n : Nat) (ds : List Char) :
    n ≤ ds.foldl (fun n d => 10 * n + digitValue d) n := by
  induction ds generalizing n with
  | nil => exact Nat.le_refl n
  | cons d ds ih => exact Nat.le_trans (by omega) (ih (10 * n + digitValue d))

theorem foldlM_below {bound n : Nat} (h : n < bound) (ds : List Char) :
    ds.foldlM (fun n d =>
      if 10 * n + digitValue d < bound then some (10 * n + digitValue d) else none) n =
      (some (ds.foldl (fun n d => 10 * n + digitValue d) n)).filter (· < bound) := by
  induction ds generalizing n with
  | nil => simp [Option.filter_some, h]
  | cons d ds ih =>
    rw [List.foldlM_cons, List.foldl_cons]
    split
    · rename_i hd
      exact ih hd
    · rename_i hd
      have := le_foldl (10 * n + digitValue d) ds
      rw [Option.filter_some, if_neg (by simp; omega)]
      rfl

theorem below?_eq {bound : Nat} (h : 0 < bound) (cs : List Char) :
    below? bound cs = (digits? cs).filter (· < bound) := by
  unfold below? digits? value
  split
  · exact foldlM_below h cs
  · rfl

end TierCache.Decimal
