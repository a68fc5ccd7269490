/-!
# Big-endian numbers

A number as a fixed count of bytes, most significant first. What is written reads back as the
number, cut to as many bytes as there are.
-/
namespace TierCache.Bytes

/-- The last `count` bytes of a number, most significant first. -/
def bigEndian (n : Nat) : Nat → List UInt8
  | 0 => []
  | count + 1 => bigEndian (n / 256) count ++ [UInt8.ofNat n]

def value (bytes : List UInt8) : Nat := bytes.foldl (fun n b => 256 * n + b.toNat) 0

/-- The first number that needs more than `count` bytes. -/
def bound : Nat → Nat
  | 0 => 1
  | count + 1 => 256 * bound count

@[simp] theorem length_bigEndian (n count : Nat) : (bigEndian n count).length = count := by
  induction count generalizing n with
  | zero => rfl
  | succ count ih => simp [bigEndian, ih]

theorem value_append_singleton (bytes : List UInt8) (b : UInt8) :
    value (bytes ++ [b]) = 256 * value bytes + b.toNat := by
  rw [value, List.foldl_append]
  rfl

theorem value_bigEndian (n count : Nat) : value (bigEndian n count) = n % bound count := by
  induction count generalizing n with
  | zero => exact (Nat.mod_one n).symm
  | succ count ih =>
    rw [bigEndian, value_append_singleton, ih, bound, Nat.mod_mul, UInt8.toNat_ofNat', Nat.add_comm]

end TierCache.Bytes
