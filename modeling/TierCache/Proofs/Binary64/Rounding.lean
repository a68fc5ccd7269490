import Mathlib.Algebra.Order.Floor.Semifield
import TierCache.Binary64
import TierCache.Proofs.Binary64.Nearest

/-!
# Doubles round to the nearest

The number that a double is, and that quotients and products come out as the nearest short number.
Below the least normal double the bits of a quotient are fewer than 53, but then nothing is left of
it before the point either way.
-/
namespace TierCache.Binary64

/-- The number that a finite double is. -/
def value? (x : Binary64) : Option ℚ :=
  match x.shape with
  | .finite negative m e => some (if negative then -(m * 2 ^ e) else m * 2 ^ e)
  | _ => none

theorem unit_of_nonneg {e : ℤ} (h : 0 ≤ e) : (2 : ℚ) ^ e = (2 ^ e.toNat : ℕ) := by
  rw [Nat.cast_pow, Nat.cast_ofNat, ← zpow_natCast, Int.toNat_of_nonneg h]

theorem unit_of_neg {e : ℤ} (h : e < 0) : (2 : ℚ) ^ e = ((2 ^ (-e).toNat : ℕ) : ℚ)⁻¹ := by
  rw [Nat.cast_pow, Nat.cast_ofNat, ← zpow_natCast, Int.toNat_of_nonneg (by omega), zpow_neg,
    inv_inv]

variable {x y : Binary64} {v r : ℚ}

theorem significand_lt {negative : Bool} {m : ℕ} {e : ℤ} (h : x.shape = .finite negative m e) :
    m < 2 ^ 53 := by
  have hfraction : x.bits.toNat % hiddenBit < 2 ^ 52 := Nat.mod_lt _ (by decide)
  simp only [shape] at h
  split at h
  · split at h <;> cases h
  · split at h
    · cases h
      omega
    · cases h
      rw [hiddenBit] at hfraction ⊢
      omega

theorem shape_of_value (h : x.value? = some v) :
    ∃ negative m e, x.shape = .finite negative m e ∧ m < 2 ^ 53 ∧
      v = if negative then -((m : ℚ) * 2 ^ e) else m * 2 ^ e := by
  rw [value?] at h
  split at h
  · rename_i negative m e hshape
    exact ⟨negative, m, e, hshape, significand_lt hshape, (Option.some.inj h).symm⟩
  · cases h

theorem truncate_of_value (h : x.value? = some v) :
    x.truncate = min ⌊v⌋₊ (UInt64.size - 1) := by
  obtain ⟨negative, m, e, hshape, -, rfl⟩ := shape_of_value h
  have hpos := unit_pos e
  cases negative with
  | true =>
    have hfloor : ⌊-((m : ℚ) * 2 ^ e)⌋₊ = 0 := Nat.floor_of_nonpos (by simp; positivity)
    simp [truncate, hshape, hfloor]
  | false =>
    have hfloor : ⌊(m : ℚ) * 2 ^ e⌋₊ = if 0 ≤ e then m <<< e.toNat else m >>> (-e).toNat := by
      split
      · rename_i he
        rw [unit_of_nonneg he, ← Nat.cast_mul, Nat.floor_natCast, Nat.shiftLeft_eq]
      · rename_i he
        rw [unit_of_neg (by omega), ← div_eq_mul_inv, Nat.floor_div_eq_div,
          Nat.shiftRight_eq_div_pow]
    simp [truncate, hshape, hfloor]

theorem shape_ofBits {n : ℕ} (h : n < 2047 * hiddenBit) : shape ⟨UInt64.ofNat n⟩ =
    if n / hiddenBit = 0 then .finite false (n % hiddenBit) (-1074)
    else .finite false (hiddenBit + n % hiddenBit) ((n / hiddenBit : ℕ) - 1075) := by
  have htoNat : (UInt64.ofNat n).toNat = n := by
    rw [UInt64.toNat_ofNat']
    refine Nat.mod_eq_of_lt (h.trans ?_)
    rw [hiddenBit]
    norm_num
  have hfield : n / hiddenBit < 2047 := Nat.div_lt_of_lt_mul (by rwa [Nat.mul_comm] at h)
  have hsign : ¬ 0x8000000000000000 ≤ n := by
    rw [hiddenBit] at h
    omega
  simp only [shape, htoNat, Nat.mod_eq_of_lt (show n / hiddenBit < 2048 by omega), hsign,
    if_neg (show n / hiddenBit ≠ 2047 by omega), decide_false]

/-- The exponent in front of the significand; its leading bit, or a carry, counts as one more in the
exponent. -/
theorem value_ofBits {E m : ℕ} (hm : m ≤ 2 ^ 53) (hE : E = 0 ∨ 2 ^ 52 ≤ m)
    (hbits : E * hiddenBit + m < 2047 * hiddenBit) :
    value? ⟨UInt64.ofNat (E * hiddenBit + m)⟩ = some ((m : ℚ) * 2 ^ ((E : ℤ) - 1074)) := by
  have hhidden : hiddenBit = 2 ^ 52 := rfl
  have hpos : 0 < hiddenBit := by decide
  have hdiv : ∀ k r, E * hiddenBit + m = (E + k) * hiddenBit + r → r < hiddenBit →
      (E * hiddenBit + m) / hiddenBit = E + k ∧ (E * hiddenBit + m) % hiddenBit = r := by
    intro k r heq hr
    rw [heq, Nat.mul_comm]
    constructor
    · rw [Nat.mul_add_div hpos, Nat.div_eq_of_lt hr, Nat.add_zero]
    · rw [Nat.mul_add_mod, Nat.mod_eq_of_lt hr]
  rw [value?, shape_ofBits hbits]
  rcases lt_or_ge m hiddenBit with hlt | hge
  · obtain ⟨hfield, hfraction⟩ := hdiv 0 m rfl hlt
    have hzero : E = 0 := by omega
    subst hzero
    rw [hfield, hfraction]
    simp
  rcases hm.lt_or_eq with hlt | rfl
  · obtain ⟨hfield, hfraction⟩ := hdiv 1 (m - hiddenBit) (by rw [Nat.add_mul]; omega) (by omega)
    rw [hfield, hfraction, if_neg (by omega), Nat.add_sub_cancel' hge]
    simp only [Bool.false_eq_true, if_false]
    congr 3
    omega
  · obtain ⟨hfield, hfraction⟩ := hdiv 2 0 (by rw [Nat.add_mul]; omega) hpos
    have hexp : ((E + 2 : ℕ) : ℤ) - 1075 = E - 1074 + 1 := by omega
    rw [hfield, hfraction, if_neg (by omega)]
    simp only [Bool.false_eq_true, if_false, hexp, unit_succ, hhidden]
    refine congrArg some ?_
    push_cast
    ring

theorem scale_eq {n d : ℕ} (hd : 0 < d) (e : ℤ) : 0 < (scale n d e).2 ∧
    ((scale n d e).1 : ℚ) / (scale n d e).2 = n / d / 2 ^ e := by
  rw [scale]
  split
  · rename_i he
    rw [unit_of_nonneg he, Nat.shiftLeft_eq]
    refine ⟨by positivity, ?_⟩
    rw [Nat.cast_mul, div_div]
  · rename_i he
    rw [unit_of_neg (by omega), Nat.shiftLeft_eq]
    refine ⟨hd, ?_⟩
    rw [Nat.cast_mul, div_inv_eq_mul, mul_div_right_comm]

theorem roundHalfEven_near {n d : ℕ} (hd : 0 < d) :
    |(roundHalfEven n d : ℚ) - n / d| ≤ 1 / 2 ∧
      (|(roundHalfEven n d : ℚ) - n / d| = 1 / 2 → Even (roundHalfEven n d)) := by
  have hd' : (0 : ℚ) < d := by exact_mod_cast hd
  have hsplit : (n : ℚ) / d = (n / d : ℕ) + (n % d : ℕ) / d := by
    have h : (d : ℚ) * (n / d : ℕ) + (n % d : ℕ) = n := by exact_mod_cast Nat.div_add_mod n d
    nth_rewrite 1 [← h]
    rw [add_div, mul_div_cancel_left₀ _ hd'.ne']
  have hup : ((n / d + 1 : ℕ) : ℚ) - n / d = 1 - (n % d : ℕ) / d := by
    rw [hsplit]
    push_cast
    ring
  have hdown : ((n / d : ℕ) : ℚ) - n / d = -((n % d : ℕ) / d) := by
    rw [hsplit]
    ring
  have hrest : ((n % d : ℕ) : ℚ) / d < 1 := by
    rw [div_lt_one hd']
    exact_mod_cast Nat.mod_lt n hd
  have hrest' : (0 : ℚ) ≤ (n % d : ℕ) / d := by positivity
  have hhalf : ((n % d : ℕ) : ℚ) / d ≤ 1 / 2 ↔ 2 * (n % d) ≤ d := by
    rw [div_le_iff₀ hd', ← Nat.cast_le (α := ℚ)]
    push_cast
    constructor <;> intro h <;> linarith
  have hhalf' : (1 : ℚ) / 2 ≤ (n % d : ℕ) / d ↔ d ≤ 2 * (n % d) := by
    rw [le_div_iff₀ hd', ← Nat.cast_le (α := ℚ)]
    push_cast
    constructor <;> intro h <;> linarith
  simp only [roundHalfEven, Bool.or_eq_true, Bool.and_eq_true, decide_eq_true_eq]
  split
  · rename_i h
    have hge := hhalf'.mpr (by omega)
    rw [hup, abs_of_pos (by linarith)]
    refine ⟨by linarith, fun htie => ?_⟩
    have hle := hhalf.mp (by linarith)
    rw [Nat.even_iff]
    omega
  · rename_i h
    have hle := hhalf.mpr (by omega)
    rw [hdown, abs_neg, abs_of_nonneg hrest']
    refine ⟨hle, fun htie => ?_⟩
    have hge := hhalf'.mp htie.ge
    rw [Nat.even_iff]
    omega

theorem lt_log2 (n : ℕ) : (n : ℚ) < 2 * 2 ^ n.log2 := by
  have h := Nat.lt_log2_self (n := n)
  rw [pow_succ, mul_comm] at h
  exact_mod_cast h

/-- The logarithms of two numbers tell that of their quotient up to one. -/
theorem log2_quotient {n d : ℕ} (hn : 0 < n) (hd : 0 < d) {e : ℤ}
    (he : e = (n.log2 : ℤ) - d.log2 - 52) :
    2 ^ 51 * 2 ^ e < (n : ℚ) / d ∧ (n : ℚ) / d < 2 ^ 53 * 2 ^ e := by
  have hd' : (0 : ℚ) < d := by exact_mod_cast hd
  have hpos := unit_pos e
  have hunits : (2 : ℚ) ^ n.log2 = 2 ^ 52 * 2 ^ e * 2 ^ d.log2 := by
    have hexp : (n.log2 : ℤ) = 52 + e + d.log2 := by omega
    rw [← zpow_natCast, hexp, zpow_add₀ (by norm_num), zpow_add₀ (by norm_num), zpow_natCast]
    rfl
  have hn₁ : (2 : ℚ) ^ n.log2 ≤ n := by exact_mod_cast Nat.log2_self_le hn.ne'
  have hn₂ : (n : ℚ) < 2 * 2 ^ n.log2 := lt_log2 n
  have hd₁ : (2 : ℚ) ^ d.log2 ≤ d := by exact_mod_cast Nat.log2_self_le hd.ne'
  have hd₂ : (d : ℚ) < 2 * 2 ^ d.log2 := lt_log2 d
  constructor
  · rw [lt_div_iff₀ hd']
    calc 2 ^ 51 * 2 ^ e * (d : ℚ)
      _ < 2 ^ 51 * 2 ^ e * (2 * 2 ^ d.log2) := by gcongr
      _ = 2 ^ n.log2 := by rw [hunits]; ring
      _ ≤ n := hn₁
  · rw [div_lt_iff₀ hd']
    calc (n : ℚ)
      _ < 2 * 2 ^ n.log2 := hn₂
      _ = 2 ^ 53 * 2 ^ e * 2 ^ d.log2 := by rw [hunits]; ring
      _ ≤ 2 ^ 53 * 2 ^ e * d := by gcongr

/-- There is an exponent at which the quotient has 53 bits before the point, and it is taken if a
double can have it. -/
theorem exponentOf_eq {n d : ℕ} (hn : 0 < n) (hd : 0 < d) : ∃ e : ℤ,
    exponentOf n d = max e (-1074) ∧
      2 ^ 52 * 2 ^ e ≤ (n : ℚ) / d ∧ (n : ℚ) / d < 2 ^ 53 * 2 ^ e := by
  obtain ⟨e, he⟩ : ∃ e : ℤ, e = (n.log2 : ℤ) - d.log2 - 52 := ⟨_, rfl⟩
  obtain ⟨hlo, hhi⟩ := log2_quotient hn hd he
  obtain ⟨hden, hscale⟩ := scale_eq (n := n) hd e
  have hden' : (0 : ℚ) < (scale n d e).2 := by exact_mod_cast hden
  have hless : (scale n d e).1 < (scale n d e).2 * hiddenBit ↔ (n : ℚ) / d < 2 ^ 52 * 2 ^ e := by
    rw [← div_lt_iff₀ (unit_pos e), ← hscale, div_lt_iff₀' hden', ← Nat.cast_lt (α := ℚ),
      Nat.cast_mul, show hiddenBit = 2 ^ 52 from rfl, Nat.cast_pow, Nat.cast_ofNat]
  have hstep : (2 : ℚ) ^ e = 2 * 2 ^ (e - 1) := by rw [← unit_succ, sub_add_cancel]
  simp only [exponentOf, ← he, hless]
  split
  · rename_i h
    rw [hstep] at hlo h
    exact ⟨e - 1, rfl, by linarith, by linarith⟩
  · rename_i h
    exact ⟨e, rfl, not_lt.mp h, hhi⟩

/-- The significand of a quotient at an exponent. -/
def significandAt (n d : ℕ) (e : ℤ) : ℕ := roundHalfEven (scale n d e).1 (scale n d e).2

theorem significandAt_near {n d : ℕ} (hd : 0 < d) (e : ℤ) :
    |(significandAt n d e : ℚ) - n / d / 2 ^ e| ≤ 1 / 2 ∧
      (|(significandAt n d e : ℚ) - n / d / 2 ^ e| = 1 / 2 → Even (significandAt n d e)) := by
  obtain ⟨hden, hscale⟩ := scale_eq (n := n) hd e
  rw [← hscale]
  exact roundHalfEven_near hden

/-- Every quotient has a nearest short number. -/
theorem exists_nearest (n : ℕ) {d : ℕ} (hd : 0 < d) : ∃ v, Nearest ((n : ℚ) / d) v := by
  rcases n.eq_zero_or_pos with rfl | hn
  · refine ⟨0, ⟨0, 0, by norm_num, by norm_num⟩, fun w _ => by simp, fun w _ hne heq => ?_⟩
    simp at heq
    exact absurd heq hne
  · obtain ⟨e, -, hlo, hhi⟩ := exponentOf_eq hn hd
    obtain ⟨hnear, htie⟩ := significandAt_near (n := n) hd e
    exact ⟨_, .of_round hlo hhi hnear htie⟩

theorem significandAt_bits {n d : ℕ} (hn : 0 < n) (hd : 0 < d) :
    significandAt n d (exponentOf n d) ≤ 2 ^ 53 ∧
      (exponentOf n d = -1074 ∨ 2 ^ 52 ≤ significandAt n d (exponentOf n d)) := by
  obtain ⟨e, he, hlo, hhi⟩ := exponentOf_eq hn hd
  obtain ⟨hnear, -⟩ := significandAt_near (n := n) hd (exponentOf n d)
  have hunit : (2 : ℚ) ^ e ≤ 2 ^ exponentOf n d :=
    zpow_le_zpow_right₀ (by norm_num) (he ▸ le_max_left e (-1074))
  have hpos := unit_pos (exponentOf n d)
  constructor
  · refine ge_of_near hnear ?_
    rw [div_lt_iff₀ hpos, Nat.cast_pow, Nat.cast_ofNat]
    exact hhi.trans_le (by gcongr)
  · rcases le_total e (-1074) with hle | hge
    · exact .inl (he.trans (max_eq_right hle))
    · refine .inr (le_of_near hnear ?_)
      rw [he, max_eq_left hge, le_div_iff₀ (unit_pos e), Nat.cast_pow, Nat.cast_ofNat]
      exact hlo

/-- A quotient that is no larger than any count is a double. -/
theorem value_ofQuotient {n d : ℕ} (hn : 0 < n) (hd : 0 < d) (hmax : (n : ℚ) / d ≤ 2 ^ 64) :
    (ofQuotient n d).value? =
      some ((significandAt n d (exponentOf n d) : ℚ) * 2 ^ exponentOf n d) := by
  obtain ⟨hbits, hnormal⟩ := significandAt_bits hn hd
  obtain ⟨e', he, hlo, -⟩ := exponentOf_eq hn hd
  have hle : e' ≤ 12 := by
    by_contra hgt
    have hunit : (2 : ℚ) ^ (13 : ℤ) ≤ 2 ^ e' := zpow_le_zpow_right₀ (by norm_num) (by omega)
    norm_num at hunit hlo hmax
    linarith
  have hE : ((exponentOf n d + 1074).toNat : ℤ) = exponentOf n d + 1074 := by omega
  have hrange : (exponentOf n d + 1074).toNat * hiddenBit + significandAt n d (exponentOf n d) <
      2047 * hiddenBit := by
    rw [hiddenBit]
    omega
  have hvalue := value_ofBits hbits (by omega) hrange
  rw [hE, add_sub_cancel_right] at hvalue
  rw [← hvalue]
  fun_cases ofQuotient n d with
  | case1 hzero => omega
  | case2 hzero e num den hscale bits hlt => rw [significandAt, hscale]
  | case3 hzero e num den hscale bits hge =>
    rw [significandAt, hscale] at hrange
    exact absurd hrange hge

/-- It is the nearest short number, unless there is nothing before the point to be seen of it. -/
theorem value_near {n d : ℕ} (hn : 0 < n) (hd : 0 < d) (hmax : (n : ℚ) / d ≤ 2 ^ 64) :
    ∃ v, (ofQuotient n d).value? = some v ∧
      (Nearest ((n : ℚ) / d) v ∨ v ≤ 1 / 2 ∧ (n : ℚ) / d ≤ 1 / 2) := by
  refine ⟨_, value_ofQuotient hn hd hmax, ?_⟩
  obtain ⟨e, he, hlo, hhi⟩ := exponentOf_eq hn hd
  rcases le_total (-1074) e with hge | hle
  · rw [max_eq_left hge] at he
    obtain ⟨hnear, htie⟩ := significandAt_near (n := n) hd (exponentOf n d)
    exact .inl (.of_round (he ▸ hlo) (he ▸ hhi) hnear htie)
  · rw [max_eq_right hle] at he
    have hunit : ∀ f : ℤ, f ≤ -1074 → (2 : ℚ) ^ 53 * 2 ^ f ≤ 1 / 2 := by
      intro f hf
      have hhalf : (2 : ℚ) ^ 53 * 2 ^ (-54 : ℤ) = 1 / 2 := by norm_num
      rw [← hhalf]
      exact mul_le_mul_of_nonneg_left (zpow_le_zpow_right₀ (by norm_num) (by omega)) (by norm_num)
    have hm : ((significandAt n d (exponentOf n d) : ℕ) : ℚ) ≤ 2 ^ 53 := by
      exact_mod_cast (significandAt_bits hn hd).1
    refine .inr ⟨?_, hhi.le.trans (hunit e hle)⟩
    exact (mul_le_mul_of_nonneg_right hm (unit_pos _).le).trans (hunit _ he.le)

@[simp] theorem value_zero : zero.value? = some 0 := by
  have hshape : zero.shape = .finite false 0 (-1074) := by decide
  rw [value?, hshape]
  simp

/-- The double of a count is the nearest short number. -/
theorem value_ofNat {n : ℕ} (h : n < UInt64.size) :
    ∃ v, (ofNat n).value? = some v ∧ Nearest n v := by
  rcases n.eq_zero_or_pos with rfl | hn
  · obtain ⟨v, hv⟩ := exists_nearest 0 Nat.one_pos
    rw [Nat.cast_zero, zero_div] at hv
    rw [hv.eq_zero] at hv
    exact ⟨0, value_zero, by rwa [Nat.cast_zero]⟩
  · have hmax : (n : ℚ) / (1 : ℕ) ≤ 2 ^ 64 := by
      rw [Nat.cast_one, div_one]
      exact_mod_cast h.le
    obtain ⟨v, hvalue, hnear | ⟨-, hle⟩⟩ := value_near hn Nat.one_pos hmax
    · rw [Nat.cast_one, div_one] at hnear
      exact ⟨v, hvalue, hnear⟩
    · have hone : (1 : ℚ) ≤ n := by exact_mod_cast hn
      rw [Nat.cast_one, div_one] at hle
      linarith

/-- A quotient has before the point what the nearest short number has. -/
theorem truncate_ofQuotient {n d : ℕ} (hd : 0 < d) (hmax : (n : ℚ) / d ≤ 2 ^ 64)
    (hv : Nearest ((n : ℚ) / d) v) : (ofQuotient n d).truncate = min ⌊v⌋₊ (UInt64.size - 1) := by
  rcases n.eq_zero_or_pos with rfl | hn
  · rw [Nat.cast_zero, zero_div] at hv
    rw [hv.eq_zero, ofQuotient, if_pos rfl, truncate_of_value value_zero]
  · obtain ⟨w, hvalue, hnear | ⟨hw, hle⟩⟩ := value_near hn hd hmax
    · rw [truncate_of_value hvalue, hv.unique hnear]
    · have hshort : Short (1 / 2) := ⟨1, -1, by norm_num, by norm_num⟩
      have hv' : v ≤ 1 / 2 := hv.le_of_le hshort hle
      rw [truncate_of_value hvalue, Nat.floor_eq_zero.mpr (by linarith),
        Nat.floor_eq_zero.mpr (by linarith)]

theorem ofScaled_eq (m : ℕ) (e : ℤ) :
    ∃ n d, ofScaled m e = ofQuotient n d ∧ 0 < d ∧ (n : ℚ) / d = m * 2 ^ e := by
  rw [ofScaled]
  split
  · rename_i he
    refine ⟨m <<< e.toNat, 1, rfl, Nat.one_pos, ?_⟩
    rw [unit_of_nonneg he, Nat.shiftLeft_eq, Nat.cast_mul, Nat.cast_one, div_one]
  · rename_i he
    have hone : 1 <<< (-e).toNat = 2 ^ (-e).toNat := by rw [Nat.shiftLeft_eq, Nat.one_mul]
    refine ⟨m, 2 ^ (-e).toNat, by rw [hone], by positivity, ?_⟩
    rw [unit_of_neg (by omega), div_eq_mul_inv]

theorem exists_nearest_mul {a b : ℚ} (ha : Short a) (hb : Short b) : ∃ v, Nearest (a * b) v := by
  obtain ⟨m, e, -, rfl⟩ := ha
  obtain ⟨m', e', -, rfl⟩ := hb
  obtain ⟨n, d, -, hd, hquotient⟩ := ofScaled_eq (m * m') (e + e')
  have hproduct : (m : ℚ) * 2 ^ e * (m' * 2 ^ e') = n / d := by
    rw [hquotient, zpow_add₀ (by norm_num), Nat.cast_mul]
    ring
  rw [hproduct]
  exact exists_nearest n hd

/-- A product has before the point what the nearest short number has. -/
theorem truncate_mul {a b : ℚ} (hx : x.value? = some a) (hy : y.value? = some b)
    (hmax : |a * b| ≤ 2 ^ 64) (hv : Nearest |a * b| v) :
    (x.mul y).truncate = min ⌊v⌋₊ (UInt64.size - 1) := by
  obtain ⟨s, m, e, hshape, -, ha⟩ := shape_of_value hx
  obtain ⟨s', m', e', hshape', -, hb⟩ := shape_of_value hy
  have hsize : ∀ (s : Bool) (m : ℕ) (e : ℤ),
      |if s then -((m : ℚ) * 2 ^ e) else m * 2 ^ e| = m * 2 ^ e := by
    intro s m e
    have hpos := unit_pos e
    cases s <;> simp [abs_mul, abs_of_pos hpos]
  have hab : |a * b| = (m * m' : ℕ) * 2 ^ (e + e') := by
    rw [abs_mul, ha, hb, hsize, hsize, zpow_add₀ (by norm_num), Nat.cast_mul]
    ring
  obtain ⟨n, d, hscaled, hd, hquotient⟩ := ofScaled_eq (m * m') (e + e')
  rw [hab, ← hquotient] at hmax hv
  simp only [mul, hshape, hshape', hscaled]
  exact truncate_ofQuotient hd hmax hv

theorem isNan_of_value (h : x.value? = some r) : x.isNan = false := by
  obtain ⟨negative, m, e, hshape, -, -⟩ := shape_of_value h
  simp [isNan, hshape]

theorem isPositive_iff (h : x.value? = some r) : x.isPositive = true ↔ 0 < r := by
  obtain ⟨negative, m, e, hshape, -, rfl⟩ := shape_of_value h
  have hpos := unit_pos e
  cases negative with
  | true =>
    have hle : ¬ 0 < -((m : ℚ) * 2 ^ e) := by
      rw [not_lt, neg_nonpos]
      positivity
    simp only [isPositive, hshape, Bool.not_true, Bool.false_and, if_true, hle, Bool.false_eq_true]
  | false => simp [isPositive, hshape, hpos]

theorem exceedsOne_iff (h : x.value? = some r) : x.exceedsOne = true ↔ 1 < r := by
  obtain ⟨negative, m, e, hshape, -, rfl⟩ := shape_of_value h
  have hpos := unit_pos e
  cases negative with
  | true =>
    have hle : ¬ 1 < -((m : ℚ) * 2 ^ e) := by
      have : 0 ≤ (m : ℚ) * 2 ^ e := by positivity
      linarith
    simp only [exceedsOne, hshape, Bool.not_true, Bool.false_and, if_true, hle, Bool.false_eq_true]
  | false =>
    simp only [exceedsOne, hshape, Bool.not_false, Bool.true_and, Bool.false_eq_true, if_false]
    split
    · rename_i he
      rw [decide_eq_true_eq, unit_of_nonneg he, Nat.shiftLeft_eq, ← Nat.cast_mul, Nat.one_lt_cast]
    · rename_i he
      have hunit : (0 : ℚ) < (2 ^ (-e).toNat : ℕ) := by positivity
      rw [decide_eq_true_eq, unit_of_neg (by omega), ← div_eq_mul_inv, one_lt_div hunit,
        Nat.cast_lt, Nat.shiftLeft_eq, Nat.one_mul]

theorem short_of_value (h : x.value? = some r) (hr : 0 < r) : Short r := by
  obtain ⟨negative, m, e, -, hm, rfl⟩ := shape_of_value h
  have hpos := unit_pos e
  cases negative with
  | true =>
    have hle : 0 ≤ (m : ℚ) * 2 ^ e := by positivity
    rw [if_pos rfl] at hr
    linarith
  | false => exact ⟨m, e, hm, rfl⟩

end TierCache.Binary64
