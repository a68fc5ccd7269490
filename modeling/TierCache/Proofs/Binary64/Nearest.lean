import Mathlib.Algebra.Order.Field.Power
import Mathlib.Data.Rat.Floor
import Mathlib.Tactic.Linarith
import Mathlib.Tactic.Positivity
import Mathlib.Tactic.Ring

/-!
# Rounding to 53 bits

The numbers that 53 bits hold, with the point anywhere, and the one of them that is nearest to a
number. From a power of two on, the short numbers are the multiples of one unit, up to the next
power; this is what all the rest is read off.
-/
namespace TierCache.Binary64

/-- A number of at most 53 bits, with the point anywhere. -/
def Short (v : ℚ) : Prop := ∃ (m : ℕ) (e : ℤ), m < 2 ^ 53 ∧ v = m * 2 ^ e

/-- Of the 53 bits the last one is zero. -/
def EvenShort (v : ℚ) : Prop :=
  ∃ (m : ℕ) (e : ℤ), 2 ^ 52 ≤ m ∧ m < 2 ^ 53 ∧ Even m ∧ v = m * 2 ^ e

/-- The short number that is nearest to `q`, and of two the even one. -/
structure Nearest (q v : ℚ) : Prop where
  short : Short v
  le : ∀ w, Short w → |v - q| ≤ |w - q|
  even : ∀ w, Short w → w ≠ v → |w - q| = |v - q| → EvenShort v

theorem unit_pos (e : ℤ) : (0 : ℚ) < 2 ^ e := zpow_pos (by norm_num) e

theorem unit_succ (e : ℤ) : (2 : ℚ) ^ (e + 1) = 2 * 2 ^ e := by
  rw [zpow_add_one₀ (by norm_num)]
  ring

namespace Short

variable {v w : ℚ} {m : ℕ} {e : ℤ}

theorem mul_unit (h : m ≤ 2 ^ 53) : Short (m * 2 ^ e) := by
  rcases h.lt_or_eq with hlt | rfl
  · exact ⟨m, e, hlt, rfl⟩
  · refine ⟨2 ^ 52, e + 1, by norm_num, ?_⟩
    rw [unit_succ]
    push_cast
    ring

theorem natCast (h : m ≤ 2 ^ 53) : Short m := by
  simpa using mul_unit (e := 0) h

theorem nonneg (h : Short w) : 0 ≤ w := by
  obtain ⟨m, e, -, rfl⟩ := h
  have := unit_pos e
  positivity

/-- A positive short number has a significand of exactly 53 bits. -/
theorem normal (h : Short w) (hpos : 0 < w) :
    ∃ (m : ℕ) (e : ℤ), 2 ^ 52 ≤ m ∧ m < 2 ^ 53 ∧ w = m * 2 ^ e := by
  obtain ⟨m, e, hm, rfl⟩ := h
  have hne : m ≠ 0 := by
    rintro rfl
    simp at hpos
  have hlog : m.log2 ≤ 52 := Nat.lt_succ_iff.mp ((Nat.log2_lt hne).mpr hm)
  obtain ⟨k, hk⟩ := Nat.exists_eq_add_of_le hlog
  have hlo := Nat.mul_le_mul_right (2 ^ k) (Nat.log2_self_le hne)
  have hhi := Nat.mul_lt_mul_of_pos_right (Nat.lt_log2_self (n := m)) (Nat.two_pow_pos k)
  rw [← pow_add] at hlo hhi
  refine ⟨m * 2 ^ k, e - k, ?_, ?_, ?_⟩
  · rwa [hk]
  · rwa [show m.log2 + 1 + k = 53 by omega] at hhi
  · rw [zpow_sub₀ (by norm_num), zpow_natCast]
    push_cast
    field_simp

/-- From `2 ^ 52` units on a short number is a whole number of them. -/
theorem eq_mul_unit (h : Short w) (hle : 2 ^ 52 * 2 ^ e ≤ w) : ∃ j : ℕ, w = j * 2 ^ e := by
  obtain ⟨m, f, hm, rfl⟩ := h
  rcases le_or_gt e f with hef | hfe
  · refine ⟨m * 2 ^ (f - e).toNat, ?_⟩
    have hsplit : (2 : ℚ) ^ f = 2 ^ (f - e).toNat * 2 ^ e := by
      rw [← zpow_natCast, ← zpow_add₀ (by norm_num)]
      congr 1
      omega
    rw [hsplit]
    push_cast
    ring
  · exfalso
    have hunit : (2 : ℚ) ^ (f + 1) ≤ 2 ^ e := zpow_le_zpow_right₀ (by norm_num) hfe
    rw [unit_succ] at hunit
    have hm' : (m : ℚ) < 2 ^ 53 := by exact_mod_cast hm
    have := unit_pos f
    nlinarith

/-- No short number is between two neighbours. -/
theorem le_of_lt (h : Short w) (hm : 2 ^ 52 ≤ m) (hlt : m * 2 ^ e < w) :
    (m + 1 : ℕ) * 2 ^ e ≤ w := by
  have hpos := unit_pos e
  have hm' : (2 : ℚ) ^ 52 ≤ m := by exact_mod_cast hm
  obtain ⟨j, rfl⟩ := h.eq_mul_unit (e := e) (by nlinarith)
  have hj : (m : ℚ) < j := lt_of_mul_lt_mul_right hlt hpos.le
  have hj' : m + 1 ≤ j := by exact_mod_cast hj
  have hj'' : ((m + 1 : ℕ) : ℚ) ≤ j := by exact_mod_cast hj'
  exact mul_le_mul_of_nonneg_right hj'' hpos.le

/-- A short number below one is below it by the last of 53 bits. -/
theorem le_of_lt_one (h : Short w) (hlt : w < 1) : w ≤ 1 - 2 ^ (-53 : ℤ) := by
  have hone : (2 : ℚ) ^ 53 * 2 ^ (-53 : ℤ) = 1 := by norm_num
  have hpos := unit_pos (-53)
  rcases lt_or_ge w (2 ^ 52 * 2 ^ (-53 : ℤ)) with hhalf | hhalf
  · linarith
  · obtain ⟨j, rfl⟩ := h.eq_mul_unit hhalf
    rw [← hone] at hlt ⊢
    have hj : (j : ℚ) < 2 ^ 53 := lt_of_mul_lt_mul_right hlt hpos.le
    have hj' : j + 1 ≤ 2 ^ 53 := by exact_mod_cast hj
    have hj'' : (j : ℚ) + 1 ≤ 2 ^ 53 := by exact_mod_cast hj'
    nlinarith

/-- Lowered by the last of 53 bits, a short number is nearer to one below it than to itself. -/
theorem exists_below (h : Short w) (hpos : 0 < w) :
    ∃ u, Short u ∧ u < w ∧ w * (1 - 2 ^ (-53 : ℤ)) < (u + w) / 2 := by
  obtain ⟨m, e, hm, hm', rfl⟩ := h.normal hpos
  have hunit := unit_pos e
  have hlast : (2 : ℚ) ^ (-53 : ℤ) = 1 / 2 ^ 53 := by norm_num
  rcases hm.lt_or_eq with hlt | rfl
  · have hlt' : (2 : ℚ) ^ 52 < m := by exact_mod_cast hlt
    have hpred : ((m - 1 : ℕ) : ℚ) = m - 1 := by
      rw [Nat.cast_sub (by omega), Nat.cast_one]
    refine ⟨(m - 1 : ℕ) * 2 ^ e, .mul_unit (by omega), ?_, ?_⟩
    · rw [hpred]
      linarith
    · rw [hpred, hlast]
      nlinarith
  · -- Below a power of two the numbers are twice as dense.
    have hhalf : (2 : ℚ) ^ e = 2 * 2 ^ (e - 1) := by rw [← unit_succ, sub_add_cancel]
    have hunit' := unit_pos (e - 1)
    refine ⟨(2 ^ 53 - 1 : ℕ) * 2 ^ (e - 1), .mul_unit (by norm_num), ?_, ?_⟩
    · rw [hhalf]
      norm_num
      linarith
    · rw [hhalf, hlast]
      norm_num
      linarith

end Short

/-- A number has only one significand of exactly 53 bits. -/
theorem significand_unique {m n : ℕ} {e f : ℤ} (hm : 2 ^ 52 ≤ m) (hm' : m < 2 ^ 53)
    (hn : 2 ^ 52 ≤ n) (hn' : n < 2 ^ 53) (heq : (m : ℚ) * 2 ^ e = n * 2 ^ f) : m = n := by
  have hne : ∀ {m n : ℕ} {e f : ℤ}, m < 2 ^ 53 → 2 ^ 52 ≤ n → e < f →
      (m : ℚ) * 2 ^ e ≠ n * 2 ^ f := by
    intro m n e f hm hn hef
    have hunit : (2 : ℚ) ^ (e + 1) ≤ 2 ^ f := zpow_le_zpow_right₀ (by norm_num) hef
    rw [unit_succ] at hunit
    have hm' : (m : ℚ) < 2 ^ 53 := by exact_mod_cast hm
    have hn' : (2 : ℚ) ^ 52 ≤ n := by exact_mod_cast hn
    have := unit_pos e
    apply ne_of_lt
    calc (m : ℚ) * 2 ^ e
      _ < 2 ^ 53 * 2 ^ e := by gcongr
      _ = 2 ^ 52 * (2 * 2 ^ e) := by ring
      _ ≤ n * 2 ^ f := by gcongr
  rcases lt_trichotomy e f with hef | rfl | hfe
  · exact absurd heq (hne hm' hn hef)
  · exact_mod_cast mul_right_cancel₀ (unit_pos e).ne' heq
  · exact absurd heq.symm (hne hn' hm hfe)

section Whole

variable {m j : ℕ} {x : ℚ}

theorem half_le_of_ne (hm : |(m : ℚ) - x| ≤ 1 / 2) (hj : j ≠ m) : 1 / 2 ≤ |(j : ℚ) - x| := by
  have hone : (1 : ℚ) ≤ |(j : ℚ) - m| := by
    have : (1 : ℤ) ≤ |(j : ℤ) - m| := Int.one_le_abs (by omega)
    exact_mod_cast this
  have := abs_sub_le (j : ℚ) x m
  rw [abs_sub_comm x] at this
  linarith

theorem near_le (hm : |(m : ℚ) - x| ≤ 1 / 2) (j : ℕ) : |(m : ℚ) - x| ≤ |(j : ℚ) - x| := by
  rcases eq_or_ne j m with rfl | hj
  · exact le_rfl
  · exact hm.trans (half_le_of_ne hm hj)

theorem le_of_near (hm : |(m : ℚ) - x| ≤ 1 / 2) (h : (j : ℚ) ≤ x) : j ≤ m := by
  rw [abs_le] at hm
  have : (j : ℚ) < (m + 1 : ℕ) := by
    push_cast
    linarith
  exact Nat.lt_succ_iff.mp (by exact_mod_cast this)

theorem ge_of_near (hm : |(m : ℚ) - x| ≤ 1 / 2) (h : x < j) : m ≤ j := by
  rw [abs_le] at hm
  have : (m : ℚ) < (j + 1 : ℕ) := by
    push_cast
    linarith
  exact Nat.lt_succ_iff.mp (by exact_mod_cast this)

end Whole

namespace Nearest

variable {q v w : ℚ}

theorem le_of_le (h : Nearest q v) (hw : Short w) (hle : q ≤ w) : v ≤ w := by
  by_contra hlt
  rw [not_le] at hlt
  have hnear := h.le w hw
  rw [abs_of_nonneg (by linarith), abs_of_nonneg (by linarith)] at hnear
  linarith

theorem ge_of_ge (h : Nearest q v) (hw : Short w) (hle : w ≤ q) : w ≤ v := by
  by_contra hlt
  rw [not_le] at hlt
  have hnear := h.le w hw
  rw [abs_of_nonpos (by linarith), abs_of_nonpos (by linarith)] at hnear
  linarith

/-- A short number is its own nearest. -/
theorem eq_self (h : Nearest q v) (hq : Short q) : v = q :=
  le_antisymm (h.le_of_le hq le_rfl) (h.ge_of_ge hq le_rfl)

theorem eq_zero (h : Nearest 0 v) : v = 0 :=
  h.eq_self (by exact_mod_cast Short.natCast (Nat.zero_le _))

theorem lt_of_lt_mid (h : Nearest q v) {u : ℚ} (hu : Short u) (huw : u < w)
    (hq : q < (u + w) / 2) : v < w := by
  by_contra hle
  rw [not_lt] at hle
  have hnear := h.le u hu
  rw [abs_of_pos (by linarith)] at hnear
  rcases abs_cases (u - q) with ⟨heq, -⟩ | ⟨heq, -⟩ <;> linarith

/-- A part of a short number that is not all of it is not rounded to all of it. -/
theorem mul_lt {r : ℚ} (hw : Short w) (hpos : 0 < w) (hr : Short r) (hlt : r < 1)
    (h : Nearest (w * r) v) : v < w := by
  obtain ⟨u, hu, huw, hmid⟩ := hw.exists_below hpos
  refine h.lt_of_lt_mid hu huw (lt_of_le_of_lt ?_ hmid)
  exact mul_le_mul_of_nonneg_left (hr.le_of_lt_one hlt) hpos.le

/-- Nor is a part of a whole number, rounded twice, more than the whole number. -/
theorem mul_le {n : ℕ} {r : ℚ} (hw : Nearest n w) (hr : Short r) (hlt : r < 1)
    (h : Nearest (w * r) v) : v ≤ n := by
  rcases le_or_gt w n with hle | hgt
  · have hpart : w * r ≤ w := mul_le_of_le_one_right hw.short.nonneg hlt.le
    exact (h.le_of_le hw.short hpart).trans hle
  · have hpos : 0 < w := n.cast_nonneg.trans_lt hgt
    by_contra hnv
    rw [not_le] at hnv
    exact absurd (hw.le_of_le h.short hnv.le) (not_le.mpr (mul_lt hw.short hpos hr hlt h))

/-- A whole number is rounded to a whole number. -/
theorem exists_natCast {n : ℕ} (h : Nearest n v) : ∃ k : ℕ, v = k := by
  rcases le_or_gt n (2 ^ 53) with hle | hgt
  · exact ⟨n, h.eq_self (.natCast hle)⟩
  · have hpower : ((2 ^ 53 : ℕ) : ℚ) ≤ v := h.ge_of_ge (.natCast le_rfl) (by exact_mod_cast hgt.le)
    obtain ⟨k, hk⟩ := h.short.eq_mul_unit (e := 0) (by norm_num at hpower ⊢; linarith)
    exact ⟨k, by rw [hk, zpow_zero, mul_one]⟩

/-- Two that are nearest would be neighbours with the last bit zero, but of neighbours one is
odd. -/
theorem le_nearest (h : Nearest q v) (h' : Nearest q w) : w ≤ v := by
  by_contra hlt
  rw [not_le] at hlt
  have hdist : |v - q| = |w - q| := le_antisymm (h.le w h'.short) (h'.le v h.short)
  obtain ⟨m, e, hm, hm', hm₂, hv⟩ := h.even w h'.short hlt.ne' hdist.symm
  obtain ⟨n, f, hn, hn', hn₂, hw⟩ := h'.even v h.short hlt.ne hdist
  have hsucc : m + 1 < 2 ^ 53 := by
    obtain ⟨i, hi⟩ := hm₂
    omega
  have hshort : Short ((m + 1 : ℕ) * 2 ^ e) := .mul_unit hsucc.le
  have hlast : v < (m + 1 : ℕ) * 2 ^ e := by
    rw [hv]
    exact mul_lt_mul_of_pos_right (by exact_mod_cast m.lt_succ_self) (unit_pos e)
  have hnext : w = (m + 1 : ℕ) * 2 ^ e := by
    refine le_antisymm ?_ (h'.short.le_of_lt hm (hv ▸ hlt))
    rcases le_total q ((m + 1 : ℕ) * 2 ^ e) with hle | hge
    · exact h'.le_of_le hshort hle
    · exact absurd (h.ge_of_ge hshort hge) (not_le.mpr hlast)
  obtain rfl := significand_unique hn hn' (by omega) hsucc (hw.symm.trans hnext)
  obtain ⟨i, hi⟩ := hm₂
  obtain ⟨j, hj⟩ := hn₂
  omega

theorem unique (h : Nearest q v) (h' : Nearest q w) : v = w :=
  le_antisymm (h'.le_nearest h) (h.le_nearest h')

/-- A number with 53 bits before the point is rounded to the nearest whole number. -/
theorem of_round {m : ℕ} {e : ℤ} (hlo : 2 ^ 52 * 2 ^ e ≤ q) (hhi : q < 2 ^ 53 * 2 ^ e)
    (hm : |(m : ℚ) - q / 2 ^ e| ≤ 1 / 2) (htie : |(m : ℚ) - q / 2 ^ e| = 1 / 2 → Even m) :
    Nearest q (m * 2 ^ e) := by
  have hpos := unit_pos e
  generalize ht : (2 : ℚ) ^ e = t at *
  generalize hx : q / t = x at *
  obtain rfl : q = x * t := by rw [← hx, div_mul_cancel₀ _ hpos.ne']
  have hlo' : ((2 ^ 52 : ℕ) : ℚ) ≤ x := by
    push_cast
    exact le_of_mul_le_mul_right hlo hpos
  have hhi' : x < ((2 ^ 53 : ℕ) : ℚ) := by
    push_cast
    exact lt_of_mul_lt_mul_right hhi hpos.le
  have hbits : 2 ^ 52 ≤ m := le_of_near hm hlo'
  have hbits' : m ≤ 2 ^ 53 := ge_of_near hm hhi'
  have hdist : ∀ a : ℚ, |a * t - x * t| = |a - x| * t := by
    intro a
    rw [← sub_mul, abs_mul, abs_of_pos hpos]
  -- A short number below `2 ^ 52` units is farther away than that number of units.
  have hsmall : ∀ w, w < 2 ^ 52 * t → |(m : ℚ) * t - x * t| < |w - x * t| := by
    intro w hw
    have hpower := near_le hm (2 ^ 52)
    rw [abs_of_nonpos (by linarith : ((2 ^ 52 : ℕ) : ℚ) - x ≤ 0), Nat.cast_pow,
      Nat.cast_ofNat] at hpower
    rw [hdist, abs_of_neg (by linarith : w - x * t < 0)]
    nlinarith
  have hcases : ∀ w, Short w → w < 2 ^ 52 * t ∨ ∃ j : ℕ, w = j * t := by
    intro w hw
    rcases lt_or_ge w (2 ^ 52 * t) with hlt | hge
    · exact .inl hlt
    · obtain ⟨j, hj⟩ := hw.eq_mul_unit (e := e) (by rwa [ht])
      exact .inr ⟨j, by rw [hj, ht]⟩
  refine ⟨ht ▸ .mul_unit hbits', fun w hw => ?_, fun w hw hne heq => ?_⟩
  · rcases hcases w hw with hlt | ⟨j, rfl⟩
    · exact (hsmall w hlt).le
    · rw [hdist, hdist]
      exact mul_le_mul_of_nonneg_right (near_le hm j) hpos.le
  · rcases hcases w hw with hlt | ⟨j, rfl⟩
    · exact absurd heq (hsmall w hlt).ne'
    · rw [hdist, hdist] at heq
      have hj : j ≠ m := fun hj => hne (by rw [hj])
      have heven : Even m := by
        refine htie (le_antisymm hm ?_)
        rw [← mul_right_cancel₀ hpos.ne' heq]
        exact half_le_of_ne hm hj
      rcases hbits'.lt_or_eq with hlt | rfl
      · exact ⟨m, e, hbits, hlt, heven, by rw [ht]⟩
      · refine ⟨2 ^ 52, e + 1, le_rfl, by norm_num, by decide, ?_⟩
        rw [unit_succ, ht]
        push_cast
        ring

end Nearest

end TierCache.Binary64
