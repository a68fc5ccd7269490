import TierCache.Archive
import TierCache.Proofs.Binary64.Rounding

/-!
# Budgets are split without loss

The distinct share of a budget is at most the budget, so that the general share is what is left, in
all cases but one: the ratio is one, and the double of the budget is above the budget.
-/
namespace TierCache.Budget

open Binary64

variable {budget : ℕ} {ratio : Binary64} {b p r : ℚ}

/-- The part of a budget that a ratio asks for; nothing is asked for outside of `0 < r ≤ 1`. -/
def fraction? (ratio : Binary64) : Option ℚ :=
  ratio.value?.filter fun r => 0 < r ∧ r ≤ 1

theorem fraction?_eq_some_iff :
    fraction? ratio = some r ↔ ratio.value? = some r ∧ 0 < r ∧ r ≤ 1 := by
  rw [fraction?, Option.filter_eq_some_iff, decide_eq_true_eq]

/-- The distinct share in doubles: the budget is rounded, then the product, and of that the part
before the point is taken, as far as it fits into a count. -/
inductive IsShare (budget : ℕ) (ratio : Binary64) : ℕ → Prop where
  | nothing : fraction? ratio = none → IsShare budget ratio 0
  | part {r b p : ℚ} : fraction? ratio = some r → Nearest budget b → Nearest (b * r) p →
      IsShare budget ratio (min ⌊p⌋₊ (UInt64.size - 1))

/-- All of the budget is asked for, and its double is above it. The largest count is not concerned,
since the share is brought back to it. -/
structure Overdrawn (budget : ℕ) (ratio : Binary64) : Prop where
  whole : ratio.value? = some 1
  above : ∃ b, Nearest budget b ∧ (budget : ℚ) < b
  notLargest : budget ≠ UInt64.size - 1

theorem nearest_le (h : budget < UInt64.size) (hb : Nearest budget b) : b ≤ 2 ^ 64 := by
  have hsize : Short (2 ^ 64) := ⟨1, 64, by norm_num, by norm_num⟩
  exact hb.le_of_le hsize (by exact_mod_cast h.le)

/-- The checks that come first turn away what is outside of `0 < r ≤ 1`. -/
theorem turnedAway_iff (h : ratio.value? = some r) :
    ((!ratio.isPositive && !ratio.isNan) || ratio.exceedsOne) = true ↔ ¬ (0 < r ∧ r ≤ 1) := by
  simp only [isNan_of_value h, Bool.not_false, Bool.and_true, Bool.or_eq_true,
    Bool.not_eq_true', ← Bool.not_eq_true, isPositive_iff h, exceedsOne_iff h]
  rw [not_and_or, not_le]

theorem split_of_none (h : budget < UInt64.size) (hnone : fraction? ratio = none) :
    split budget ratio = .ok (budget, 0) := by
  cases hvalue : ratio.value? with
  | some r =>
    have hout : ¬ (0 < r ∧ r ≤ 1) := fun hr => by
      rw [fraction?_eq_some_iff.mpr ⟨hvalue, hr⟩] at hnone
      cases hnone
    rw [split, if_pos ((turnedAway_iff hvalue).mpr hout)]
  | none =>
    rw [value?] at hvalue
    cases hshape : ratio.shape with
    | infinite negative =>
      cases negative <;> simp [split, isPositive, isNan, exceedsOne, hshape]
    | nan =>
      -- A NaN gets through the checks, but what comes out counts as zero.
      obtain ⟨b, hb, -⟩ := value_ofNat h
      obtain ⟨s, m, e, hbudget, -⟩ := shape_of_value hb
      have hproduct : ((ofNat budget).mul ratio).truncate = 0 := by
        simp only [mul, hbudget, hshape]
        decide
      simp only [split, isPositive, isNan, exceedsOne, hshape, hproduct]
      rfl
    | finite negative m e =>
      rw [hshape] at hvalue
      cases hvalue

theorem split_of_some (h : budget < UInt64.size) (hr : fraction? ratio = some r)
    (hb : Nearest budget b) (hp : Nearest (b * r) p) :
    split budget ratio = (subCounts budget (min ⌊p⌋₊ (UInt64.size - 1))).map
      fun general => (general, min ⌊p⌋₊ (UInt64.size - 1)) := by
  obtain ⟨hvalue, hpos, hle⟩ := fraction?_eq_some_iff.mp hr
  obtain ⟨b', hvalue', hb'⟩ := value_ofNat h
  obtain rfl := hb'.unique hb
  have hnonneg : 0 ≤ b' * r := mul_nonneg hb.short.nonneg hpos.le
  have hmax : b' * r ≤ 2 ^ 64 :=
    (mul_le_of_le_one_right hb.short.nonneg hle).trans (nearest_le h hb)
  have hproduct : ((ofNat budget).mul ratio).truncate = min ⌊p⌋₊ (UInt64.size - 1) := by
    refine truncate_mul hvalue' hvalue ?_ ?_ <;> rwa [abs_of_nonneg hnonneg]
  rw [split, if_neg (mt (turnedAway_iff hvalue).mp (not_not.mpr ⟨hpos, hle⟩)), hproduct]
  rfl

theorem exists_share (ratio : Binary64) (h : budget < UInt64.size) :
    ∃ distinct, IsShare budget ratio distinct ∧
      split budget ratio = (subCounts budget distinct).map fun general => (general, distinct) := by
  cases hr : fraction? ratio with
  | none =>
    refine ⟨0, .nothing hr, ?_⟩
    rw [split_of_none h hr, subCounts, if_pos (Nat.zero_le _)]
    rfl
  | some r =>
    obtain ⟨hvalue, hpos, -⟩ := fraction?_eq_some_iff.mp hr
    obtain ⟨b, -, hb⟩ := value_ofNat h
    obtain ⟨p, hp⟩ := exists_nearest_mul hb.short (short_of_value hvalue hpos)
    exact ⟨_, .part hr hb hp, split_of_some h hr hb hp⟩

/-- All of a budget is its double, which is a whole number. -/
theorem lt_whole_iff (h : budget < UInt64.size) (hb : Nearest budget b) :
    budget < min ⌊b⌋₊ (UInt64.size - 1) ↔ (budget : ℚ) < b ∧ budget ≠ UInt64.size - 1 := by
  obtain ⟨k, rfl⟩ := hb.exists_natCast
  rw [Nat.floor_natCast, lt_min_iff, Nat.cast_lt]
  exact and_congr_right fun _ => by omega

theorem lt_share_iff {distinct : ℕ} (h : budget < UInt64.size)
    (hshare : IsShare budget ratio distinct) : budget < distinct ↔ Overdrawn budget ratio := by
  cases hshare with
  | nothing hnone =>
    refine iff_of_false (Nat.not_lt_zero _) fun hover => ?_
    rw [fraction?_eq_some_iff.mpr ⟨hover.whole, by norm_num⟩] at hnone
    cases hnone
  | @part r b p hr hb hp =>
    obtain ⟨hvalue, hpos, hle⟩ := fraction?_eq_some_iff.mp hr
    rcases hle.lt_or_eq with hlt | rfl
    · -- The share is a double below that of the budget, and none is between that and the budget.
      have hpart : p ≤ budget := hb.mul_le (short_of_value hvalue hpos) hlt hp
      refine iff_of_false ?_ fun hover => ?_
      · exact not_lt.mpr ((min_le_left _ _).trans (Nat.floor_le_of_le hpart))
      · rw [hover.whole, Option.some.injEq] at hvalue
        exact hlt.ne' hvalue
    · rw [mul_one] at hp
      obtain rfl := hp.eq_self hb.short
      rw [lt_whole_iff h hb]
      constructor
      · rintro ⟨habove, hlargest⟩
        exact ⟨hvalue, ⟨p, hb, habove⟩, hlargest⟩
      · rintro ⟨-, ⟨b, hb', habove⟩, hlargest⟩
        exact ⟨hb.unique hb' ▸ habove, hlargest⟩

/-- Up to `2 ^ 53` a budget is its own double. -/
theorem not_overdrawn (h : budget ≤ 2 ^ 53) : ¬ Overdrawn budget ratio := by
  rintro ⟨-, ⟨b, hb, habove⟩, -⟩
  rw [hb.eq_self (.natCast h)] at habove
  exact lt_irrefl _ habove

theorem split_of_not_overdrawn (h : budget < UInt64.size) (hover : ¬ Overdrawn budget ratio) :
    ∃ general distinct, split budget ratio = .ok (general, distinct) ∧
      general + distinct = budget ∧ IsShare budget ratio distinct := by
  obtain ⟨distinct, hshare, hsplit⟩ := exists_share ratio h
  have hle : distinct ≤ budget := not_lt.mp fun hlt => hover ((lt_share_iff h hshare).mp hlt)
  refine ⟨budget - distinct, distinct, ?_, Nat.sub_add_cancel hle, hshare⟩
  rw [hsplit, subCounts, if_pos hle]
  rfl

theorem split_of_overdrawn (h : budget < UInt64.size) (hover : Overdrawn budget ratio) :
    split budget ratio = .error .subOverflow ∧
      ∃ distinct, IsShare budget ratio distinct ∧ budget < distinct := by
  obtain ⟨distinct, hshare, hsplit⟩ := exists_share ratio h
  have hlt : budget < distinct := (lt_share_iff h hshare).mpr hover
  refine ⟨?_, distinct, hshare, hlt⟩
  rw [hsplit, subCounts, if_neg (not_le.mpr hlt)]
  rfl

/-- A budget is split without loss whatever the ratio is, one case apart, and then the distinct
share is more than there is. -/
theorem split_lossless (ratio : Binary64) (h : budget < UInt64.size) :
    (¬ Overdrawn budget ratio → ∃ general distinct, split budget ratio = .ok (general, distinct) ∧
      general + distinct = budget ∧ IsShare budget ratio distinct) ∧
    (Overdrawn budget ratio → split budget ratio = .error .subOverflow ∧
      ∃ distinct, IsShare budget ratio distinct ∧ budget < distinct) :=
  ⟨split_of_not_overdrawn h, split_of_overdrawn h⟩

/-- At `2 ^ 53 + 3` a ratio just below one is no harm, but the ratio one is. -/
theorem split_lossless_odd : 9007199254740995 < UInt64.size ∧
    (¬ Overdrawn 9007199254740995 ⟨0x3FEFFFFFFFFFFFFF⟩ ∧ ∃ general distinct,
      split 9007199254740995 ⟨0x3FEFFFFFFFFFFFFF⟩ = .ok (general, distinct) ∧
        general + distinct = 9007199254740995) ∧
    Overdrawn 9007199254740995 ⟨0x3FF0000000000000⟩ ∧
      split 9007199254740995 ⟨0x3FF0000000000000⟩ = .error .subOverflow := by
  have hsize : 9007199254740995 < UInt64.size := by decide
  have hbelow : ¬ Overdrawn 9007199254740995 ⟨0x3FEFFFFFFFFFFFFF⟩ := by
    intro hover
    have hshape : shape ⟨0x3FEFFFFFFFFFFFFF⟩ = .finite false 0x1FFFFFFFFFFFFF (-53) := by decide
    have hwhole := hover.whole
    rw [value?, hshape] at hwhole
    norm_num at hwhole
  have hone : Overdrawn 9007199254740995 ⟨0x3FF0000000000000⟩ := by
    have hshape : shape ⟨0x3FF0000000000000⟩ = .finite false 0x10000000000000 (-52) := by decide
    have hshape' : (ofNat 9007199254740995).shape = .finite false 4503599627370498 1 := by
      decide +kernel
    obtain ⟨b, hvalue, hb⟩ := value_ofNat hsize
    refine ⟨?_, ⟨b, hb, ?_⟩, by decide⟩
    · rw [value?, hshape]
      norm_num
    · rw [value?, hshape', Option.some.injEq] at hvalue
      norm_num at hvalue ⊢
      linarith
  obtain ⟨general, distinct, hsplit, hsum, -⟩ := (split_lossless _ hsize).1 hbelow
  exact ⟨hsize, ⟨hbelow, general, distinct, hsplit, hsum⟩, hone,
    ((split_lossless _ hsize).2 hone).1⟩

theorem split_whole_fails :
    split 9007199254740995 ⟨0x3FF0000000000000⟩ = .error .subOverflow := by
  decide +kernel

/-- What a cache takes by itself is always split without loss. -/
theorem split_automatic (free : ℕ) (ratio : Binary64) : ∃ general distinct,
    split (automatic free) ratio = .ok (general, distinct) ∧
      general + distinct = automatic free := by
  have hle : automatic free ≤ ceiling := min_le_right _ _
  rw [ceiling] at hle
  have hsize : automatic free < UInt64.size := lt_of_le_of_lt hle (by decide)
  have hover : ¬ Overdrawn (automatic free) ratio := not_overdrawn (hle.trans (by norm_num))
  obtain ⟨general, distinct, hsplit, hsum, -⟩ := split_of_not_overdrawn hsize hover
  exact ⟨general, distinct, hsplit, hsum⟩

theorem ofSettings_of_split {settings : Settings} {v : Volume} {parts : ℕ × ℕ}
    (h : split (Archive.diskBudget settings v).1 settings.distinctRatio = .ok parts) :
    ∃ a w, Archive.ofSettings settings v = .ok (a, w) := by
  simp only [Archive.ofSettings, h]
  exact ⟨_, _, rfl⟩

/-- The stores of a cache are opened unless its budget is overdrawn. -/
theorem exists_ofSettings_iff {settings : Settings} {v : Volume}
    (h : (Archive.diskBudget settings v).1 < UInt64.size) :
    (∃ a w, Archive.ofSettings settings v = .ok (a, w)) ↔
      ¬ Overdrawn (Archive.diskBudget settings v).1 settings.distinctRatio := by
  constructor
  · rintro ⟨a, w, hopen⟩ hover
    simp only [Archive.ofSettings, (split_of_overdrawn h hover).1] at hopen
    cases hopen
  · intro hover
    obtain ⟨general, distinct, hsplit, -⟩ := split_of_not_overdrawn h hover
    exact ofSettings_of_split hsplit

/-- They are always opened in a cache whose capacity nobody has set. -/
theorem ofSettings_automatic {settings : Settings} (h : settings.diskCapacity = none)
    (v : Volume) : ∃ a w, Archive.ofSettings settings v = .ok (a, w) := by
  have hzero : 0 = automatic 0 := by rw [automatic, Nat.zero_sub, Nat.zero_min]
  have hbudget : ∃ free, (Archive.diskBudget settings v).1 = automatic free := by
    rw [Archive.diskBudget, h]
    split
    · exact ⟨0, hzero⟩
    · simp only [Disk.Allowance.bytes]
      split
      · rename_i hbytes
        split at hbytes
        · rw [Except.ok.injEq] at hbytes
          exact ⟨_, hbytes.symm⟩
        · cases hbytes
      · exact ⟨0, hzero⟩
  obtain ⟨free, hfree⟩ := hbudget
  obtain ⟨general, distinct, hsplit, -⟩ := split_automatic free settings.distinctRatio
  exact ofSettings_of_split (hfree ▸ hsplit)

end TierCache.Budget
