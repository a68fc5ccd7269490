import TierCache.Lifetime

/-!
# Expiries as exact sums

Over unbounded numbers, what lives for a span is due the whole milliseconds of the span after it
came, and at the last instant there is if that lies beyond it. The expiries are these sums exactly
for spans that fit: their milliseconds are a 64-bit number, or lead beyond the last instant also
when they are counted from zero again. What lives for a span that does not fit expires too early,
before what lives for a shorter one.
-/
namespace TierCache

namespace Span

/-- All of the span, in nanoseconds. -/
def totalNanos (s : Span) : Nat := s.seconds.toNat * 1000000000 + s.nanos

theorem wholeMillis_eq (s : Span) : s.wholeMillis = s.totalNanos / 1000000 := by
  rw [wholeMillis, totalNanos]
  omega

theorem toNat_millis (s : Span) : s.millis.toNat = s.totalNanos / 1000000 % UInt64.size := by
  rw [millis, wholeMillis_eq, UInt64.toNat_ofNat']

theorem isZero_iff {s : Span} : s.isZero = true ↔ s.totalNanos = 0 := by
  rw [isZero, Bool.and_eq_true, decide_eq_true_eq, decide_eq_true_eq, totalNanos,
    ← UInt64.toNat_inj, UInt64.toNat_zero]
  omega

theorem totalNanos_ofMillis (ms : UInt64) : (ofMillis ms).totalNanos = ms.toNat * 1000000 := by
  have hdiv : (ms / 1000).toNat = ms.toNat / 1000 := UInt64.toNat_div ms 1000
  change (ms / 1000).toNat * 1000000000 + ms.toNat % 1000 * 1000000 = ms.toNat * 1000000
  omega

end Span

/-- The instant a span later, over unbounded numbers, or the last one there is. -/
def Instant.due (now : Instant) (s : Span) : Nat :=
  min (UInt64.size - 1) (now.toNat + s.totalNanos / 1000000)

/-- The milliseconds are a 64-bit number, or lead beyond the last instant as they are counted. -/
def Span.Fits (s : Span) (now : Instant) : Prop :=
  s.totalNanos / 1000000 < UInt64.size ∨
    UInt64.size - 1 ≤ now.toNat + s.totalNanos / 1000000 % UInt64.size

variable {now : Instant} {s toRefresh toLive : Span}

instance : Decidable (s.Fits now) := inferInstanceAs (Decidable (_ ∨ _))

/-- The milliseconds are counted from zero again after the last 64-bit number. -/
theorem Instant.toNat_after_millis (now : Instant) (s : Span) : (Instant.after now s.millis).toNat =
    min (UInt64.size - 1) (now.toNat + s.totalNanos / 1000000 % UInt64.size) := by
  rw [toNat_after, Span.toNat_millis, Nat.min_comm]

theorem Instant.after_le_due (now : Instant) (s : Span) :
    (Instant.after now s.millis).toNat ≤ due now s := by
  have hle := Nat.mod_le (s.totalNanos / 1000000) UInt64.size
  rw [toNat_after_millis, due]
  omega

theorem Instant.after_eq_due_iff : (Instant.after now s.millis).toNat = due now s ↔ s.Fits now := by
  have hs : UInt64.size = 18446744073709551616 := rfl
  have hlt := now.toNat_lt
  rw [toNat_after_millis, due, Span.Fits, hs]
  omega

theorem Instant.due_mono {longer : Span} (h : s.totalNanos ≤ longer.totalNanos) :
    due now s ≤ due now longer := by
  have hle : s.totalNanos / 1000000 ≤ longer.totalNanos / 1000000 := Nat.div_le_div_right h
  rw [due, due]
  omega

/-- The longest span of 64-bit milliseconds. -/
def Span.longest : Span := ofMillis (UInt64.ofNat (UInt64.size - 1))

theorem Span.totalNanos_longest : longest.totalNanos = (UInt64.size - 1) * 1000000 :=
  totalNanos_ofMillis _

theorem Instant.after_longest (now : Instant) :
    (Instant.after now Span.longest.millis).toNat = UInt64.size - 1 := by
  have hfits : Span.longest.Fits now := .inl (by decide)
  rw [after_eq_due_iff.mpr hfits, due, Span.totalNanos_longest]
  omega

/-- What lives for a span that does not fit expires before the last instant, and the span is longer
than one that leads to the last instant. -/
theorem Span.early_of_not_fits (h : ¬ s.Fits now) :
    longest.totalNanos ≤ s.totalNanos ∧ (Instant.after now s.millis).toNat < UInt64.size - 1 := by
  have hs : UInt64.size = 18446744073709551616 := rfl
  rw [Fits, hs] at h
  rw [totalNanos_longest, Instant.toNat_after_millis, hs]
  omega

/-- The expiries are the exact sums. The soft one is the hard one without a time to refresh. -/
structure Metadata.Due (m : Metadata) (now : Instant) (toRefresh toLive : Span) : Prop where
  hard : m.hardExpiry.toNat = now.due toLive
  soft : m.softExpiry.toNat =
    if toRefresh.totalNanos = 0 then now.due toLive else now.due toRefresh

theorem Metadata.due_iff (server : Instant) :
    (ofLifetime server now toRefresh toLive).Due now toRefresh toLive ↔
      toRefresh.Fits now ∧ toLive.Fits now := by
  have hsoft : (ofLifetime server now toRefresh toLive).softExpiry =
      if toRefresh.totalNanos = 0 then .after now toLive.millis
      else .after now toRefresh.millis := by
    simp only [ofLifetime, Span.isZero_iff]
  constructor
  · rintro ⟨hhard, hs⟩
    have hlive : toLive.Fits now := Instant.after_eq_due_iff.mp hhard
    rw [hsoft] at hs
    split at hs
    · rename_i hzero
      exact ⟨.inl (by rw [hzero]; decide), hlive⟩
    · exact ⟨Instant.after_eq_due_iff.mp hs, hlive⟩
  · rintro ⟨hrefresh, hlive⟩
    refine ⟨Instant.after_eq_due_iff.mpr hlive, ?_⟩
    rw [hsoft]
    split
    · exact Instant.after_eq_due_iff.mpr hlive
    · exact Instant.after_eq_due_iff.mpr hrefresh

namespace Freshness

/-- How far the data has aged. -/
def age : Freshness → Nat
  | .fresh => 0
  | .stale => 1
  | .expired => 2

theorem age_mono (m : Metadata) {t t' : Instant} (h : t ≤ t') :
    (ofMetadata m t).age ≤ (ofMetadata m t').age := by
  rw [ofMetadata, ofMetadata]
  by_cases hhard : m.hardExpiry ≤ t
  · simp only [if_pos hhard, if_pos (UInt64.le_trans hhard h), Nat.le_refl]
  · rw [if_neg hhard]
    by_cases hsoft : m.softExpiry ≤ t
    · rw [if_pos hsoft, if_pos (UInt64.le_trans hsoft h)]
      split <;> decide
    · rw [if_neg hsoft]
      exact Nat.zero_le _

end Freshness

/-- Data is served before an instant and not from there on. -/
theorem Freshness.served_until_iff {m : Metadata} {n : Nat} (hn : n < UInt64.size) :
    (∀ t, (ofMetadata m t).mayServe = true ↔ t.toNat < n) ↔ m.hardExpiry.toNat = n := by
  simp only [mayServe_ofMetadata, decide_eq_true_eq, UInt64.lt_iff_toNat_lt]
  constructor
  · intro h
    have hhard := h m.hardExpiry
    have hlast := h (UInt64.ofNat n)
    rw [UInt64.toNat_ofNat', Nat.mod_eq_of_lt hn] at hlast
    omega
  · rintro rfl t
    exact Iff.rfl

/-- The expiries are the exact sums exactly for spans that fit. Just then data is served until its
life is over and no longer, and lives no shorter than any that was given less time. In any case it
only ages. -/
theorem Metadata.expiries_exact (server now : Instant) (toRefresh toLive : Span) :
    ((ofLifetime server now toRefresh toLive).Due now toRefresh toLive ↔
      toRefresh.Fits now ∧ toLive.Fits now) ∧
    ((∀ t, (Freshness.ofMetadata (ofLifetime server now toRefresh toLive) t).mayServe = true ↔
      t.toNat < now.due toLive) ↔ toLive.Fits now) ∧
    ((∀ shorter : Span, shorter.totalNanos ≤ toLive.totalNanos →
      (ofLifetime server now toRefresh shorter).hardExpiry ≤
        (ofLifetime server now toRefresh toLive).hardExpiry) ↔ toLive.Fits now) ∧
    ∀ t t', t ≤ t' → (Freshness.ofMetadata (ofLifetime server now toRefresh toLive) t).age ≤
      (Freshness.ofMetadata (ofLifetime server now toRefresh toLive) t').age := by
  have hdue : now.due toLive < UInt64.size :=
    Nat.lt_of_le_of_lt (Nat.min_le_left _ _) (by decide)
  refine ⟨due_iff server, ?_, ⟨fun h => ?_, fun hfits shorter hle => ?_⟩,
    fun t t' => Freshness.age_mono _⟩
  · rw [Freshness.served_until_iff hdue]
    exact Instant.after_eq_due_iff
  · refine Decidable.byContradiction fun hfits => ?_
    obtain ⟨hlonger, hearly⟩ := Span.early_of_not_fits hfits
    have hle : (Instant.after now Span.longest.millis).toNat ≤
        (Instant.after now toLive.millis).toNat := UInt64.le_iff_toNat_le.mp (h _ hlonger)
    rw [Instant.after_longest] at hle
    exact Nat.not_le_of_lt hearly hle
  · rw [UInt64.le_iff_toNat_le]
    calc (Instant.after now shorter.millis).toNat
      _ ≤ now.due shorter := Instant.after_le_due now shorter
      _ ≤ now.due toLive := Instant.due_mono hle
      _ = (Instant.after now toLive.millis).toNat := (Instant.after_eq_due_iff.mpr hfits).symm

/-- Less than a millisecond of freshness, and a life up to the last instant. -/
theorem Metadata.expiries_exact_longest :
    (ofLifetime 7 1000 ⟨0, 1, by decide⟩ .longest).Due 1000 ⟨0, 1, by decide⟩ .longest ∧
      (ofLifetime 7 1000 ⟨0, 1, by decide⟩ (.ofMillis 500)).hardExpiry ≤
        (ofLifetime 7 1000 ⟨0, 1, by decide⟩ .longest).hardExpiry ∧
      (Freshness.ofMetadata (ofLifetime 7 1000 ⟨0, 1, by decide⟩ .longest) 1000).age ≤
        (Freshness.ofMetadata (ofLifetime 7 1000 ⟨0, 1, by decide⟩ .longest) 2000).age := by
  obtain ⟨hdue, -, hlonger, hages⟩ := expiries_exact 7 1000 ⟨0, 1, by decide⟩ .longest
  exact ⟨hdue.mpr (by decide), hlonger.mpr (by decide) _ (by decide), hages 1000 2000 (by decide)⟩

/-- What lives for one millisecond more than the longest span expires as it comes. -/
theorem Metadata.expires_at_once :
    (ofLifetime 7 1000 .zero ⟨18446744073709551, 616000000, by decide⟩).hardExpiry.toNat = 1000 ∧
      Instant.due 1000 ⟨18446744073709551, 616000000, by decide⟩ = UInt64.size - 1 ∧
      (Freshness.ofMetadata
        (ofLifetime 7 1000 .zero ⟨18446744073709551, 616000000, by decide⟩) 1000).mayServe = false ∧
      (Freshness.ofMetadata (ofLifetime 7 1000 .zero (.ofMillis 1)) 1000).mayServe = true := by
  decide

end TierCache
