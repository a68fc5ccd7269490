import TierCache.Text.Utf8

/-!
# Reading what was written

The bytes of a text are cut into its characters again, whatever follows them; and bytes that are cut
into characters are the bytes of those characters.
-/
namespace TierCache.Utf8

/-- The second and later bytes of a character hold six bits each. -/
def tail (n : Nat) : UInt8 := UInt8.ofNat (n % 64 + 0x80)

@[simp] theorem toNat_tail (n : Nat) : (tail n).toNat = n % 64 + 0x80 := by
  rw [tail, UInt8.toNat_ofNat', Nat.mod_eq_of_lt (by omega)]

@[simp] theorem tailBits_tail (n : Nat) : tailBits (tail n) = n % 64 := by
  rw [tailBits, toNat_tail]
  omega

@[simp] theorem isTail_tail (n : Nat) : isTail (tail n) = true := by
  simp only [isTail, UInt8.le_iff_toNat_le, toNat_tail, UInt8.reduceToNat, Bool.and_eq_true,
    decide_eq_true_eq]
  omega

theorem isSecond_tail {lead : UInt8} {n : Nat} (h₀ : lead = 0xE0 → 32 ≤ n % 64)
    (h₁ : lead = 0xED → n % 64 < 32) (h₂ : lead = 0xF0 → 16 ≤ n % 64)
    (h₃ : lead = 0xF4 → n % 64 < 16) : isSecond lead (tail n) = true := by
  simp only [isSecond, isTail_tail, UInt8.le_iff_toNat_le, toNat_tail, UInt8.reduceToNat]
  split
  · have := h₀ ‹_›
    simp only [Bool.and_eq_true, decide_eq_true_eq]
    omega
  · split
    · have := h₁ ‹_›
      simp only [Bool.and_eq_true, decide_eq_true_eq]
      omega
    · split
      · have := h₂ ‹_›
        simp only [Bool.and_eq_true, decide_eq_true_eq]
        omega
      · split
        · have := h₃ ‹_›
          simp only [Bool.and_eq_true, decide_eq_true_eq]
          omega
        · rfl

theorem next_one {a : UInt8} (h : a.toNat < 0x80) (r : List UInt8) :
    next a r = .char (Char.ofNat a.toNat) := by
  simp only [next, UInt8.lt_iff_toNat_lt, UInt8.reduceToNat]
  rw [if_pos h]

theorem next_two {a : UInt8} (h : 0xC2 ≤ a.toNat) (h' : a.toNat < 0xE0) (n : Nat)
    (r : List UInt8) :
    next a (tail n :: r) = .char (Char.ofNat (a.toNat % 32 * 64 + n % 64)) := by
  simp only [next, UInt8.lt_iff_toNat_lt, UInt8.reduceToNat]
  rw [if_neg (by omega), if_neg (by omega), if_pos h', if_pos (isTail_tail n), tailBits_tail]

theorem next_three {a : UInt8} (h : 0xE0 ≤ a.toNat) (h' : a.toNat < 0xF0) {m : Nat}
    (hm : isSecond a (tail m) = true) (n : Nat) (r : List UInt8) :
    next a (tail m :: tail n :: r) =
      .char (Char.ofNat (a.toNat % 16 * 4096 + m % 64 * 64 + n % 64)) := by
  simp only [next, UInt8.lt_iff_toNat_lt, UInt8.reduceToNat]
  rw [if_neg (by omega), if_neg (by omega), if_neg (by omega), if_pos h']
  simp only [hm, isTail_tail, tailBits_tail, Bool.not_true, Bool.false_eq_true, if_false]

theorem next_four {a : UInt8} (h : 0xF0 ≤ a.toNat) (h' : a.toNat < 0xF5) {l : Nat}
    (hl : isSecond a (tail l) = true) (m n : Nat) (r : List UInt8) :
    next a (tail l :: tail m :: tail n :: r) =
      .char (Char.ofNat (a.toNat % 8 * 262144 + l % 64 * 4096 + m % 64 * 64 + n % 64)) := by
  simp only [next, UInt8.lt_iff_toNat_lt, UInt8.reduceToNat]
  rw [if_neg (by omega), if_neg (by omega), if_neg (by omega), if_neg (by omega), if_pos h']
  simp only [hl, isTail_tail, tailBits_tail, Bool.not_true, Bool.false_eq_true, if_false]

theorem toNat_ofNat_of_lt {n : Nat} (h : n < 256) : (UInt8.ofNat n).toNat = n := by
  rw [UInt8.toNat_ofNat', Nat.mod_eq_of_lt h]

theorem ofNat_eq_iff {n : Nat} (h : n < 256) (a : UInt8) : UInt8.ofNat n = a ↔ n = a.toNat := by
  rw [← UInt8.toNat_inj, toNat_ofNat_of_lt h]

/-- The first bytes are cut off as the character that they are the bytes of. -/
theorem next_utf8EncodeChar {c : Char} {a : UInt8} {bytes : List UInt8}
    (h : String.utf8EncodeChar c = a :: bytes) (r : List UInt8) :
    next a (bytes ++ r) = .char c := by
  have hvalid := c.valid
  have hc : Char.ofNat c.val.toNat = c := Char.ofNat_toNat c
  simp only [UInt32.isValidChar, Nat.isValidChar] at hvalid
  simp only [String.utf8EncodeChar] at h
  generalize c.val.toNat = v at h hvalid hc
  rw [← hc]
  by_cases h₁ : v ≤ 0x7f
  · rw [if_pos h₁, List.cons.injEq] at h
    have ha : a.toNat = v := h.1 ▸ toNat_ofNat_of_lt (by omega)
    rw [← ha, next_one (by omega)]
  by_cases h₂ : v ≤ 0x7ff
  · rw [if_neg h₁, if_pos h₂, List.cons.injEq] at h
    have ha : a.toNat = v / 64 % 0x20 + 0xc0 := h.1 ▸ toNat_ofNat_of_lt (by omega)
    rw [← h.2]
    refine (next_two (by omega) (by omega) v r).trans ?_
    congr 2
    omega
  by_cases h₃ : v ≤ 0xffff
  · rw [if_neg h₁, if_neg h₂, if_pos h₃, List.cons.injEq] at h
    have ha : a.toNat = v / 4096 % 0x10 + 0xe0 := h.1 ▸ toNat_ofNat_of_lt (by omega)
    have hs : isSecond a (tail (v / 64)) = true := by
      rw [← h.1]
      refine isSecond_tail ?_ ?_ ?_ ?_ <;> rw [ofNat_eq_iff (by omega)] <;>
        simp only [UInt8.reduceToNat] <;> omega
    rw [← h.2]
    refine (next_three (by omega) (by omega) hs v r).trans ?_
    congr 2
    omega
  · rw [if_neg h₁, if_neg h₂, if_neg h₃, List.cons.injEq] at h
    have ha : a.toNat = v / 262144 % 0x08 + 0xf0 := h.1 ▸ toNat_ofNat_of_lt (by omega)
    have hs : isSecond a (tail (v / 4096)) = true := by
      rw [← h.1]
      refine isSecond_tail ?_ ?_ ?_ ?_ <;> rw [ofNat_eq_iff (by omega)] <;>
        simp only [UInt8.reduceToNat] <;> omega
    rw [← h.2]
    refine (next_four (by omega) (by omega) hs (v / 64) v r).trans ?_
    congr 2
    omega

theorem segmentsAfter_append (skipped bytes : List UInt8) :
    segmentsAfter skipped.length (skipped ++ bytes) = segmentsAfter 0 bytes := by
  induction skipped with
  | nil => rfl
  | cons b skipped ih => rw [List.length_cons, List.cons_append, segmentsAfter, ih]

theorem segments_utf8EncodeChar (c : Char) (r : List UInt8) :
    segments (String.utf8EncodeChar c ++ r) = .char c :: segments r := by
  have hlen := String.length_utf8EncodeChar c
  cases h : String.utf8EncodeChar c with
  | nil => exact absurd h String.utf8EncodeChar_ne_nil
  | cons a bytes =>
    rw [h, List.length_cons] at hlen
    have hskip : (Segment.char c).length - 1 = bytes.length := by
      rw [Segment.length]
      omega
    rw [List.cons_append, segments, segmentsAfter, next_utf8EncodeChar h, hskip,
      segmentsAfter_append, segments]

theorem segments_encodeChars (cs : List Char) :
    segments (encodeChars cs) = cs.map Segment.char := by
  induction cs with
  | nil => rfl
  | cons c cs ih =>
    rw [encodeChars, List.flatMap_cons, segments_utf8EncodeChar, ← encodeChars, ih, List.map_cons]

theorem collect_chars (index : Nat) (cs : List Char) :
    collect index (cs.map Segment.char) = .ok cs := by
  induction cs generalizing index with
  | nil => rfl
  | cons c cs ih =>
    rw [List.map_cons, collect, ih]
    rfl

/-- What was written is read. -/
theorem decode_encodeChars (cs : List Char) : decode (encodeChars cs) = .ok (String.ofList cs) := by
  rw [decode, segments_encodeChars, collect_chars]
  rfl

@[simp] theorem encodeChars_append (cs ds : List Char) :
    encodeChars (cs ++ ds) = encodeChars cs ++ encodeChars ds := List.flatMap_append

theorem isTail_iff {b : UInt8} : isTail b = true ↔ 0x80 ≤ b.toNat ∧ b.toNat < 0xC0 := by
  simp only [isTail, UInt8.le_iff_toNat_le, UInt8.reduceToNat, Bool.and_eq_true, decide_eq_true_eq]
  omega

/-- The bounds on a second byte, with the lead given as a number. -/
theorem isSecond_iff {lead second : UInt8} : isSecond lead second = true ↔
    0x80 ≤ second.toNat ∧ second.toNat < 0xC0 ∧ (lead.toNat = 0xE0 → 0xA0 ≤ second.toNat) ∧
      (lead.toNat = 0xED → second.toNat < 0xA0) ∧ (lead.toNat = 0xF0 → 0x90 ≤ second.toNat) ∧
      (lead.toNat = 0xF4 → second.toNat < 0x90) := by
  unfold isSecond
  simp only [← UInt8.toNat_inj (a := lead), UInt8.reduceToNat]
  repeat' split
  all_goals
    simp only [isTail_iff, UInt8.le_iff_toNat_le, UInt8.reduceToNat, Bool.and_eq_true,
      decide_eq_true_eq]
    omega

theorem toNat_val_ofNat {n : Nat} (h : n.isValidChar) : (Char.ofNat n).val.toNat = n := by
  rw [Char.ofNat, dif_pos h]
  rfl

theorem utf8EncodeChar_one {a : UInt8} (h : a.toNat < 0x80) :
    String.utf8EncodeChar (Char.ofNat a.toNat) = [a] := by
  rw [String.utf8EncodeChar, toNat_val_ofNat (.inl (by omega))]
  rw [if_pos (by omega), UInt8.ofNat_toNat]

theorem utf8EncodeChar_two {a b : UInt8} (ha : 0xC2 ≤ a.toNat) (ha' : a.toNat < 0xE0)
    (hb : isTail b = true) :
    String.utf8EncodeChar (Char.ofNat (a.toNat % 32 * 64 + tailBits b)) = [a, b] := by
  rw [isTail_iff] at hb
  rw [tailBits, String.utf8EncodeChar, toNat_val_ofNat (.inl (by omega))]
  rw [if_neg (by omega), if_pos (by omega)]
  simp only [List.cons.injEq, and_true]
  rw [ofNat_eq_iff (by omega), ofNat_eq_iff (by omega)]
  omega

theorem utf8EncodeChar_three {a b c : UInt8} (ha : 0xE0 ≤ a.toNat) (ha' : a.toNat < 0xF0)
    (hb : isSecond a b = true) (hc : isTail c = true) :
    String.utf8EncodeChar (Char.ofNat (a.toNat % 16 * 4096 + tailBits b * 64 + tailBits c)) =
      [a, b, c] := by
  rw [isSecond_iff] at hb
  rw [isTail_iff] at hc
  have hv : (a.toNat % 16 * 4096 + b.toNat % 64 * 64 + c.toNat % 64).isValidChar := by
    rw [Nat.isValidChar]
    omega
  rw [tailBits, tailBits, String.utf8EncodeChar, toNat_val_ofNat hv]
  rw [if_neg (by omega), if_neg (by omega), if_pos (by omega)]
  simp only [List.cons.injEq, and_true]
  rw [ofNat_eq_iff (by omega), ofNat_eq_iff (by omega), ofNat_eq_iff (by omega)]
  omega

theorem utf8EncodeChar_four {a b c d : UInt8} (ha : 0xF0 ≤ a.toNat) (ha' : a.toNat < 0xF5)
    (hb : isSecond a b = true) (hc : isTail c = true) (hd : isTail d = true) :
    String.utf8EncodeChar (Char.ofNat (a.toNat % 8 * 262144 + tailBits b * 4096 +
      tailBits c * 64 + tailBits d)) = [a, b, c, d] := by
  rw [isSecond_iff] at hb
  rw [isTail_iff] at hc hd
  have hv : (a.toNat % 8 * 262144 + b.toNat % 64 * 4096 + c.toNat % 64 * 64 +
      d.toNat % 64).isValidChar := by
    rw [Nat.isValidChar]
    omega
  rw [tailBits, tailBits, tailBits, String.utf8EncodeChar, toNat_val_ofNat hv]
  rw [if_neg (by omega), if_neg (by omega), if_neg (by omega)]
  simp only [List.cons.injEq, and_true]
  rw [ofNat_eq_iff (by omega), ofNat_eq_iff (by omega), ofNat_eq_iff (by omega),
    ofNat_eq_iff (by omega)]
  omega

/-- A character is cut off only where its own bytes stand. -/
theorem utf8EncodeChar_of_next {a : UInt8} {r : List UInt8} {c : Char} (h : next a r = .char c) :
    ∃ t rest, r = t ++ rest ∧ String.utf8EncodeChar c = a :: t := by
  unfold next at h
  simp only [UInt8.lt_iff_toNat_lt, UInt8.reduceToNat] at h
  split at h
  · cases h
    exact ⟨[], r, rfl, utf8EncodeChar_one ‹_›⟩
  split at h
  · cases h
  split at h
  · split at h
    · cases h
    · rename_i b rest
      split at h
      · rename_i hb
        cases h
        exact ⟨[b], rest, rfl, utf8EncodeChar_two (by omega) ‹_› hb⟩
      · cases h
  split at h
  · split at h
    · cases h
    · split at h <;> cases h
    · rename_i b c rest
      split at h
      · cases h
      · split at h
        · cases h
        · cases h
          exact ⟨[b, c], rest, rfl, utf8EncodeChar_three (by omega) ‹_› (by simp_all) (by simp_all)⟩
  split at h
  · split at h
    · cases h
    · split at h <;> cases h
    · split at h
      · cases h
      · split at h <;> cases h
    · rename_i b c d rest
      split at h
      · cases h
      · split at h
        · cases h
        · split at h
          · cases h
          · cases h
            exact ⟨[b, c, d], rest, rfl, utf8EncodeChar_four (by omega) ‹_› (by simp_all)
              (by simp_all) (by simp_all)⟩
  · cases h

theorem collect_ok {index : Nat} {segs : List Segment} {cs : List Char}
    (h : collect index segs = .ok cs) : segs = cs.map Segment.char := by
  induction segs generalizing index cs with
  | nil =>
    cases h
    rfl
  | cons seg segs ih =>
    cases seg with
    | char c =>
      rw [collect] at h
      cases hr : collect (index + c.utf8Size) segs with
      | error defect =>
        rw [hr] at h
        cases h
      | ok r =>
        rw [hr] at h
        cases h
        rw [List.map_cons, ih hr]
    | broken n => cases h
    | cut => cases h

theorem eq_encodeChars {bytes : List UInt8} {cs : List Char}
    (h : segments bytes = cs.map Segment.char) : bytes = encodeChars cs := by
  induction cs generalizing bytes with
  | nil =>
    cases bytes with
    | nil => rfl
    | cons a r => cases h
  | cons c cs ih =>
    cases bytes with
    | nil => cases h
    | cons a r =>
      rw [segments, segmentsAfter, List.map_cons, List.cons.injEq] at h
      obtain ⟨hc, hr⟩ := h
      obtain ⟨t, rest, rfl, hbytes⟩ := utf8EncodeChar_of_next hc
      have hlen := String.length_utf8EncodeChar c
      rw [hbytes, List.length_cons] at hlen
      rw [hc, Segment.length, show c.utf8Size - 1 = t.length by omega, segmentsAfter_append] at hr
      rw [encodeChars, List.flatMap_cons, hbytes, ← encodeChars, ← ih hr, List.cons_append]

/-- What is read was written. -/
theorem decode_eq_ok_iff {bytes : List UInt8} {s : String} :
    decode bytes = .ok s ↔ bytes = encode s := by
  constructor
  · intro h
    rw [decode] at h
    cases hc : collect 0 (segments bytes) with
    | error defect =>
      rw [hc] at h
      cases h
    | ok cs =>
      rw [hc] at h
      cases h
      rw [encode, String.toList_ofList]
      exact eq_encodeChars (collect_ok hc)
  · rintro rfl
    rw [encode, decode_encodeChars, String.ofList_toList]

@[simp] theorem decodeLossy_encode (s : String) : decodeLossy (encode s) = s := by
  rw [decodeLossy, encode, segments_encodeChars, List.map_map]
  simp [Function.comp_def, Segment.shown]

/-- A text without a replacement character comes from its own bytes alone. -/
theorem eq_encode_of_decodeLossy {bytes : List UInt8} {s : String} (h : decodeLossy bytes = s)
    (hs : '\uFFFD' ∉ s.toList) : bytes = encode s := by
  rw [decodeLossy] at h
  subst h
  rw [String.toList_ofList] at hs
  rw [encode, String.toList_ofList]
  refine eq_encodeChars ?_
  rw [List.map_map, List.map_congr_left (g := id), List.map_id]
  intro seg hseg
  cases seg with
  | char c => rfl
  | _ => exact absurd (List.mem_map.mpr ⟨_, hseg, rfl⟩) hs

end TierCache.Utf8
