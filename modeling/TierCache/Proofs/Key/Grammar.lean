import TierCache.Proofs.Key.Tagging
import TierCache.Proofs.Text.Utf8

/-!
# The grammar of size tags

A key is under a size tag exactly if it is written as one: two runs of ASCII digits, each behind its
mark and each the decimal of a number of 32 bits, and behind them no further digit. The digits are
counted in bytes, and a text that is cut behind them is not cut inside a character.
-/
namespace TierCache

namespace Utf8

/-- The two parts of a text that is cut at a byte; nothing if the byte is inside a character. -/
def cut? : List Char → Nat → Option (List Char × List Char)
  | cs, 0 => some ([], cs)
  | [], _ + 1 => none
  | c :: cs, n + 1 =>
    if n + 1 < c.utf8Size then none
    else (cut? cs (n + 1 - c.utf8Size)).map fun (front, back) => (c :: front, back)

@[simp] theorem length_encodeChars_cons (c : Char) (cs : List Char) :
    (encodeChars (c :: cs)).length = c.utf8Size + (encodeChars cs).length := by
  rw [encodeChars, List.flatMap_cons, List.length_append, String.length_utf8EncodeChar, encodeChars]

theorem cut?_cons {c : Char} {cs : List Char} {n : Nat} (h : c.utf8Size ≤ n) :
    cut? (c :: cs) n = (cut? cs (n - c.utf8Size)).map fun (front, back) => (c :: front, back) := by
  have hpos := c.utf8Size_pos
  cases n with
  | zero => omega
  | succ n => rw [cut?, if_neg (by omega)]

/-- A text is cut between its characters at the byte that its first part ends with. -/
theorem cut?_append (front back : List Char) :
    cut? (front ++ back) (encodeChars front).length = some (front, back) := by
  induction front with
  | nil => rw [encodeChars, List.flatMap_nil, List.length_nil, List.nil_append, cut?]
  | cons c front ih =>
    rw [length_encodeChars_cons, List.cons_append, cut?_cons (by omega), Nat.add_sub_cancel_left,
      ih]
    rfl

/-- Only the first byte of a digit is a byte of a digit, and it is the whole digit. -/
theorem utf8EncodeChar_digit (c : Char) : ∃ a bytes, String.utf8EncodeChar c = a :: bytes ∧
    Json.isDigit a = c.isDigit ∧ (c.isDigit = true → bytes = []) := by
  have hdigit : c.isDigit = decide (48 ≤ c.val.toNat ∧ c.val.toNat ≤ 57) := by
    simp [Char.isDigit, UInt32.le_iff_toNat_le]
  have hbyte : ∀ n < 256, Json.isDigit (UInt8.ofNat n) = decide (48 ≤ n ∧ n ≤ 57) := by
    intro n hn
    simp [Json.isDigit, UInt8.le_iff_toNat_le, toNat_ofNat_of_lt hn]
  have hvalid := c.valid
  rw [hdigit, String.utf8EncodeChar]
  simp only [UInt32.isValidChar, Nat.isValidChar] at hvalid
  generalize c.val.toNat = v at hvalid
  -- No longer character begins with a byte below 128.
  have hlonger : 57 < v → ∀ n bytes, 128 ≤ n → n < 256 →
      ∃ a rest, UInt8.ofNat n :: bytes = a :: rest ∧
        Json.isDigit a = decide (48 ≤ v ∧ v ≤ 57) ∧
        (decide (48 ≤ v ∧ v ≤ 57) = true → rest = []) := by
    intro hv n bytes hn hn'
    refine ⟨_, _, rfl, ?_, ?_⟩
    · rw [hbyte n hn', decide_eq_decide]
      omega
    · rw [decide_eq_true_eq]
      omega
  by_cases h₁ : v ≤ 0x7f
  · rw [if_pos h₁]
    exact ⟨_, _, rfl, hbyte v (by omega), fun _ => rfl⟩
  by_cases h₂ : v ≤ 0x7ff
  · rw [if_neg h₁, if_pos h₂]
    exact hlonger (by omega) _ _ (by omega) (by omega)
  by_cases h₃ : v ≤ 0xffff
  · rw [if_neg h₁, if_neg h₂, if_pos h₃]
    exact hlonger (by omega) _ _ (by omega) (by omega)
  · rw [if_neg h₁, if_neg h₂, if_neg h₃]
    exact hlonger (by omega) _ _ (by omega) (by omega)

theorem takeWhile_digits (cs : List Char) :
    (encodeChars cs).takeWhile Json.isDigit = encodeChars (cs.takeWhile Char.isDigit) := by
  induction cs with
  | nil => rfl
  | cons c cs ih =>
    obtain ⟨a, bytes, hbytes, ha, hone⟩ := utf8EncodeChar_digit c
    rw [encodeChars, List.flatMap_cons, ← encodeChars, hbytes]
    cases hc : c.isDigit with
    | false =>
      rw [hc] at ha
      rw [List.takeWhile_cons_of_neg (by simp [hc]), List.cons_append,
        List.takeWhile_cons_of_neg (by simp [ha])]
      rfl
    | true =>
      rw [hc] at ha
      rw [List.takeWhile_cons_of_pos hc, hone hc, List.singleton_append,
        List.takeWhile_cons_of_pos ha, ih]
      simp only [encodeChars, List.flatMap_cons, hbytes, hone hc, List.singleton_append]

end Utf8

namespace Key

/-- The digits are the decimal of the number; zeros in front do not matter. -/
structure Writes (ds : String) (n : UInt32) : Prop where
  nonempty : ds ≠ ""
  digits : ∀ c ∈ ds.toList, c.isDigit = true
  value : Nat.ofDigitChars 10 ds.toList 0 = n.toNat

/-- The number at the head of a text, with its digits counted in bytes and the text cut behind them.
Nothing if that cuts through a character. -/
def takeSizeBytewise (cs : List Char) : Option (Option (UInt32 × List Char)) :=
  let count := ((Utf8.encodeChars cs).takeWhile Json.isDigit).length
  if count = 0 then some none
  else (Utf8.cut? cs count).map fun (ds, rest) =>
    (Decimal.below? UInt32.size ds).map fun n => (UInt32.ofNat n, rest)

theorem takeSizeBytewise_eq (cs : List Char) : takeSizeBytewise cs = some (takeSize cs) := by
  have hcut := Utf8.cut?_append (cs.takeWhile Char.isDigit) (cs.dropWhile Char.isDigit)
  rw [List.takeWhile_append_dropWhile] at hcut
  simp only [takeSizeBytewise, Utf8.takeWhile_digits]
  split
  · rename_i hzero
    rw [hzero] at hcut
    simp only [Utf8.cut?, Option.some.injEq, Prod.mk.injEq] at hcut
    rw [takeSize, ← hcut.1]
    rfl
  · rw [hcut]
    rfl

theorem below?_eq_some_iff {ds : String} {n : UInt32} :
    (Decimal.below? UInt32.size ds.toList).map UInt32.ofNat = some n ↔ Writes ds n := by
  rw [Decimal.below?_eq (by decide), Decimal.digits?, Option.map_eq_some_iff]
  constructor
  · rintro ⟨v, hv, rfl⟩
    obtain ⟨hv, hlt⟩ := Option.filter_eq_some_iff.mp hv
    obtain ⟨hds, hv⟩ := Option.ite_none_right_eq_some.mp hv
    rw [decide_eq_true_eq] at hlt
    refine ⟨?_, List.all_eq_true.mp hds.2, ?_⟩
    · rintro rfl
      exact hds.1 rfl
    · rw [UInt32.toNat_ofNat_of_lt' hlt]
      exact Option.some.inj hv
  · intro h
    have hne : ds.toList ≠ [] := fun hnil => h.nonempty (String.toList_eq_nil_iff.mp hnil)
    refine ⟨n.toNat, Option.filter_eq_some_iff.mpr ⟨?_, ?_⟩, UInt32.ofNat_toNat⟩
    · rw [if_pos ⟨hne, List.all_eq_true.mpr h.digits⟩]
      exact congrArg some h.value
    · exact decide_eq_true n.toNat_lt_size

/-- A number is read as far as there are digits. -/
theorem takeSize_eq_some_iff {cs rest : List Char} {n : UInt32} :
    takeSize cs = some (n, rest) ↔
      ∃ ds, Writes ds n ∧ ¬ DigitFirst rest ∧ cs = ds.toList ++ rest := by
  constructor
  · intro h
    rw [takeSize, Option.map_eq_some_iff] at h
    obtain ⟨v, hv, h⟩ := h
    obtain ⟨rfl, rfl⟩ := Prod.mk.inj h
    refine ⟨String.ofList (cs.takeWhile Char.isDigit), below?_eq_some_iff.mp ?_, ?_, ?_⟩
    · rw [String.toList_ofList, hv]
      rfl
    · rintro ⟨c, r, hdrop, hc⟩
      have hhead := List.head?_dropWhile_not Char.isDigit cs
      simp [hdrop, hc] at hhead
    · rw [String.toList_ofList, List.takeWhile_append_dropWhile]
  · rintro ⟨ds, hds, hrest, rfl⟩
    obtain ⟨v, hv, hn⟩ := Option.map_eq_some_iff.mp (below?_eq_some_iff.mpr hds)
    rw [takeSize, List.takeWhile_append_of_pos hds.digits, List.dropWhile_append_of_pos hds.digits,
      takeWhile_eq_nil hrest, dropWhile_eq_self.mpr hrest, List.append_nil, hv, Option.map_some, hn]

/-- The key with its size in front, as it may be written. -/
def Tagged (key : String) (width height : UInt32) (rest : String) : Prop :=
  ∃ a b, Writes a width ∧ Writes b height ∧ ¬ DigitFirst rest.toList ∧
    key = "#W" ++ a ++ "#H" ++ b ++ rest

/-- The size and the bare key, with the text cut by its bytes as in `takeSizeBytewise`. -/
def splitBytewise (key : String) : Option (Option (UInt32 × UInt32 × String)) :=
  match key.toList with
  | '#' :: 'W' :: r => (takeSizeBytewise r).bind fun
    | some (width, '#' :: 'H' :: r) => (takeSizeBytewise r).map fun size =>
      size.map fun (height, rest) => (width, height, String.ofList rest)
    | _ => some none
  | _ => some none

theorem splitBytewise_eq (key : String) : splitBytewise key = some (split key) := by
  simp only [splitBytewise, split, takeSizeBytewise_eq, Option.bind_some, Option.map_some]
  generalize key.toList = cs
  fun_cases splitChars cs with
  | case1 r width r' h =>
    simp only [h, Option.map_map]
    rfl
  | case2 r h => simp only [Option.map_none]
  | case3 cs h => simp

theorem split_eq_some_iff {key rest : String} {w h : UInt32} :
    split key = some (w, h, rest) ↔ Tagged key w h rest := by
  constructor
  · intro hs
    obtain ⟨⟨w', h', cs⟩, hchars, heq⟩ := Option.map_eq_some_iff.mp hs
    obtain ⟨rfl, rfl, rfl⟩ := heq
    obtain ⟨r, r', hkey, hr, hr'⟩ := splitChars_eq_some_iff.mp hchars
    obtain ⟨a, ha, -, rfl⟩ := takeSize_eq_some_iff.mp hr
    obtain ⟨b, hb, hrest, rfl⟩ := takeSize_eq_some_iff.mp hr'
    refine ⟨a, b, ha, hb, by rwa [String.toList_ofList], ?_⟩
    rw [← String.toList_inj, hkey]
    simp
  · rintro ⟨a, b, ha, hb, hrest, rfl⟩
    refine Option.map_eq_some_iff.mpr ⟨(w, h, rest.toList), ?_, by simp⟩
    refine splitChars_eq_some_iff.mpr ⟨a.toList ++ '#' :: 'H' :: (b.toList ++ rest.toList),
      b.toList ++ rest.toList, by simp, ?_, ?_⟩
    · exact takeSize_eq_some_iff.mpr ⟨a, ha, by simp, rfl⟩
    · exact takeSize_eq_some_iff.mpr ⟨b, hb, hrest, rfl⟩

/-- The keys of the grammar are taken apart as it says and normalized to what is behind their tag.
All others are not taken apart and stay as they are. No key is cut inside a character. -/
theorem split_grammar (key : String) :
    (∀ w h rest, split key = some (w, h, rest) ↔ Tagged key w h rest) ∧
    (∀ w h rest, Tagged key w h rest → normalize key = rest) ∧
    ((∀ w h rest, ¬ Tagged key w h rest) → split key = none ∧ normalize key = key) ∧
    splitBytewise key = some (split key) := by
  refine ⟨fun w h rest => split_eq_some_iff, fun w h rest ht => ?_, fun hnone => ?_,
    splitBytewise_eq key⟩
  · rw [normalize, split_eq_some_iff.mpr ht]
  · have hsplit : split key = none := by
      refine Option.eq_none_iff_forall_ne_some.mpr fun parts hs => ?_
      obtain ⟨w, h, rest⟩ := parts
      exact hnone w h rest (split_eq_some_iff.mp hs)
    exact ⟨hsplit, by rw [normalize, hsplit]⟩

/-- Zeros in front, a character of two bytes right behind the height, and digits of another
script. -/
theorem split_grammar_scripts :
    split "#W007#H0\u00e91" = some (7, 0, "\u00e91") ∧
      normalize "#W007#H0\u00e91" = "\u00e91" ∧
      splitBytewise "#W007#H0\u00e91" = some (some (7, 0, "\u00e91")) ∧
      normalize "#W\u0663#H4x" = "#W\u0663#H4x" := by
  obtain ⟨reads, normal, -, bytes⟩ := split_grammar "#W007#H0\u00e91"
  obtain ⟨reads', -, stays, -⟩ := split_grammar "#W\u0663#H4x"
  have htagged : Tagged "#W007#H0\u00e91" 7 0 "\u00e91" :=
    ⟨"007", "0", ⟨by decide, List.all_eq_true.mp (by decide), by decide⟩,
      ⟨by decide, List.all_eq_true.mp (by decide), by decide⟩, by simp, by decide⟩
  have hplain : split "#W\u0663#H4x" = none := by decide +kernel
  have hsplit := (reads _ _ _).mpr htagged
  refine ⟨hsplit, normal _ _ _ htagged, hsplit ▸ bytes, (stays fun w h rest ht => ?_).2⟩
  rw [(reads' w h rest).mpr ht] at hplain
  cases hplain

end Key

end TierCache
