import TierCache.Json.Basic
import TierCache.Json.Token
import TierCache.Proofs.Text.Utf8

/-!
# Quoted texts are read back

What a character is written as between quotes is read as a few pieces whose bytes are those of the
character.
-/
namespace TierCache.Json

open Utf8

/-- The pieces read from `written` stand for `bytes`, whatever follows. -/
def Reads (written : List UInt8) (pieces : List Piece) (bytes : List UInt8) : Prop :=
  (∀ r, scanString (written ++ r) = (scanString r).map fun q => (pieces ++ q.1, q.2)) ∧
    ∀ ps, bytesOf (pieces ++ ps) = (bytesOf ps).map (bytes ++ ·)

namespace Reads

variable {written written' : List UInt8} {pieces pieces' : List Piece} {bytes bytes' : List UInt8}

theorem nil : Reads [] [] [] := by
  refine ⟨fun r => ?_, fun ps => ?_⟩
  · cases h : scanString r <;> simp [h]
  · cases h : bytesOf ps <;> simp [h]

theorem append (h : Reads written pieces bytes) (h' : Reads written' pieces' bytes') :
    Reads (written ++ written') (pieces ++ pieces') (bytes ++ bytes') := by
  refine ⟨fun r => ?_, fun ps => ?_⟩
  · rw [List.append_assoc, h.1, h'.1]
    cases scanString r <;> simp
  · rw [List.append_assoc, h.2, h'.2]
    cases bytesOf ps <;> simp

/-- A byte that needs no escape. -/
theorem plain {b : UInt8} (hq : b ≠ 0x22) (hs : b ≠ 0x5C) (hb : ¬ b < 0x20) :
    Reads [b] [.byte b] [b] := by
  refine ⟨fun r => ?_, fun ps => rfl⟩
  rw [List.cons_append, List.nil_append, scanString.eq_def]
  simp only [if_neg hq, if_neg hs, if_neg hb]
  rfl

theorem plains {bs : List UInt8} (h : ∀ b ∈ bs, b ≠ 0x22 ∧ b ≠ 0x5C ∧ ¬ b < 0x20) :
    Reads bs (bs.map .byte) bs := by
  induction bs with
  | nil => exact nil
  | cons b bs ih =>
    obtain ⟨hq, hs, hb⟩ := h b List.mem_cons_self
    exact (plain hq hs hb).append (ih fun b' hb' => h b' (List.mem_cons_of_mem b hb'))

/-- A byte with a short escape. -/
theorem short {e b : UInt8} (he : e ≠ 0x75) (h : shortEscape? e = some b) :
    Reads [0x5C, e] [.byte b] [b] := by
  refine ⟨fun r => ?_, fun ps => rfl⟩
  simp only [List.cons_append, List.nil_append]
  rw [scanString.eq_def]
  simp only [if_neg (show (0x5C : UInt8) ≠ 0x22 by decide), if_true, if_neg he, h]
  rfl

theorem bytesOf_unit {n : Nat} (h : n < 0xD800) (ps : List Piece) :
    bytesOf (.unit n :: ps) =
      (bytesOf ps).map (String.utf8EncodeChar (Char.ofNat n) ++ ·) := by
  have hh : isHighSurrogate n = false := by
    simp only [isHighSurrogate, Bool.and_eq_false_iff, decide_eq_false_iff_not]
    omega
  have hl : isLowSurrogate n = false := by
    simp only [isLowSurrogate, Bool.and_eq_false_iff, decide_eq_false_iff_not]
    omega
  cases ps with
  | nil => simp only [bytesOf, hh, hl, Bool.or_self, Bool.false_eq_true, if_false]
  | cons p ps => cases p <;> simp only [bytesOf, hh, hl, Bool.or_self, Bool.false_eq_true, if_false]

/-- A character by its number. -/
theorem numbered {x y z w : UInt8} {n : Nat} (h : unit? x y z w = some n) (hn : n < 0xD800) :
    Reads [0x5C, 0x75, x, y, z, w] [.unit n] (String.utf8EncodeChar (Char.ofNat n)) := by
  refine ⟨fun r => ?_, fun ps => bytesOf_unit hn ps⟩
  simp only [List.cons_append, List.nil_append]
  rw [scanString.eq_def]
  simp only [if_neg (show (0x5C : UInt8) ≠ 0x22 by decide), if_true, h]
  rfl

end Reads

theorem encodeChars_singleton (c : Char) : encodeChars [c] = String.utf8EncodeChar c := by
  rw [encodeChars, List.flatMap_singleton]

theorem encodeChars_control {n : Nat} (h : n < 0x20) : ∃ z w,
    encodeChars (['\\', 'u', '0', '0'] ++ Hex.ofByte (UInt8.ofNat n)) =
      [0x5C, 0x75, 0x30, 0x30, z, w] ∧ unit? 0x30 0x30 z w = some n := by
  have all : ∀ n : Fin 0x20,
      encodeChars (['\\', 'u', '0', '0'] ++ Hex.ofByte (UInt8.ofNat n)) =
        [0x5C, 0x75, 0x30, 0x30, (encodeChars (Hex.ofByte (UInt8.ofNat n))).headD 0,
          (encodeChars (Hex.ofByte (UInt8.ofNat n))).getLastD 0] ∧
      unit? 0x30 0x30 ((encodeChars (Hex.ofByte (UInt8.ofNat n))).headD 0)
        ((encodeChars (Hex.ofByte (UInt8.ofNat n))).getLastD 0) = some n.val := by decide
  exact ⟨_, _, all ⟨n, h⟩⟩

/-- The bytes of a character that is not escaped. -/
theorem plain_utf8EncodeChar {c : Char} (hq : c ≠ '"') (hs : c ≠ '\\') (hc : ¬ c.toNat < 0x20) :
    ∀ b ∈ String.utf8EncodeChar c, b ≠ 0x22 ∧ b ≠ 0x5C ∧ ¬ b < 0x20 := by
  have plain : ∀ n, 0x20 ≤ n → n < 256 → n ≠ 0x22 → n ≠ 0x5C →
      UInt8.ofNat n ≠ 0x22 ∧ UInt8.ofNat n ≠ 0x5C ∧ ¬ UInt8.ofNat n < 0x20 := by
    intro n hn hlt hq hs
    rw [ne_eq, ofNat_eq_iff hlt, ne_eq, ofNat_eq_iff hlt, UInt8.lt_iff_toNat_lt,
      toNat_ofNat_of_lt hlt]
    simp only [UInt8.reduceToNat]
    omega
  have hq' : c.val.toNat ≠ 0x22 := fun h => hq (Char.ext (UInt32.toNat_inj.mp h))
  have hs' : c.val.toNat ≠ 0x5C := fun h => hs (Char.ext (UInt32.toNat_inj.mp h))
  rw [Char.toNat] at hc
  intro b hb
  simp only [String.utf8EncodeChar] at hb
  generalize c.val.toNat = v at hb hq' hs' hc
  by_cases h₁ : v ≤ 0x7f
  · rw [if_pos h₁, List.mem_singleton] at hb
    exact hb ▸ plain v (by omega) (by omega) hq' hs'
  by_cases h₂ : v ≤ 0x7ff
  · simp only [if_neg h₁, if_pos h₂, List.mem_cons, List.not_mem_nil, or_false] at hb
    rcases hb with rfl | rfl <;> exact plain _ (by omega) (by omega) (by omega) (by omega)
  by_cases h₃ : v ≤ 0xffff
  · simp only [if_neg h₁, if_neg h₂, if_pos h₃, List.mem_cons, List.not_mem_nil, or_false] at hb
    rcases hb with rfl | rfl | rfl <;> exact plain _ (by omega) (by omega) (by omega) (by omega)
  · simp only [if_neg h₁, if_neg h₂, if_neg h₃, List.mem_cons, List.not_mem_nil, or_false] at hb
    rcases hb with rfl | rfl | rfl | rfl <;>
      exact plain _ (by omega) (by omega) (by omega) (by omega)

theorem reads_escape (c : Char) :
    ∃ ps, Reads (encodeChars (escape c)) ps (String.utf8EncodeChar c) := by
  rw [escape]
  split
  · rename_i h
    subst h
    exact ⟨_, .short (e := 0x22) (by decide) rfl⟩
  split
  · rename_i h
    subst h
    exact ⟨_, .short (e := 0x5C) (by decide) rfl⟩
  split
  · rename_i h
    subst h
    exact ⟨_, .short (e := 0x62) (by decide) rfl⟩
  split
  · rename_i h
    subst h
    exact ⟨_, .short (e := 0x74) (by decide) rfl⟩
  split
  · rename_i h
    subst h
    exact ⟨_, .short (e := 0x6E) (by decide) rfl⟩
  split
  · rename_i h
    subst h
    exact ⟨_, .short (e := 0x66) (by decide) rfl⟩
  split
  · rename_i h
    subst h
    exact ⟨_, .short (e := 0x72) (by decide) rfl⟩
  split
  · rename_i h
    obtain ⟨z, w, hw, hu⟩ := encodeChars_control h
    have hr := Reads.numbered hu (by omega)
    rw [Char.ofNat_toNat] at hr
    exact ⟨_, hw ▸ hr⟩
  · rename_i hq hs _ _ _ _ _ hc
    rw [encodeChars_singleton]
    exact ⟨_, .plains (plain_utf8EncodeChar hq hs hc)⟩

theorem reads_escapes (cs : List Char) :
    ∃ ps, Reads (encodeChars (cs.flatMap escape)) ps (encodeChars cs) := by
  induction cs with
  | nil => exact ⟨_, .nil⟩
  | cons c cs ih =>
    obtain ⟨ps, hps⟩ := reads_escape c
    obtain ⟨qs, hqs⟩ := ih
    rw [List.flatMap_cons, encodeChars_append]
    exact ⟨_, hps.append hqs⟩

/-- A quoted text is read up to its closing quote. -/
theorem scanString_quote (s : String) (r : List UInt8) : ∃ ps,
    scanString (encodeChars (s.toList.flatMap escape ++ ['"']) ++ r) = some (ps, r) ∧
      textOf ps = some s := by
  obtain ⟨ps, hscan, hbytes⟩ := reads_escapes s.toList
  have hp := hbytes []
  rw [List.append_nil, bytesOf, Option.map_some, List.append_nil] at hp
  refine ⟨ps, ?_, ?_⟩
  · rw [encodeChars_append, List.append_assoc, hscan]
    have hclose : scanString (encodeChars ['"'] ++ r) = some ([], r) := by
      show scanString (0x22 :: r) = _
      rw [scanString.eq_def]
      rfl
    rw [hclose, Option.map_some, List.append_nil]
  · rw [textOf, hp, Option.map_some, decode_encodeChars]
    simp only [String.ofList_toList]

end TierCache.Json
