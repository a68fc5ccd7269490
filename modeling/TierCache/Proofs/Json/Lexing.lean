import TierCache.Proofs.Json.Quoting

/-!
# The tokens of a written document

A document as `compact` writes it is cut into the tokens of its parts, in order. Only a number
could run on into what follows it, and nothing that follows one in a document goes on with it.
-/
namespace TierCache.Json

open Utf8

mutual

def tokens : Json → List Token
  | .number n => [.number (some n)]
  | .truth b => [.truth b]
  | .text s => [.text (some s)]
  | .list [] => [.openList, .closeList]
  | .list (j :: items) => .openList :: tokens j ++ itemTokens items ++ [.closeList]
  | .record [] => [.openRecord, .closeRecord]
  | .record ((k, j) :: fields) =>
    .openRecord :: .text (some k) :: .colon :: tokens j ++ fieldTokens fields ++ [.closeRecord]

def itemTokens : List Json → List Token
  | [] => []
  | j :: items => .comma :: tokens j ++ itemTokens items

def fieldTokens : List (String × Json) → List Token
  | [] => []
  | (k, j) :: fields => .comma :: .text (some k) :: .colon :: tokens j ++ fieldTokens fields

end

mutual

/-- No number has more than twenty digits. -/
def Narrow : Json → Prop
  | .number n => n < Nat.pow 10 20
  | .truth _ | .text _ => True
  | .list items => NarrowItems items
  | .record fields => NarrowFields fields

def NarrowItems : List Json → Prop
  | [] => True
  | j :: items => Narrow j ∧ NarrowItems items

def NarrowFields : List (String × Json) → Prop
  | [] => True
  | (_, j) :: fields => Narrow j ∧ NarrowFields fields

end

/-- A number that stands before these bytes ends there. -/
def Stops : List UInt8 → Prop
  | [] => True
  | b :: _ => isDigit b = false ∧ b ≠ 0x2E ∧ b ≠ 0x65 ∧ b ≠ 0x45

theorem scanDigits_append {ds r : List UInt8} (hne : ds ≠ []) (hd : ∀ b ∈ ds, isDigit b = true)
    (hr : Stops r) : scanDigits (ds ++ r) = some (ds, r) := by
  have hr' : r.takeWhile isDigit = [] ∧ r.dropWhile isDigit = r := by
    cases r with
    | nil => exact ⟨rfl, rfl⟩
    | cons b r => simp only [List.takeWhile_cons, List.dropWhile_cons, hr.1, Bool.false_eq_true,
        if_false, and_self]
  rw [scanDigits, List.takeWhile_append_of_pos hd, List.dropWhile_append_of_pos hd, hr'.1, hr'.2,
    List.append_nil]
  cases ds with
  | nil => exact absurd rfl hne
  | cons b ds => rfl

theorem skipFraction_of_stops {r : List UInt8} (h : Stops r) :
    skipFraction r = some (false, r) := by
  unfold skipFraction
  split
  · exact absurd rfl h.2.1
  · rfl

theorem skipExponent_of_stops {r : List UInt8} (h : Stops r) :
    skipExponent r = some (false, r) := by
  unfold skipExponent
  split
  · rename_i b r
    rw [if_neg (by simpa using h.2.2)]
  · rfl

def digitBytes (n : Nat) : List UInt8 := (digits n).map fun c => UInt8.ofNat c.toNat

theorem isDigit_of_mem_digits {n : Nat} {c : Char} (h : c ∈ digits n) :
    48 ≤ c.toNat ∧ c.toNat ≤ 57 := by
  have hd := Nat.isDigit_of_mem_toDigits (by decide) (by decide) h
  simp only [Char.isDigit, Bool.and_eq_true, decide_eq_true_eq, UInt32.le_iff_toNat_le] at hd
  exact hd

theorem encodeChars_digits (n : Nat) : encodeChars (digits n) = digitBytes n := by
  have all : ∀ cs : List Char, (∀ c ∈ cs, c.toNat ≤ 57) →
      encodeChars cs = cs.map fun c => UInt8.ofNat c.toNat := by
    intro cs
    induction cs with
    | nil => exact fun _ => rfl
    | cons c cs ih =>
      intro h
      have hc : c.val.toNat ≤ 0x7f := Nat.le_trans (h c List.mem_cons_self) (by decide)
      rw [encodeChars, List.flatMap_cons, ← encodeChars, ih fun d hd =>
        h d (List.mem_cons_of_mem c hd), String.utf8EncodeChar, if_pos hc]
      rfl
  exact all _ fun c hc => (isDigit_of_mem_digits hc).2

theorem isDigit_digitBytes {n : Nat} {b : UInt8} (h : b ∈ digitBytes n) : isDigit b = true := by
  obtain ⟨c, hc, rfl⟩ := List.mem_map.mp h
  have := isDigit_of_mem_digits hc
  simp only [isDigit, UInt8.le_iff_toNat_le, UInt8.reduceToNat,
    toNat_ofNat_of_lt (show c.toNat < 256 by omega), Bool.and_eq_true, decide_eq_true_eq]
  exact this

theorem digitsValue_digitBytes (n : Nat) : digitsValue (digitBytes n) = n := by
  have all : ∀ (cs : List Char) (m : Nat), (∀ c ∈ cs, c.toNat < 256) →
      (cs.map fun c => UInt8.ofNat c.toNat).foldl (fun n d => 10 * n + (d.toNat - 0x30)) m =
        Nat.ofDigitChars 10 cs m := by
    intro cs
    induction cs with
    | nil =>
      intro m _
      rw [Nat.ofDigitChars_nil]
      rfl
    | cons c cs ih =>
      intro m h
      rw [List.map_cons, List.foldl_cons, toNat_ofNat_of_lt (h c List.mem_cons_self),
        ih _ fun d hd => h d (List.mem_cons_of_mem c hd), Nat.ofDigitChars_cons]
      rfl
  rw [digitsValue, digitBytes, all _ 0 fun c hc => by have := isDigit_of_mem_digits hc; omega]
  exact Nat.ofDigitChars_toDigits (by decide) (by decide)

@[simp] theorem digitBytes_ne_nil (n : Nat) : digitBytes n ≠ [] := by
  rw [digitBytes, ne_eq, List.map_eq_nil_iff]
  exact Nat.toDigits_ne_nil

theorem length_digitBytes {n : Nat} (h : n < Nat.pow 10 20) : (digitBytes n).length ≤ 20 := by
  rw [digitBytes, List.length_map]
  exact (Nat.length_toDigits_le_iff (by decide) (by decide)).mpr h

/-- Only the number zero begins with the digit zero. -/
theorem digits_pos {n : Nat} (h : 0 < n) : ∃ c cs, digits n = c :: cs ∧ c ≠ '0' := by
  induction n using Nat.base_induction 10 (by decide) with
  | single m hm =>
    refine ⟨_, [], Nat.toDigits_of_lt_base hm, ?_⟩
    have all : ∀ m : Fin 10, 0 < m.val → m.val.digitChar ≠ '0' := by decide
    exact all ⟨m, hm⟩ h
  | digit m k hk hm ih =>
    obtain ⟨c, cs, hc, hne⟩ := ih hm
    refine ⟨c, cs ++ Nat.toDigits 10 k, ?_, hne⟩
    rw [digits, ← Nat.toDigits_append_toDigits (by decide) hm hk, ← digits, hc]
    rfl

theorem scanWhole_digitBytes (n : Nat) {r : List UInt8} (h : Stops r) :
    scanWhole (digitBytes n ++ r) = some (digitBytes n, r) := by
  rcases Nat.eq_zero_or_pos n with rfl | hn
  · rfl
  · have hs := scanDigits_append (digitBytes_ne_nil n) (fun b => isDigit_digitBytes) h
    obtain ⟨c, cs, hc, hne⟩ := digits_pos hn
    have hd := isDigit_of_mem_digits (n := n) (c := c) (by rw [hc]; exact List.mem_cons_self)
    have hb : UInt8.ofNat c.toNat ≠ 0x30 := by
      rw [ne_eq, ofNat_eq_iff (by omega)]
      exact fun he => hne (Char.ext (UInt32.toNat_inj.mp he))
    rw [digitBytes, hc, List.map_cons, List.cons_append] at hs ⊢
    unfold scanWhole
    split
    · rename_i he
      exact absurd (List.cons.inj he).1 hb
    · exact hs

theorem scanUnsigned_digitBytes {n : Nat} (hn : n < Nat.pow 10 20) {r : List UInt8} (h : Stops r) :
    scanUnsigned false (digitBytes n ++ r) = some (.number (some n), r) := by
  have hlen := length_digitBytes hn
  simp only [scanUnsigned, scanWhole_digitBytes n h, skipFraction_of_stops h,
    skipExponent_of_stops h, digitsValue_digitBytes, bind, Option.bind, pure]
  simp [Nat.not_lt.mpr hlen]

theorem lex_cons {b : UInt8} {r s : List UInt8} {t : Token} (hs : isSpace b = false)
    (h : scanToken b r = some (t, s)) : lex (b :: r) = (lex s).map (t :: ·) := by
  rw [lex, if_neg (by simp [hs])]
  split
  · rename_i he
    rw [h] at he
    cases he
    rfl
  · rename_i he
    rw [h] at he
    cases he

/-- What is written is cut into tokens, unless it is a number that runs on. -/
def Lexes (cs : List Char) (ts : List Token) : Prop :=
  ∀ rest, Stops rest → lex (encodeChars cs ++ rest) = (lex rest).map (ts ++ ·)

/-- A text that begins so ends a number. -/
def Marked : List Char → Prop
  | [] => False
  | c :: _ => c = ',' ∨ c = ':' ∨ c = ']' ∨ c = '\x7d'

theorem stops_of_marked {cs : List Char} (h : Marked cs) (rest : List UInt8) :
    Stops (encodeChars cs ++ rest) := by
  cases cs with
  | nil => exact h.elim
  | cons c cs =>
    rcases h with rfl | rfl | rfl | rfl
    · exact ⟨rfl, by decide, by decide, by decide⟩
    · exact ⟨rfl, by decide, by decide, by decide⟩
    · exact ⟨rfl, by decide, by decide, by decide⟩
    · exact ⟨rfl, by decide, by decide, by decide⟩

namespace Lexes

variable {cs ds : List Char} {ts us : List Token}

theorem append (h : Lexes cs ts) (h' : Lexes ds us) (hd : Marked ds) :
    Lexes (cs ++ ds) (ts ++ us) := by
  intro rest hr
  rw [encodeChars_append, List.append_assoc, h _ (stops_of_marked hd rest), h' rest hr,
    Option.map_map]
  cases lex rest <;> simp

/-- A bracket, a comma or a colon. -/
theorem mark {c : Char} {b : UInt8} {t : Token} (hc : String.utf8EncodeChar c = [b])
    (hs : isSpace b = false) (hb : mark? b = some t) (h : Lexes ds us) :
    Lexes (c :: ds) (t :: us) := by
  intro rest hr
  rw [encodeChars, List.flatMap_cons, hc, ← encodeChars, List.append_assoc, List.singleton_append,
    lex_cons hs (by rw [scanToken, hb]), h rest hr, Option.map_map]
  rfl

theorem closing {c : Char} {b : UInt8} {t : Token} (hc : String.utf8EncodeChar c = [b])
    (hs : isSpace b = false) (hb : mark? b = some t) : Lexes [c] [t] := by
  refine mark hc hs hb fun rest _ => ?_
  cases h : lex rest <;> simp [encodeChars, h]

theorem quoted (s : String) : Lexes (quote s) [.text (some s)] := by
  intro rest _
  obtain ⟨ps, hscan, htext⟩ := scanString_quote s rest
  have hq : encodeChars (quote s) = 0x22 :: encodeChars (s.toList.flatMap escape ++ ['"']) := rfl
  rw [hq, List.cons_append, lex_cons rfl (t := .text (some s)) (s := rest)]
  · rfl
  · show (scanString _).map _ = _
    rw [hscan, Option.map_some, htext]

theorem number {n : Nat} (h : n < Nat.pow 10 20) : Lexes (digits n) [.number (some n)] := by
  intro rest hr
  have hscan := scanUnsigned_digitBytes h hr
  rw [encodeChars_digits]
  cases hb : digitBytes n with
  | nil => exact absurd hb (digitBytes_ne_nil n)
  | cons b bs =>
    have hd : isDigit b = true := isDigit_digitBytes (n := n) (by rw [hb]; exact List.mem_cons_self)
    have hother : ∀ a, isDigit a = false → b ≠ a := by
      rintro a ha rfl
      rw [hd] at ha
      cases ha
    rw [hb] at hscan
    rw [List.cons_append, lex_cons (t := .number (some n)) (s := rest)]
    · rfl
    · simp only [isSpace, hother 0x20 rfl, hother 0x09 rfl, hother 0x0A rfl, hother 0x0D rfl,
        decide_false, Bool.or_self]
    · simp only [scanToken, mark?, hother 0x5B rfl, hother 0x5D rfl, hother 0x7B rfl,
        hother 0x7D rfl, hother 0x2C rfl, hother 0x3A rfl, hother 0x22 rfl, hother 0x2D rfl, hd,
        if_false, if_true]
      exact hscan

theorem word (b : Bool) : Lexes (word b) [.truth b] := by
  intro rest _
  cases b with
  | true => exact lex_cons (b := 0x74) (r := [0x72, 0x75, 0x65] ++ rest) rfl rfl
  | false => exact lex_cons (b := 0x66) (r := [0x61, 0x6C, 0x73, 0x65] ++ rest) rfl rfl

end Lexes

theorem marked_items (items : List Json) : Marked (compactItems items ++ [']']) := by
  cases items with
  | nil => exact .inr (.inr (.inl rfl))
  | cons j items => exact .inl rfl

theorem marked_fields (fields : List (String × Json)) :
    Marked (compactFields fields ++ ['\x7d']) := by
  cases fields with
  | nil => exact .inr (.inr (.inr rfl))
  | cons f fields => exact .inl rfl

mutual

theorem lexes_compact (j : Json) (h : Narrow j) : Lexes (compact j) (tokens j) := by
  cases j with
  | number n => exact .number h
  | truth b => exact .word b
  | text s => exact .quoted s
  | list items =>
    cases items with
    | nil => exact .mark rfl rfl rfl (.closing rfl rfl rfl)
    | cons j items =>
      rw [compact, tokens]
      simp only [List.cons_append, List.append_assoc]
      exact .mark rfl rfl rfl ((lexes_compact j h.1).append (lexes_items items h.2)
        (marked_items items))
  | record fields =>
    cases fields with
    | nil => exact .mark rfl rfl rfl (.closing rfl rfl rfl)
    | cons f fields =>
      obtain ⟨k, j⟩ := f
      rw [compact, tokens]
      simp only [List.cons_append, List.append_assoc]
      exact .mark rfl rfl rfl ((Lexes.quoted k).append (.mark rfl rfl rfl
        ((lexes_compact j h.1).append (lexes_fields fields h.2) (marked_fields fields)))
        (.inr (.inl rfl)))

theorem lexes_items (items : List Json) (h : NarrowItems items) :
    Lexes (compactItems items ++ [']']) (itemTokens items ++ [.closeList]) := by
  cases items with
  | nil => exact .closing rfl rfl rfl
  | cons j items =>
    rw [compactItems, itemTokens]
    simp only [List.cons_append, List.append_assoc]
    exact .mark rfl rfl rfl ((lexes_compact j h.1).append (lexes_items items h.2)
      (marked_items items))

theorem lexes_fields (fields : List (String × Json)) (h : NarrowFields fields) :
    Lexes (compactFields fields ++ ['\x7d']) (fieldTokens fields ++ [.closeRecord]) := by
  cases fields with
  | nil => exact .closing rfl rfl rfl
  | cons f fields =>
    obtain ⟨k, j⟩ := f
    rw [compactFields, fieldTokens]
    simp only [List.cons_append, List.append_assoc]
    exact .mark rfl rfl rfl ((Lexes.quoted k).append (.mark rfl rfl rfl
      ((lexes_compact j h.1).append (lexes_fields fields h.2) (marked_fields fields)))
      (.inr (.inl rfl)))

end

/-- A whole document is cut into its tokens. -/
theorem lex_compact (j : Json) (h : Narrow j) :
    lex (encodeChars j.compact) = some (tokens j) := by
  have hl := lexes_compact j h [] trivial
  rwa [List.append_nil, lex, Option.map_some, List.append_nil] at hl

end TierCache.Json
