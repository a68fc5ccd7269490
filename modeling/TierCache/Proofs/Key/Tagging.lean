import TierCache.Payload
import TierCache.Request

/-!
# Taking a size tag off again

Nothing separates the height of a tag from the key behind it. A key that does not begin with a
digit comes back from under its tag; of one that does, the digits are read as part of the height.
-/
namespace TierCache

theorem Decimal.isDigit_of_mem_toDigits {n : Nat} {c : Char} (h : c ∈ Nat.toDigits 10 n) :
    c.isDigit = true :=
  Nat.isDigit_of_mem_toDigits (by decide) (by decide) h

/-- What was printed is read. -/
theorem Decimal.below?_toDigits {n bound : Nat} (h : n < bound) :
    below? bound (Nat.toDigits 10 n) = some n := by
  have hall : (Nat.toDigits 10 n).all Char.isDigit = true :=
    List.all_eq_true.mpr fun c hc => isDigit_of_mem_toDigits hc
  have hvalue : value (Nat.toDigits 10 n) = n := Nat.ofDigitChars_ten_toDigits
  rw [below?_eq (by omega), digits?, if_pos ⟨Nat.toDigits_ne_nil, hall⟩, hvalue]
  simp [h]

namespace Key

/-- The text begins with an ASCII digit. -/
def DigitFirst (cs : List Char) : Prop := ∃ c r, cs = c :: r ∧ c.isDigit = true

@[simp] theorem digitFirst_nil : ¬ DigitFirst [] := by simp [DigitFirst]

@[simp] theorem digitFirst_cons {c : Char} {r : List Char} :
    DigitFirst (c :: r) ↔ c.isDigit = true := by simp [DigitFirst]

theorem takeWhile_eq_nil {cs : List Char} (h : ¬ DigitFirst cs) :
    cs.takeWhile Char.isDigit = [] := by
  cases cs with
  | nil => rfl
  | cons c r => simp_all

theorem dropWhile_eq_self {cs : List Char} :
    cs.dropWhile Char.isDigit = cs ↔ ¬ DigitFirst cs := by
  cases cs with
  | nil => simp
  | cons c r =>
    by_cases hc : c.isDigit = true
    · have hle : (r.dropWhile Char.isDigit).length ≤ r.length :=
        (List.dropWhile_sublist _).length_le
      have hne : r.dropWhile Char.isDigit ≠ c :: r := by
        intro heq
        rw [heq, List.length_cons] at hle
        omega
      simp [hc, hne]
    · simp [hc]

/-- A number goes on with the digits that the text behind it begins with. -/
theorem takeSize_toDigits (n : Nat) (cs : List Char) :
    takeSize (Nat.toDigits 10 n ++ cs) =
      (Decimal.below? UInt32.size (Nat.toDigits 10 n ++ cs.takeWhile Char.isDigit)).map fun n =>
        (UInt32.ofNat n, cs.dropWhile Char.isDigit) := by
  have hd : ∀ c ∈ Nat.toDigits 10 n, c.isDigit = true :=
    fun c => Decimal.isDigit_of_mem_toDigits
  rw [takeSize, List.takeWhile_append_of_pos hd, List.dropWhile_append_of_pos hd]

theorem takeSize_exact (n : UInt32) {cs : List Char} (h : ¬ DigitFirst cs) :
    takeSize (Nat.toDigits 10 n.toNat ++ cs) = some (n, cs) := by
  rw [takeSize_toDigits, takeWhile_eq_nil h, dropWhile_eq_self.mpr h, List.append_nil,
    Decimal.below?_toDigits n.toNat_lt_size]
  simp

theorem toList_withSize (width height : UInt32) (key : String) :
    (withSize width height key).toList = '#' :: 'W' :: (Nat.toDigits 10 width.toNat ++
      '#' :: 'H' :: (Nat.toDigits 10 height.toNat ++ key.toList)) := by
  simp [withSize, Nat.toString_eq_repr, Nat.toList_repr]

/-- The width is read as it was written, since the sign behind it is no digit. -/
theorem split_withSize (width height : UInt32) (key : String) :
    split (withSize width height key) =
      (takeSize (Nat.toDigits 10 height.toNat ++ key.toList)).map fun r =>
        (width, r.1, String.ofList r.2) := by
  have hw : ¬ DigitFirst ('#' :: 'H' :: (Nat.toDigits 10 height.toNat ++ key.toList)) := by
    simp
  rw [split, toList_withSize, splitChars, takeSize_exact width hw]
  simp only [Option.map_map]
  rfl

theorem split_exact (width height : UInt32) {key : String} (h : ¬ DigitFirst key.toList) :
    split (withSize width height key) = some (width, height, key) := by
  rw [split_withSize, takeSize_exact height h]
  simp

/-- The digits that a key begins with are lost, if its tag is recognized at all. -/
theorem ne_of_split {width height w h : UInt32} {key rest : String} (hd : DigitFirst key.toList)
    (hs : split (withSize width height key) = some (w, h, rest)) : rest ≠ key := by
  rw [split_withSize, takeSize_toDigits, Option.map_map, Option.map_eq_some_iff] at hs
  obtain ⟨n, -, hs⟩ := hs
  simp only [Function.comp, Prod.mk.injEq] at hs
  have hrest : rest.toList = key.toList.dropWhile Char.isDigit := by simp [← hs.2.2]
  rintro rfl
  exact dropWhile_eq_self.mp hrest.symm hd

theorem withSize_ne (width height : UInt32) (key : String) : withSize width height key ≠ key := by
  intro heq
  have hlen := congrArg (fun s => s.toList.length) heq
  simp only [toList_withSize, List.length_cons, List.length_append] at hlen
  omega

theorem normalize_exact (width height : UInt32) {key : String} (h : ¬ DigitFirst key.toList) :
    normalize (withSize width height key) = key := by
  rw [normalize, split_exact width height h]

theorem normalize_ne (width height : UInt32) {key : String} (h : DigitFirst key.toList) :
    normalize (withSize width height key) ≠ key := by
  rw [normalize]
  split
  · exact ne_of_split h ‹_›
  · exact withSize_ne width height key

theorem takeSize_append (cs ds : List Char) :
    takeSize (cs ++ '#' :: ds) = (takeSize cs).map fun r => (r.1, r.2 ++ '#' :: ds) := by
  have htake : (cs ++ '#' :: ds).takeWhile Char.isDigit = cs.takeWhile Char.isDigit := by
    induction cs with
    | nil => simp
    | cons c cs ih => by_cases hc : c.isDigit = true <;> simp [hc, ih]
  have hdrop : (cs ++ '#' :: ds).dropWhile Char.isDigit =
      cs.dropWhile Char.isDigit ++ '#' :: ds := by
    induction cs with
    | nil => simp
    | cons c cs ih => by_cases hc : c.isDigit = true <;> simp_all
  rw [takeSize, takeSize, htake, hdrop, Option.map_map]
  rfl

theorem splitChars_eq_some_iff {cs rest : List Char} {w h : UInt32} :
    splitChars cs = some (w, h, rest) ↔ ∃ r r', cs = '#' :: 'W' :: r ∧
      takeSize r = some (w, '#' :: 'H' :: r') ∧ takeSize r' = some (h, rest) := by
  constructor
  · intro hs
    unfold splitChars at hs
    split at hs
    · split at hs
      · rename_i r _ w' r' hr
        obtain ⟨⟨h', rest'⟩, hr', hs⟩ := Option.map_eq_some_iff.mp hs
        simp only [Prod.mk.injEq] at hs
        obtain ⟨rfl, rfl, rfl⟩ := hs
        exact ⟨r, r', rfl, hr, hr'⟩
      · cases hs
    · cases hs
  · rintro ⟨r, r', rfl, hr, hr'⟩
    simp [splitChars, hr, hr']

/-- A part of a tag does not begin in what stands behind the text. -/
theorem eq_append_of_part {c : Char} {as bs ds : List Char} (hc : c ≠ '#') (hd : ds.head? ≠ some c)
    (h : as ++ '#' :: ds = '#' :: c :: bs) :
    ∃ as', as = '#' :: c :: as' ∧ bs = as' ++ '#' :: ds := by
  match as with
  | [] =>
    simp only [List.nil_append, List.cons.injEq, true_and] at h
    simp [h] at hd
  | [_] =>
    simp only [List.cons_append, List.nil_append, List.cons.injEq] at h
    exact absurd h.2.1.symm hc
  | _ :: _ :: as' =>
    simp only [List.cons_append, List.cons.injEq] at h
    obtain ⟨rfl, rfl, rfl⟩ := h
    exact ⟨as', rfl, rfl⟩

theorem splitChars_append {cs ds : List Char} (hw : ds.head? ≠ some 'W')
    (hh : ds.head? ≠ some 'H') : splitChars (cs ++ '#' :: ds) =
      (splitChars cs).map fun r => (r.1, r.2.1, r.2.2 ++ '#' :: ds) := by
  refine Option.ext fun ⟨w, h, rest⟩ => ?_
  rw [splitChars_eq_some_iff, Option.map_eq_some_iff]
  constructor
  · rintro ⟨r, r', hcs, hr, hr'⟩
    obtain ⟨a, rfl, rfl⟩ := eq_append_of_part (by decide) hw hcs
    rw [takeSize_append, Option.map_eq_some_iff] at hr
    obtain ⟨⟨w', b⟩, ha, hb⟩ := hr
    simp only [Prod.mk.injEq] at hb
    obtain ⟨a', rfl, rfl⟩ := eq_append_of_part (by decide) hh hb.2
    rw [takeSize_append, Option.map_eq_some_iff] at hr'
    obtain ⟨⟨h', b'⟩, ha', hb'⟩ := hr'
    simp only [Prod.mk.injEq] at hb'
    refine ⟨(w', h', b'), splitChars_eq_some_iff.mpr ⟨a, a', rfl, ha, ha'⟩, ?_⟩
    simp [hb.1, hb'.1, hb'.2]
  · rintro ⟨⟨w', h', b⟩, hs, heq⟩
    obtain ⟨a, a', rfl, ha, ha'⟩ := splitChars_eq_some_iff.mp hs
    simp only [Prod.mk.injEq] at heq
    obtain ⟨rfl, rfl, rfl⟩ := heq
    exact ⟨a ++ '#' :: ds, a' ++ '#' :: ds, rfl, by simp [takeSize_append, ha],
      by simp [takeSize_append, ha']⟩

theorem normalize_append {key suffix : String} (hw : suffix.toList.head? ≠ some 'W')
    (hh : suffix.toList.head? ≠ some 'H') :
    normalize (key ++ "#" ++ suffix) = normalize key ++ "#" ++ suffix := by
  have htext : (key ++ "#" ++ suffix).toList = key.toList ++ '#' :: suffix.toList := by simp
  have hsplit : split (key ++ "#" ++ suffix) =
      (split key).map fun r => (r.1, r.2.1, r.2.2 ++ "#" ++ suffix) := by
    rw [split, split, htext, splitChars_append hw hh, Option.map_map, Option.map_map]
    congr 1
    funext r
    simp [← String.toList_inj]
  rw [normalize, normalize, hsplit]
  cases split key <;> rfl

end Key

namespace Request

variable {α ε : Type}

/-- The key under which all tiers keep what answers the request. -/
def slot (r : Request α ε) : String := Key.normalize r.key

theorem slot_withSize (r : Request α ε) (width height : UInt32)
    (h : ¬ Key.DigitFirst r.key.toList) : (r.withSize width height).slot = r.key :=
  Key.normalize_exact width height h

end Request

/-- A size tag is undone exactly if the key does not begin with a digit; then requests in any sizes
share a slot exactly if their bare keys are equal. -/
theorem Key.size_undone {α β ε ζ : Type} (w h w' h' : UInt32) :
    (∀ key, split (withSize w h key) = some (w, h, key) ↔ ¬ DigitFirst key.toList) ∧
    (∀ key, normalize (withSize w h key) = key ↔ ¬ DigitFirst key.toList) ∧
    ∀ (r : Request α ε) (q : Request β ζ), ¬ DigitFirst r.key.toList → ¬ DigitFirst q.key.toList →
      ((r.withSize w h).slot = (q.withSize w' h').slot ↔ r.key = q.key) := by
  refine ⟨fun key => ⟨fun hs hd => ne_of_split hd hs rfl, split_exact w h⟩,
    fun key => ⟨fun hn hd => normalize_ne w h hd hn, normalize_exact w h⟩, fun r q hr hq => ?_⟩
  rw [r.slot_withSize w h hr, q.slot_withSize w' h' hq]

/-- A request for a picture. -/
def pictureRequest (key : String) : Request Payload ErrorPayload where
  id := 1
  key
  policy := {}
  parser := Payload.textParser
  errorReader := none

theorem Key.size_undone_pictures :
    ((pictureRequest "x").withSize 1 2).slot = ((pictureRequest "x").withSize 3 4).slot ∧
      ((pictureRequest "x").withSize 1 2).slot ≠ ((pictureRequest "y").withSize 3 4).slot := by
  have bare : ∀ key ∈ ["x", "y"], ¬ DigitFirst (pictureRequest key).key.toList := by
    simp [pictureRequest]
  obtain ⟨-, -, share⟩ := size_undone (α := Payload) (ε := ErrorPayload) 1 2 3 4
  refine ⟨(share _ _ (bare "x" (by simp)) (bare "x" (by simp))).mpr rfl, fun heq => ?_⟩
  have hkey : "x" = "y" := (share _ _ (bare "x" (by simp)) (bare "y" (by simp))).mp heq
  exact absurd hkey (by decide)

/-- The picture `3x` shares its slot in one size with another picture, and not with itself in
another size. -/
theorem Key.size_lost : split (withSize 1 2 "3x") = some (1, 23, "x") ∧
    ((pictureRequest "3x").withSize 1 2).slot = ((pictureRequest "x").withSize 1 2).slot ∧
    ((pictureRequest "3x").withSize 1 4294967295).slot ≠
      ((pictureRequest "3x").withSize 1 2).slot := by
  decide +kernel

end TierCache
