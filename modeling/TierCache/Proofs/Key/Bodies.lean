import TierCache.Proofs.Key.Tagging
import TierCache.Proofs.Text.Utf8

/-!
# Bodies in keys

A body is in the key of its request through the digest of its text. Bodies with different texts have
different keys, as far as the hash tells the texts apart; but bytes that are broken have the same
text as a replacement character.
-/
namespace TierCache

namespace Hex

theorem digit_inj {m n : Nat} (hm : m < 16) (hn : n < 16) (h : digit m = digit n) : m = n := by
  have all : ∀ m n : Fin 16, digit m = digit n → m = n := by decide
  exact congrArg Fin.val (all ⟨m, hm⟩ ⟨n, hn⟩ h)

theorem ofByte_inj {a b : UInt8} (h : ofByte a = ofByte b) : a = b := by
  simp only [ofByte, List.cons.injEq, and_true] at h
  have ha := a.toNat_lt
  have hb := b.toNat_lt
  have hhigh := digit_inj (by omega) (by omega) h.1
  have hlow := digit_inj (by omega) (by omega) h.2
  rw [← UInt8.toNat_inj]
  omega

theorem ofBytes_inj {as bs : List UInt8} (h : ofBytes as = ofBytes bs) : as = bs := by
  have hlen := congrArg List.length h
  rw [length_ofBytes, length_ofBytes] at hlen
  induction as generalizing bs with
  | nil =>
    cases bs with
    | nil => rfl
    | cons b bs => simp at hlen
  | cons a as ih =>
    cases bs with
    | nil => simp at hlen
    | cons b bs =>
      rw [ofBytes, List.flatMap_cons, ofBytes, List.flatMap_cons] at h
      obtain ⟨hhead, htail⟩ := List.append_inj h rfl
      rw [List.length_cons, List.length_cons] at hlen
      rw [ofByte_inj hhead, ih htail (by omega)]

end Hex

/-- The hash tells the two texts apart, if they differ. -/
def Sha256.Distinguishes (s t : String) : Prop :=
  hash (Utf8.encode s) = hash (Utf8.encode t) → s = t

theorem Digest.ofKey_inj {s t : String} (h : Sha256.Distinguishes s t) :
    ofKey s = ofKey t ↔ s = t := by
  refine ⟨fun heq => h (Hex.ofBytes_inj ?_), fun heq => heq ▸ rfl⟩
  exact String.ofList_injective (congrArg Digest.text heq)

theorem Digest.text_inj {d e : Digest} : d.text = e.text ↔ d = e := by
  cases d
  cases e
  simp

/-- No digest begins like a part of a size tag. -/
theorem Digest.head?_ne (d : Digest) {c : Char} (hc : Hex.isDigit c = false) :
    d.text.toList.head? ≠ some c := by
  intro hhead
  have hd := d.valid
  simp only [isDigestText, Bool.and_eq_true, List.all_eq_true] at hd
  have := hd.2 c (List.mem_of_mem_head? hhead)
  rw [hc] at this
  cases this

namespace Request

variable {α ε : Type}

/-- The tag of a key is taken off whether or not a body is put into the key. -/
theorem slot_addBody (r : Request α ε) (body : List UInt8) :
    (r.addBody body).slot = r.slot ++ "#" ++ (Digest.ofKey (Utf8.decodeLossy body)).text :=
  Key.normalize_append (Digest.head?_ne _ (by decide)) (Digest.head?_ne _ (by decide))

theorem key_addBody_inj (r : Request α ε) {b₁ b₂ : List UInt8}
    (h : Sha256.Distinguishes (Utf8.decodeLossy b₁) (Utf8.decodeLossy b₂)) :
    (r.addBody b₁).key = (r.addBody b₂).key ↔ Utf8.decodeLossy b₁ = Utf8.decodeLossy b₂ := by
  rw [← Digest.ofKey_inj h, ← Digest.text_inj]
  simp [addBody, String.append_right_inj]

theorem slot_addBody_inj (r : Request α ε) {b₁ b₂ : List UInt8}
    (h : Sha256.Distinguishes (Utf8.decodeLossy b₁) (Utf8.decodeLossy b₂)) :
    (r.addBody b₁).slot = (r.addBody b₂).slot ↔ Utf8.decodeLossy b₁ = Utf8.decodeLossy b₂ := by
  rw [slot_addBody, slot_addBody, ← Digest.ofKey_inj h, ← Digest.text_inj]
  simp [String.append_right_inj]

/-- Two requests that are kept apart, in memory by their slots and on disk by the names of their
files. -/
structure Apart (r q : Request α ε) : Prop where
  key : r.key ≠ q.key
  slot : r.slot ≠ q.slot
  file : Digest.ofKey r.slot ≠ Digest.ofKey q.slot

/-- As far as the hash tells apart what it is given, bodies keep requests apart exactly if their
texts differ. So do any two bodies that are text, and a body that is text without a replacement
character is kept apart from all others. -/
theorem bodies_separated (r : Request α ε) {b₁ b₂ : List UInt8}
    (htexts : Sha256.Distinguishes (Utf8.decodeLossy b₁) (Utf8.decodeLossy b₂))
    (hslots : Sha256.Distinguishes (r.addBody b₁).slot (r.addBody b₂).slot) :
    (Utf8.decodeLossy b₁ ≠ Utf8.decodeLossy b₂ → Apart (r.addBody b₁) (r.addBody b₂)) ∧
    (Utf8.decodeLossy b₁ = Utf8.decodeLossy b₂ → r.addBody b₁ = r.addBody b₂) ∧
    (∀ s t, Utf8.decode b₁ = .ok s → Utf8.decode b₂ = .ok t → b₁ ≠ b₂ →
      Apart (r.addBody b₁) (r.addBody b₂)) ∧
    (∀ s, Utf8.decode b₁ = .ok s → '\uFFFD' ∉ s.toList → b₁ ≠ b₂ →
      Apart (r.addBody b₁) (r.addBody b₂)) := by
  have apart : Utf8.decodeLossy b₁ ≠ Utf8.decodeLossy b₂ →
      Apart (r.addBody b₁) (r.addBody b₂) := by
    intro hne
    have hslot : (r.addBody b₁).slot ≠ (r.addBody b₂).slot := mt (r.slot_addBody_inj htexts).mp hne
    exact ⟨mt (r.key_addBody_inj htexts).mp hne, hslot, mt (Digest.ofKey_inj hslots).mp hslot⟩
  refine ⟨apart, fun heq => by rw [addBody, addBody, heq], ?_, ?_⟩
  · intro s t hs ht hne
    obtain rfl := Utf8.decode_eq_ok_iff.mp hs
    obtain rfl := Utf8.decode_eq_ok_iff.mp ht
    refine apart fun heq => hne ?_
    rw [Utf8.decodeLossy_encode, Utf8.decodeLossy_encode] at heq
    rw [heq]
  · intro s hs hplain hne
    obtain rfl := Utf8.decode_eq_ok_iff.mp hs
    refine apart fun heq => hne ?_
    rw [Utf8.decodeLossy_encode] at heq
    exact (Utf8.eq_encode_of_decodeLossy heq.symm hplain).symm

theorem bodies_separated_pictures :
    Apart ((pictureRequest "u").addBody [0x31]) ((pictureRequest "u").addBody [0x32]) := by
  have htexts : Sha256.Distinguishes (Utf8.decodeLossy [0x31]) (Utf8.decodeLossy [0x32]) :=
    fun h => absurd h (by decide +kernel)
  have hslots : Sha256.Distinguishes ((pictureRequest "u").addBody [0x31]).slot
      ((pictureRequest "u").addBody [0x32]).slot := fun h => absurd h (by decide +kernel)
  exact (bodies_separated (pictureRequest "u") htexts hslots).2.2.1 "1" "2"
    (Utf8.decode_eq_ok_iff.mpr (by decide +kernel)) (Utf8.decode_eq_ok_iff.mpr (by decide +kernel))
    (by decide)

/-- A byte that begins no character has the text of a replacement character. -/
theorem bodies_confused : ([0xEF, 0xBF, 0xBD] : List UInt8) ≠ [0xFF] ∧
    ((pictureRequest "u").addBody [0xEF, 0xBF, 0xBD]).key =
      ((pictureRequest "u").addBody [0xFF]).key ∧
    ((pictureRequest "u").addBody [0xEF, 0xBF, 0xBD]).slot =
      ((pictureRequest "u").addBody [0xFF]).slot := by
  have htext : Utf8.decodeLossy [0xEF, 0xBF, 0xBD] = Utf8.decodeLossy [0xFF] := by decide +kernel
  refine ⟨by decide, ?_, ?_⟩
  · rw [addBody, addBody, htext]
  · rw [slot_addBody, slot_addBody, htext]

end Request

end TierCache
