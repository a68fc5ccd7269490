import TierCache.Proofs.Json.Reading
import TierCache.Record

/-!
# Records are read back

The bytes of a record, as it is encoded, decode to the same record: the length in front tells where
the header ends, the header is a document that is read back, and the payload is the rest. So a
record that was cut short is either refused or has all but the end of its payload.
-/
namespace TierCache

open Json

namespace Headers

theorem insertPair_of_lt {name value : String} {ps : List (String × String)}
    (h : ∀ p ∈ ps, p.1 < name) : insertPair name value ps = ps ++ [(name, value)] := by
  induction ps with
  | nil => rfl
  | cons p ps ih =>
    obtain ⟨n, v⟩ := p
    have hn : n < name := h (n, v) List.mem_cons_self
    rw [insertPair, if_neg (String.lt_asymm hn), if_neg (String.ne_of_lt hn),
      ih fun p hp => h p (List.mem_cons_of_mem _ hp), List.cons_append]

theorem pairs_foldl_insert (h : Headers) {ps : List (String × String)}
    (hs : (h.pairs ++ ps).Pairwise fun a b => a.1 < b.1) :
    (ps.foldl (fun h p => h.insert p.1 p.2) h).pairs = h.pairs ++ ps := by
  induction ps generalizing h with
  | nil => rw [List.append_nil]; rfl
  | cons p ps ih =>
    have hp : (h.insert p.1 p.2).pairs = h.pairs ++ [p] :=
      insertPair_of_lt fun q hq => (List.pairwise_append.mp hs).2.2 q hq p List.mem_cons_self
    rw [List.foldl_cons, ih, hp, List.append_assoc, List.singleton_append]
    rwa [hp, List.append_assoc, List.singleton_append]

theorem ofList_pairs (h : Headers) : ofList h.pairs = h := by
  have hp : (ofList h.pairs).pairs = h.pairs := pairs_foldl_insert empty h.sorted
  cases he : ofList h.pairs with
  | mk pairs sorted =>
    rw [he] at hp
    subst hp
    rfl

theorem narrow_document (h : Headers) : Narrow h.document := by
  show NarrowFields (h.pairs.map fun p => (p.1, .text p.2))
  induction h.pairs with
  | nil => trivial
  | cons p ps ih => exact ⟨trivial, ih⟩

theorem ofTree?_tree (h : Headers) : ofTree? h.document.tree = some h := by
  have hpairs : ((h.pairs.map fun p => (p.1, Json.text p.2)).map fun f => (f.1, f.2.tree)).mapM
      (fun f => f.2.text?.map (f.1, ·)) = some h.pairs := by
    induction h.pairs with
    | nil => rfl
    | cons p ps ih =>
      rw [List.map_cons, List.map_cons, List.mapM_cons, ih]
      rfl
  rw [ofTree?, document, Tree.fields?_tree]
  simp only [Option.bind_eq_bind, Option.bind_some, hpairs, ofList_pairs]
  rfl

end Headers

namespace Metadata

theorem narrow_instant (t : Instant) : t.toNat < Nat.pow 10 20 :=
  Nat.lt_trans t.toNat_lt (by decide)

theorem narrow_document (m : Metadata) : Narrow m.document :=
  ⟨narrow_instant _, narrow_instant _, narrow_instant _, trivial, trivial⟩

theorem instant?_number (t : Instant) : instant? (some (Json.number t.toNat).tree) = some t := by
  have ht : (0 : Int) ≤ t.toNat ∧ (t.toNat : Int) ≤ (UInt64.size : Nat) - 1 := by
    have := t.toNat_lt
    have hs : UInt64.size = 2 ^ 64 := rfl
    omega
  simp only [instant?, Json.tree, Option.bind_some, Tree.natural?, Tree.integer?,
    Option.filter_some, ht, decide_true, Bool.and_self, if_true, Option.map_some,
    Int.toNat_natCast, UInt64.ofNat_toNat]

theorem ofTree?_tree (m : Metadata) : ofTree? m.document.tree = some m := by
  have hs := Tree.select?_tree [
    ("server_timestamp", .number m.serverTimestamp.toNat),
    ("soft_expiry", .number m.softExpiry.toNat),
    ("hard_expiry", .number m.hardExpiry.toNat),
    ("always_retain", .truth m.alwaysRetain)] (by simp)
  simp only [List.map_cons, List.map_nil] at hs
  simp only [ofTree?, document, hs, instant?_number, Option.bind_eq_bind, Option.bind_some]
  rfl

end Metadata

namespace Record

theorem Header.narrow_document (h : Header) : Narrow h.document :=
  ⟨trivial, h.metadata.narrow_document, h.headers.narrow_document, trivial⟩

theorem Header.ofTree?_tree (h : Header) : ofTree? h.document.tree = some h := by
  have hs := Tree.select?_tree [
    ("key", .text h.key), ("metadata", h.metadata.document),
    ("headers", h.headers.document)] (by simp)
  simp only [List.map_cons, List.map_nil] at hs
  simp only [ofTree?, document, hs, Option.bind_eq_bind, Option.bind_some,
    Metadata.ofTree?_tree, Headers.ofTree?_tree]
  rfl

theorem Header.decode?_encode (h : Header) : decode? h.encode = some h := by
  rw [decode?, encode, Tree.ofBytes?_compact _ h.narrow_document, Option.bind_some, ofTree?_tree]

/-- The length in front is read as it was written. -/
theorem value_lengthPrefix {n : Nat} (h : n < UInt32.size) :
    Bytes.value (Bytes.bigEndian n prefixLength) = n := by
  rw [Bytes.value_bigEndian]
  exact Nat.mod_eq_of_lt h

theorem split_append {h : Header} (hlen : h.encode.length < UInt32.size) (payload : List UInt8) :
    split (Bytes.bigEndian h.encode.length prefixLength ++ h.encode ++ payload) =
      .ok (h, payload) := by
  have hp : (Bytes.bigEndian h.encode.length prefixLength).length = prefixLength :=
    Bytes.length_bigEndian _ _
  rw [split, if_neg (by simp [hp]), List.append_assoc]
  simp only [List.take_left' hp, List.drop_left' hp, value_lengthPrefix hlen]
  rw [if_neg (by simp)]
  simp only [List.take_left' rfl, List.drop_left' rfl, Header.decode?_encode]

theorem encode_of_lt {r : Record} (h : r.header.encode.length < UInt32.size) :
    r.encode = .ok (Bytes.bigEndian r.header.encode.length prefixLength ++ r.header.encode ++
      r.payload) := if_pos h

theorem encode_eq_ok_iff {r : Record} {bytes : List UInt8} :
    r.encode = .ok bytes ↔ r.header.encode.length < UInt32.size ∧
      bytes = Bytes.bigEndian r.header.encode.length prefixLength ++ r.header.encode ++
        r.payload := by
  by_cases h : r.header.encode.length < UInt32.size
  · rw [encode_of_lt h, Except.ok.injEq, eq_comm, and_iff_right h]
  · simp [encode, h]

/-- What is encoded splits into the header and the payload it was made of. -/
theorem split_of_encode {r : Record} {bytes : List UInt8} (h : r.encode = .ok bytes) :
    split bytes = .ok (r.header, r.payload) := by
  obtain ⟨hlen, rfl⟩ := encode_eq_ok_iff.mp h
  exact split_append hlen r.payload

/-- What is encoded decodes to the same record. -/
theorem decode_of_encode {r : Record} {bytes : List UInt8} (h : r.encode = .ok bytes) :
    decode bytes = .ok r := by
  rw [decode, split_of_encode h]
  rfl

/-- The key is found again without the payload. -/
theorem storedKey_of_encode {r : Record} {bytes : List UInt8} (h : r.encode = .ok bytes) :
    storedKey bytes = some r.key := by
  rw [storedKey, split_of_encode h]
  rfl

/-- Every record whose header fits its length in front is encoded, and comes back whole. -/
theorem decode_encode {r : Record} (h : r.header.encode.length < UInt32.size) :
    ∃ bytes, r.encode = .ok bytes ∧ decode bytes = .ok r ∧ storedKey bytes = some r.key :=
  ⟨_, encode_of_lt h, decode_of_encode (encode_of_lt h), storedKey_of_encode (encode_of_lt h)⟩

/-- A record with characters of every width, some that are escaped, instants at both ends of their
range, and a payload that is a document itself. -/
def awkward : Record where
  key := "k\"\\\n\x00é€😀"
  metadata := ⟨UInt64.ofNat (UInt64.size - 1), 0, UInt64.ofNat (UInt64.size - 1), true⟩
  headers := .ofList [("etag\t", "\"ü\""), ("", "\x1f𝄞")]
  payload := "\x7b\"key\":\"other\"\x7d".toUTF8.toList

theorem decode_encode_awkward :
    awkward.header.encode.length < UInt32.size ∧
    ∃ bytes, awkward.encode = .ok bytes ∧ decode bytes = .ok awkward ∧
      storedKey bytes = some awkward.key :=
  have h : awkward.header.encode.length < UInt32.size := by decide +kernel
  ⟨h, decode_encode h⟩

/-- The flaw of what is left of a record that is cut within its header. -/
def cutFlaw (headerLength n : Nat) : Misreading :=
  if n < prefixLength then .shortRecord else .headerPastEnd headerLength (n - prefixLength)

/-- The length in front tells that the header is not all there. -/
theorem split_take_of_lt {h : Header} (hlen : h.encode.length < UInt32.size)
    (payload : List UInt8) {n : Nat} (hn : n < prefixLength + h.encode.length) :
    split ((Bytes.bigEndian h.encode.length prefixLength ++ h.encode ++ payload).take n) =
      .error (.decode (cutFlaw h.encode.length n)) := by
  have hp : (Bytes.bigEndian h.encode.length prefixLength).length = prefixLength :=
    Bytes.length_bigEndian _ _
  have hall : ((Bytes.bigEndian h.encode.length prefixLength ++ h.encode ++ payload).take n).length
      = n := by
    rw [List.length_take, List.length_append, List.length_append, hp]
    omega
  rw [split, cutFlaw, hall]
  split
  · rfl
  · rename_i hlong
    have hdeclared : Bytes.value (((Bytes.bigEndian h.encode.length prefixLength ++ h.encode ++
        payload).take n).take prefixLength) = h.encode.length := by
      rw [List.take_take, Nat.min_eq_left (by omega), List.append_assoc, List.take_left' hp,
        value_lengthPrefix hlen]
    simp only [hdeclared, List.length_drop, hall]
    rw [if_pos (by omega)]

/-- Nothing tells that the payload is not all there. -/
theorem split_take_of_le {h : Header} (hlen : h.encode.length < UInt32.size)
    (payload : List UInt8) {n : Nat} (hn : prefixLength + h.encode.length ≤ n) :
    split ((Bytes.bigEndian h.encode.length prefixLength ++ h.encode ++ payload).take n) =
      .ok (h, payload.take (n - prefixLength - h.encode.length)) := by
  have hp : (Bytes.bigEndian h.encode.length prefixLength ++ h.encode).length =
      prefixLength + h.encode.length := by rw [List.length_append, Bytes.length_bigEndian]
  rw [List.take_append, List.take_of_length_le (by omega), hp, split_append hlen, Nat.sub_sub]

/-- A record that is cut within its header is not decoded, and its key is not found. One that is cut
within its payload decodes to the same record with the payload cut. -/
theorem decode_take {r : Record} {bytes : List UInt8} (h : r.encode = .ok bytes) (n : Nat) :
    (n < prefixLength + r.header.encode.length →
      decode (bytes.take n) = .error (.decode (cutFlaw r.header.encode.length n)) ∧
      storedKey (bytes.take n) = none) ∧
    (prefixLength + r.header.encode.length ≤ n →
      decode (bytes.take n) =
        .ok { r with payload := r.payload.take (n - prefixLength - r.header.encode.length) } ∧
      storedKey (bytes.take n) = some r.key) ∧
    ∀ r', decode (bytes.take n) = .ok r' →
      r'.key = r.key ∧ r'.metadata = r.metadata ∧ r'.headers = r.headers := by
  obtain ⟨hlen, rfl⟩ := encode_eq_ok_iff.mp h
  have short : n < prefixLength + r.header.encode.length → _ := split_take_of_lt hlen r.payload
  have long : prefixLength + r.header.encode.length ≤ n → _ := split_take_of_le hlen r.payload
  refine ⟨fun hn => ?_, fun hn => ?_, fun r' hr => ?_⟩
  · rw [decode, storedKey, short hn]
    exact ⟨rfl, rfl⟩
  · rw [decode, storedKey, long hn]
    exact ⟨rfl, rfl⟩
  · rcases Nat.lt_or_ge n (prefixLength + r.header.encode.length) with hn | hn
    · rw [decode, short hn] at hr
      cases hr
    · rw [decode, long hn] at hr
      cases hr
      exact ⟨rfl, rfl, rfl⟩

/-- The record cut within the length in front, within the header and within the payload. -/
theorem decode_take_awkward : ∃ bytes, awkward.encode = .ok bytes ∧
    decode (bytes.take 3) = .error (.decode .shortRecord) ∧
    decode (bytes.take 100) =
      .error (.decode (.headerPastEnd awkward.header.encode.length 96)) ∧
    decode (bytes.take (prefixLength + awkward.header.encode.length + 2)) =
      .ok { awkward with payload := awkward.payload.take 2 } := by
  have henc := encode_of_lt (show awkward.header.encode.length < UInt32.size by decide +kernel)
  have hfront := ((decode_take henc 3).1 (by decide +kernel)).1
  have hheader := ((decode_take henc 100).1 (by decide +kernel)).1
  have hpayload := ((decode_take henc (prefixLength + awkward.header.encode.length + 2)).2.1
    (Nat.le_add_right _ 2)).1
  rw [Nat.add_assoc, Nat.add_sub_cancel_left, Nat.add_sub_cancel_left, ← Nat.add_assoc] at hpayload
  exact ⟨_, henc, hfront, hheader, hpayload⟩

end Record

end TierCache
