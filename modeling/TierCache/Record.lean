import TierCache.Bytes
import TierCache.Headers
import TierCache.Json.Basic
import TierCache.Json.Tree
import TierCache.Lifetime
import TierCache.Problem

/-!
# Records

A response as the cache keeps it, and its form on disk: four bytes with the length of the header,
most significant first, the header as a JSON document, and the payload as it is.
-/
namespace TierCache

structure Record where
  key : String
  metadata : Metadata
  headers : Headers
  payload : List UInt8
  deriving DecidableEq

namespace Record

structure Header where
  key : String
  metadata : Metadata
  headers : Headers
  deriving DecidableEq

def header (r : Record) : Header := ⟨r.key, r.metadata, r.headers⟩

/-- The bytes of the payload, the key and the header fields. -/
def byteSize (r : Record) : Nat :=
  r.payload.length + r.key.utf8ByteSize + r.headers.byteSize

end Record

def Metadata.document (m : Metadata) : Json := .record [
  ("server_timestamp", .number m.serverTimestamp.toNat),
  ("soft_expiry", .number m.softExpiry.toNat),
  ("hard_expiry", .number m.hardExpiry.toNat),
  ("always_retain", .truth m.alwaysRetain)]

def Metadata.instant? (field : Option Json.Tree) : Option Instant :=
  (field.bind (Json.Tree.natural? UInt64.size)).map UInt64.ofNat

/-- The retention may be left out. -/
def Metadata.ofTree? (t : Json.Tree) : Option Metadata :=
  match t.select? ["server_timestamp", "soft_expiry", "hard_expiry", "always_retain"] with
  | some [server, soft, hard, retain] => do
    let serverTimestamp ← instant? server
    let softExpiry ← instant? soft
    let hardExpiry ← instant? hard
    let alwaysRetain ← match retain with
      | none => some false
      | some t => t.truth?
    return { serverTimestamp, softExpiry, hardExpiry, alwaysRetain }
  | _ => none

def Headers.document (h : Headers) : Json := .record (h.pairs.map fun p => (p.1, .text p.2))

def Headers.ofTree? (t : Json.Tree) : Option Headers := do
  let fields ← t.fields?
  let pairs ← fields.mapM fun f => f.2.text?.map (f.1, ·)
  return .ofList pairs

namespace Record

namespace Header

def document (h : Header) : Json := .record [
  ("key", .text h.key), ("metadata", h.metadata.document), ("headers", h.headers.document)]

def encode (h : Header) : List UInt8 := Utf8.encodeChars h.document.compact

/-- The header fields may be left out. -/
def ofTree? (t : Json.Tree) : Option Header :=
  match t.select? ["key", "metadata", "headers"] with
  | some [key, metadata, headers] => do
    let key ← key.bind Json.Tree.text?
    let metadata ← metadata.bind Metadata.ofTree?
    let headers ← match headers with
      | none => some .empty
      | some t => Headers.ofTree? t
    return { key, metadata, headers }
  | _ => none

def decode? (bytes : List UInt8) : Option Header := (Json.Tree.ofBytes? bytes).bind ofTree?

end Header

/-- The bytes of the length in front of the header. -/
def prefixLength : Nat := 4

def encode (r : Record) : Except Problem (List UInt8) :=
  let header := r.header.encode
  if header.length < UInt32.size then
    .ok (Bytes.bigEndian header.length prefixLength ++ header ++ r.payload)
  else .error (.decode .headerTooLarge)

/-- The header and the payload. -/
def split (bytes : List UInt8) : Except Problem (Header × List UInt8) :=
  if bytes.length < prefixLength then .error (.decode .shortRecord)
  else
    let declared := Bytes.value (bytes.take prefixLength)
    let rest := bytes.drop prefixLength
    if rest.length < declared then .error (.decode (.headerPastEnd declared rest.length))
    else
      match Header.decode? (rest.take declared) with
      | some header => .ok (header, rest.drop declared)
      | none => .error (.decode .malformed)

def decode (bytes : List UInt8) : Except Problem Record :=
  (split bytes).map fun (h, payload) => ⟨h.key, h.metadata, h.headers, payload⟩

/-- The key that a record was stored under. -/
def storedKey (bytes : List UInt8) : Option String :=
  match split bytes with
  | .ok (h, _) => some h.key
  | .error _ => none

end Record

end TierCache
