import TierCache.Cache
import TierCache.Reader

/-!
# Requests

A request has a key, which names its slot in the cache, a policy, and parsers for its answers. Its
key begins with the address; what else tells two requests apart is put into the key.
-/
namespace TierCache

/-- Whether the parsed values of a request are kept, and whether they answer it. -/
inductive ParsedMode where
  | disabled
  | readWrite
  | writeOnly
  deriving DecidableEq, Repr

def ParsedMode.reads : ParsedMode → Bool
  | .readWrite => true
  | _ => false

def ParsedMode.writes : ParsedMode → Bool
  | .disabled => false
  | _ => true

structure Policy where
  timeToRefresh : Span := .zero
  timeToLive : Span := .zero
  parsed : ParsedMode := .disabled
  alwaysRetain : Bool := false
  family : Family := .general

namespace Policy

/-- Nothing is kept without a time to live. -/
def caches (p : Policy) : Bool := !p.timeToLive.isZero

def retention (p : Policy) : Retention := if p.alwaysRetain then .always else .normal

def placement (p : Policy) : Placement := .disk p.family p.retention

end Policy

structure Request (α ε : Type) where
  id : Nat
  key : String
  policy : Policy
  parser : Parser α
  errorReader : Option (Reader ε)

namespace Request

variable {α ε : Type}

def appendToKey (r : Request α ε) (suffix : String) : Request α ε :=
  { r with key := r.key ++ suffix }

/-- The body is read as text; broken parts all read alike. -/
def addBody (r : Request α ε) (body : List UInt8) : Request α ε :=
  { r with key := r.key ++ "#" ++ (Digest.ofKey (Utf8.decodeLossy body)).text }

def withSize (r : Request α ε) (width height : UInt32) : Request α ε :=
  { r with key := Key.withSize width height r.key }

end Request

end TierCache
