import TierCache.Text.Utf8

/-!
# Errors

What can go wrong on the network, on disk and between bytes and values, and the text of each
cause.
-/
namespace TierCache

/-- Why bytes are no value of the wanted type. -/
inductive Misreading where
  | shortRecord
  | headerPastEnd (declared available : Nat)
  | headerTooLarge
  | malformed
  | notUtf8 (defect : Utf8.Defect)
  | notInteger (quoted : String)
  | other (text : String)
  deriving DecidableEq, Repr

def Misreading.message : Misreading → String
  | .shortRecord => "record shorter than its length prefix"
  | .headerPastEnd declared available =>
    "header length " ++ toString declared ++ " exceeds record size " ++ toString available
  | .headerTooLarge => "record header too large"
  | .malformed => "malformed document"
  | .notUtf8 defect => defect.message
  | .notInteger quoted => "not an integer: " ++ quoted
  | .other text => text

inductive Problem where
  | unreachable (cause : String)
  | rejected (status : Nat)
  | serverError (status : Option Nat)
  | unauthorized
  | decode (cause : Misreading)
  | noStorage (cause : String)
  | storage (cause : String)
  deriving DecidableEq, Repr

namespace Problem

def message : Problem → String
  | .unreachable cause => "Network unreachable: " ++ cause
  | .rejected status =>
    "Request rejected by server (status " ++ toString status ++ ")"
  | .serverError (some status) => "Server error (status Some(" ++ toString status ++ "))"
  | .serverError none => "Server error (status None)"
  | .unauthorized => "Not authorized"
  | .decode cause => "Decode failure: " ++ cause.message
  | .noStorage cause => "Storage unavailable: " ++ cause
  | .storage cause => "Storage I/O error: " ++ cause

/-- Errors of the cache itself, which no server caused. -/
def isLocal : Problem → Bool
  | .decode _ | .noStorage _ | .storage _ => true
  | _ => false

end Problem

end TierCache
