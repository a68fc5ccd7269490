import TierCache.Headers
import TierCache.MailDate
import TierCache.Problem
import TierCache.Span

/-!
# Answers of the network

A response with its status, header fields and body, or a failure of a known or unknown kind.
-/
namespace TierCache

inductive Verdict where
  | success
  | serverError
  | networkError
  | timeout
  | notAuthorized
  deriving DecidableEq, Repr

structure Reply where
  status : Nat
  headers : Headers
  body : List UInt8

namespace Reply

/-- The names of header fields are kept in lower case. -/
def addHeader (r : Reply) (name value : String) : Reply :=
  { r with headers := r.headers.insert (String.ofList (name.toList.map Char.toLower)) value }

def isSuccess (r : Reply) : Bool := 200 ≤ r.status && r.status < 300

/-- The date of the server, or the time of arrival if it sent no usable one. -/
def serverTimestamp (r : Reply) (received : Instant) : Instant :=
  match (r.headers.get? "date").bind fun date => MailDate.millis? date.toList with
  | some ms => if 0 ≤ ms then UInt64.ofNat ms.toNat else received
  | none => received

end Reply

inductive FetchFailure.Kind where
  | networkUnreachable
  | serverError
  | timeout
  | notAuthorized
  | unclassified
  deriving DecidableEq, Repr

structure FetchFailure where
  kind : FetchFailure.Kind
  status : Option Nat := none
  body : Option (List UInt8) := none
  deriving DecidableEq, Repr

namespace FetchFailure

def http (status : Nat) (body : List UInt8) : FetchFailure :=
  ⟨.unclassified, some status, some body⟩

def code (f : FetchFailure) : Verdict :=
  match f.kind with
  | .networkUnreachable => .networkError
  | .serverError => .serverError
  | .timeout => .timeout
  | .notAuthorized => .notAuthorized
  | .unclassified =>
    if f.status = some 401 ∨ f.status = some 403 then .notAuthorized else .serverError

/-- The body, if it has any bytes. -/
def content? (f : FetchFailure) : Option (List UInt8) := f.body.filter fun b => !b.isEmpty

/-- The body may tell what went wrong. -/
def bearsError (f : FetchFailure) : Bool :=
  f.code = .serverError && f.content?.isSome

def problem (f : FetchFailure) : Problem :=
  match f.code with
  | .networkError => .unreachable "network unreachable"
  | .timeout => .unreachable "timed out"
  | .notAuthorized => .unauthorized
  | _ =>
    match f.status with
    | some status =>
      if 400 ≤ status ∧ status ≤ 499 then .rejected status else .serverError (some status)
    | none => .serverError none

end FetchFailure

end TierCache
