import TierCache.Network
import TierCache.Parsed
import TierCache.Request
import TierCache.Text.Occurs

/-!
# Dispatching requests

A request is answered from the cache where it may be, and otherwise, or besides, a fetch is issued
under a ticket. Whoever carries out the fetch completes the ticket with a response or a failure,
and the callback that the request came with is told. A ticket is completed at most once; a
cancelled ticket still fills the cache, but tells nobody.
-/
namespace TierCache

structure Ticket where
  id : Nat
  queryId : Nat
  key : String
  /-- The request was answered already, and the fetch renews that answer. -/
  refresh : Bool
  deriving DecidableEq, Repr

structure ResultSummary where
  code : Verdict
  httpStatus : Option Nat := none
  dataTimestamp : Option Instant := none
  dataIsRefreshing : Bool := false
  isRefresh : Bool := false
  errorBody : Option String := none
  deriving DecidableEq, Repr

namespace ResultSummary

def success (dataTimestamp : Instant) : ResultSummary where
  code := .success
  dataTimestamp := some dataTimestamp

def failure (code : Verdict) (httpStatus : Option Nat) : ResultSummary where
  code
  httpStatus

def isSuccess (i : ResultSummary) : Bool := i.code = .success

end ResultSummary

/-- What a callback is told. -/
structure Delivery (α ε : Type) where
  callback : Nat
  queryId : Nat
  info : ResultSummary
  data : Option α
  error : Option ε

inductive Submission where
  | served
  | refreshing (t : Ticket)
  | fetching (t : Ticket)
  deriving DecidableEq, Repr

def Submission.ticket? : Submission → Option Ticket
  | .served => none
  | .refreshing t | .fetching t => some t

/-- An answer from the cache. -/
structure Hit (α : Type) where
  value : α
  metadata : Metadata
  freshness : Freshness

/-- A fetch that has been issued and not completed. -/
structure Flight (α ε : Type) where
  key : String
  queryId : Nat
  policy : Policy
  callback : Nat
  parser : Parser α
  errorReader : Option (Reader ε)
  cancelled : Bool

structure Dispatcher (α ε : Type) where
  store : RecordCache
  parsed : Parsed α
  now : Instant
  flights : Table Nat (Flight α ε)
  nextTicket : Nat
  /-- The callbacks that no longer listen. -/
  dropped : List Nat

namespace Dispatcher

variable {α ε : Type}

def new (store : RecordCache) (parsedCapacity : Nat) (now : Instant) : Dispatcher α ε where
  store
  parsed := .empty parsedCapacity
  now
  flights := .empty
  nextTicket := 1
  dropped := []

def ofSettings (settings : Settings) (volume : Volume) (now : Instant) :
    Except Fault (Dispatcher α ε) := do
  let store ← RecordCache.ofSettings settings volume
  return new store settings.parsedEntries now

def flightCount (c : Dispatcher α ε) : Nat := c.flights.size

def setClock (c : Dispatcher α ε) (now : Instant) : Dispatcher α ε := { c with now }

def dropCallback (c : Dispatcher α ε) (callback : Nat) : Dispatcher α ε :=
  { c with dropped := callback :: c.dropped }

/-- Nobody is told through a dropped callback. -/
def tell (c : Dispatcher α ε) (d : Delivery α ε) : List (Delivery α ε) :=
  if c.dropped.contains d.callback then [] else [d]

/-- The parsed value of a request, while it may be served. -/
def parsedHit (c : Dispatcher α ε) (r : Request α ε) :
    Option (Hit α) × Dispatcher α ε :=
  if r.policy.parsed.reads then
    let (found, parsed) := Parsed.get c.parsed r.parser.accepts r.key
    let hit := found.map fun v => Hit.mk v.value v.metadata (.ofMetadata v.metadata c.now)
    (hit.filter fun h => h.freshness.mayServe, { c with parsed })
  else (none, c)

/-- The stored response of a request, parsed. One that the parser rejects is removed. -/
def storedHit (c : Dispatcher α ε) (r : Request α ε) :
    Except Fault (Option (Hit α) × Dispatcher α ε) := do
  let (found, store) ← c.store.find r.key r.policy.family
  let c := { c with store }
  match found with
  | none => return (none, c)
  | some v =>
    let metadata := v.value.metadata
    match r.parser.parse v.value.payload with
    | .error _ => return (none, { c with store := c.store.remove r.key })
    | .ok value =>
      let hit := Hit.mk value metadata (.ofMetadata metadata c.now)
      if r.policy.parsed.writes then
        let parsed ← Parsed.put c.parsed r.key value metadata
        return (some hit, { c with parsed })
      else return (some hit, c)

/-- What the cache has for a request, also if it is expired. -/
def fromCache (c : Dispatcher α ε) (r : Request α ε) :
    Except Fault (Option (Hit α) × Dispatcher α ε) :=
  match c.parsedHit r with
  | (some hit, c) => .ok (some hit, c)
  | (none, c) => c.storedHit r

/-- What may be served from the cache. -/
def lookup (c : Dispatcher α ε) (r : Request α ε) :
    Except Fault (Option (Hit α) × Dispatcher α ε) :=
  if r.policy.caches then do
    let (hit, c) ← c.fromCache r
    return (hit.filter fun h => h.freshness.mayServe, c)
  else .ok (none, c)

def issue (c : Dispatcher α ε) (r : Request α ε) (callback : Nat) (refresh : Bool) :
    Ticket × Dispatcher α ε :=
  let flight : Flight α ε :=
    { key := r.key
      queryId := r.id
      policy := r.policy
      callback
      parser := r.parser
      errorReader := r.errorReader
      cancelled := false }
  (⟨c.nextTicket, r.id, r.key, refresh⟩,
    { c with
      flights := c.flights.set c.nextTicket flight
      nextTicket := c.nextTicket + 1 })

def submit (c : Dispatcher α ε) (r : Request α ε) (callback : Nat) :
    Except Fault (Submission × List (Delivery α ε) × Dispatcher α ε) := do
  let (hit, c) ← c.lookup r
  match hit with
  | none =>
    let (t, c) := c.issue r callback false
    return (.fetching t, [], c)
  | some hit =>
    let fetch := hit.freshness.fetch
    let info := { ResultSummary.success hit.metadata.serverTimestamp with
      dataIsRefreshing := fetch = .background }
    let told := c.tell ⟨callback, r.id, info, some hit.value, none⟩
    match fetch with
    | .none => return (.served, told, c)
    | .background =>
      let (t, c) := c.issue r callback true
      return (.refreshing t, told, c)
    | .blocking =>
      let (t, c) := c.issue r callback false
      return (.fetching t, told, c)

/-- Answers from the cache alone, whatever the policy, and without regard to expiry. -/
def submitOffline (c : Dispatcher α ε) (r : Request α ε) (callback : Nat) :
    Except Fault (List (Delivery α ε) × Dispatcher α ε) := do
  let (hit, c) ← c.fromCache r
  match hit with
  | some hit =>
    let info := ResultSummary.success hit.metadata.serverTimestamp
    return (c.tell ⟨callback, r.id, info, some hit.value, none⟩, c)
  | none =>
    let info := ResultSummary.failure .serverError none
    return (c.tell ⟨callback, r.id, info, none, none⟩, c)

/-- What is told about the end of a flight. -/
def conclude (c : Dispatcher α ε) (f : Flight α ε) (info : ResultSummary) (data : Option α)
    (error : Option ε) : List (Delivery α ε) :=
  if f.cancelled then [] else c.tell ⟨f.callback, f.queryId, info, data, error⟩

/-- Tells about a value, if it has the type that the callback listens for. -/
def deliver (c : Dispatcher α ε) (f : Flight α ε) (info : ResultSummary) (value : α) :
    List (Delivery α ε) :=
  if f.parser.accepts value then c.conclude f info (some value) none else []

/-- The error value that a failure brings along, if the request can read it. -/
def errorOf (f : Flight α ε) (failure : FetchFailure) : Option ε :=
  match f.errorReader, failure.body with
  | some read, some body => if failure.bearsError then (read body).toOption else none
  | _, _ => none

def land (c : Dispatcher α ε) (id : Nat) : Dispatcher α ε :=
  { c with flights := c.flights.erase id }

/-- Completes a ticket with a failure. Tickets that are not in flight are ignored. -/
def fail (c : Dispatcher α ε) (t : Ticket) (failure : FetchFailure) :
    List (Delivery α ε) × Dispatcher α ε :=
  match c.flights.get? t.id with
  | none => ([], c)
  | some f =>
    let info := { ResultSummary.failure failure.code failure.status with
      isRefresh := t.refresh
      errorBody := failure.content?.map Utf8.decodeLossy }
    (c.conclude f info none (errorOf f failure), c.land t.id)

/-- Keeps a response and its value as the policy of the flight says. -/
def keep (c : Dispatcher α ε) (f : Flight α ε) (reply : Reply) (value : α)
    (metadata : Metadata) : Except Fault (Dispatcher α ε) := do
  let store ←
    if f.policy.caches then
      let record : Record := ⟨Key.normalize f.key, metadata, reply.headers, reply.body⟩
      let (shared, store) := c.store.share record
      store.put f.key shared f.policy.placement
    else .ok c.store
  let parsed ←
    if f.policy.parsed.writes then Parsed.put c.parsed f.key value metadata else .ok c.parsed
  return { c with store, parsed }

def metadataOf (c : Dispatcher α ε) (f : Flight α ε) (reply : Reply) : Metadata :=
  { Metadata.ofLifetime (reply.serverTimestamp c.now) c.now f.policy.timeToRefresh
      f.policy.timeToLive with
    alwaysRetain := f.policy.alwaysRetain }

/-- Completes a ticket with a reply. A response outside 200 to 299 is a failure, and so is one
that the parser of the request rejects. -/
def complete (c : Dispatcher α ε) (t : Ticket) (reply : Reply) :
    Except Fault (List (Delivery α ε) × Dispatcher α ε) :=
  if !reply.isSuccess then .ok (c.fail t (.http reply.status reply.body))
  else
    match c.flights.get? t.id with
    | none => .ok ([], c)
    | some f =>
      let c := c.land t.id
      match f.parser.parse reply.body with
      | .error _ =>
        let info := { ResultSummary.failure .serverError (some reply.status) with
          isRefresh := t.refresh }
        .ok (c.conclude f info none none, c)
      | .ok value => do
        let metadata := c.metadataOf f reply
        let c ← c.keep f reply value metadata
        let info := { ResultSummary.success metadata.serverTimestamp with
          httpStatus := some reply.status
          isRefresh := t.refresh }
        return (c.deliver f info value, c)

/-- Tells whether there was a flight to cancel. -/
def cancel (c : Dispatcher α ε) (t : Ticket) : Bool × Dispatcher α ε :=
  match c.flights.get? t.id with
  | none => (false, c)
  | some f => (true, { c with flights := c.flights.set t.id { f with cancelled := true } })

/-- Drops all flights, unheard, and empties all tiers. -/
def reset (c : Dispatcher α ε) : Dispatcher α ε :=
  { c with flights := .empty, parsed := c.parsed.clear.1, store := c.store.clear }

/-- Removes what is stored under the keys that a predicate accepts, and all parsed values. -/
def clearIf (c : Dispatcher α ε) (p : String → Bool) : Nat × Dispatcher α ε :=
  let (removed, store) := c.store.removeIf p
  (removed, { c with store, parsed := c.parsed.clear.1 })

def clearHolding (c : Dispatcher α ε) (criteria : List String) : Nat × Dispatcher α ε :=
  c.clearIf (holdsAny criteria)

end Dispatcher

end TierCache
