import TierCache.Proofs.Dispatcher.Ticketing

/-!
# Completions that keep nothing

Failures, replies outside of 200 to 299, replies that the parser of the request rejects, replies to
requests that ask for nothing to be kept, and completions of tickets that are not pending leave all
tiers as they are. Of the first three kinds a callback is told without a value.
-/
namespace TierCache

theorem FetchFailure.code_ne_success (f : FetchFailure) : f.code ≠ .success := by
  rw [FetchFailure.code]
  cases f.kind with
  | unclassified =>
    simp only
    split <;> simp
  | _ => simp

/-- An error is read only from a body that a server has sent with its error. -/
theorem FetchFailure.bearsError_iff {f : FetchFailure} : f.bearsError = true ↔
    f.code = .serverError ∧ ∃ body, f.body = some body ∧ body ≠ [] := by
  cases hb : f.body with
  | none => simp [bearsError, content?, hb]
  | some body => simp [bearsError, content?, hb]

/-- What a callback is told, apart from who it is. -/
def Delivery.news {α ε : Type} (d : Delivery α ε) : Dispatcher.News α ε := ⟨d.info, d.data, d.error⟩

namespace Dispatcher

variable {α ε : Type} {c c' c₀ : Dispatcher α ε} {past since : List (Moment α ε)}
variable {t u : Ticket} {r : Request α ε} {callback : Nat} {cancelled : Bool} {x : Call α ε}
variable {reply : Reply}

namespace Call

/-- The failure that a completion is taken for. -/
def failure? : Call α ε → Option FetchFailure
  | .fail _ failure => some failure
  | .complete _ reply => if reply.isSuccess then none else some (.http reply.status reply.body)
  | _ => none

/-- The completion brings a value for the request. -/
def Accepted (x : Call α ε) (r : Request α ε) : Prop :=
  ∃ t reply value, x = .complete t reply ∧ reply.isSuccess = true ∧
    r.parser.parse reply.body = .ok value

end Call

/-- A completion of the ticket that must not fill the cache. -/
inductive Unkept (past : List (Moment α ε)) (t : Ticket) : Call α ε → Prop where
  | unasked {x : Call α ε} (hx : x.completed? = some t) (hn : ∀ u, Pending past u → u.id ≠ t.id) :
      Unkept past t x
  | failed (failure : FetchFailure) : Unkept past t (.fail t failure)
  | refused {reply : Reply} (hs : reply.isSuccess = false) : Unkept past t (.complete t reply)
  | rejected {reply : Reply} {since : List (Moment α ε)} {u : Ticket} {r : Request α ε}
      {callback : Nat} {problem : Problem} (hw : Waits past since u r callback) (hid : u.id = t.id)
      (hp : r.parser.parse reply.body = .error problem) : Unkept past t (.complete t reply)
  | unwanted {reply : Reply} {since : List (Moment α ε)} {u : Ticket} {r : Request α ε}
      {callback : Nat} (hw : Waits past since u r callback) (hid : u.id = t.id)
      (hlive : r.policy.timeToLive.isZero = true) (hmode : r.policy.parsed = .disabled) :
      Unkept past t (.complete t reply)

/-- What is told of a completion that brings the request no value. -/
structure Valueless (r : Request α ε) (x : Call α ε) (n : News α ε) : Prop where
  data : n.data = none
  code : n.info.code ≠ .success
  error : ∀ e, n.error = some e → ∃ failure body read, x.failure? = some failure ∧
    failure.code = .serverError ∧ failure.body = some body ∧ body ≠ [] ∧
    r.errorReader = some read ∧ read body = .ok e

theorem valueless_failureNews {failure : FetchFailure} (hx : x.failure? = some failure) :
    Valueless r x (failureNews (flightOf r callback cancelled) t failure) where
  data := rfl
  code := failure.code_ne_success
  error := by
    intro e he
    change errorOf (flightOf r callback cancelled) failure = some e at he
    unfold errorOf at he
    split at he
    · rename_i read body hread hbody
      split at he
      · rename_i hbears
        obtain ⟨hcode, body', hbody', hne⟩ := FetchFailure.bearsError_iff.mp hbears
        obtain rfl := Option.some.inj (hbody.symm.trans hbody')
        exact ⟨failure, body, read, hx, hcode, hbody, hne, hread, toOption_eq_some_iff.mp he⟩
      · cases he
    · cases he

/-- A reply that brings nothing to keep is settled without a trace. -/
theorem settle_unkept (c : Dispatcher α ε) (callback : Nat) (cancelled : Bool) (t : Ticket)
    (h : reply.isSuccess = true → ∀ value, r.parser.parse reply.body = .ok value →
      r.policy.caches = false ∧ r.policy.parsed.writes = false) :
    ∃ n, c.settle (flightOf r callback cancelled) t reply = .ok (n, c) ∧
      (¬ (Call.complete t reply).Accepted r → Valueless r (.complete t reply) n) := by
  rw [settle]
  by_cases hs : reply.isSuccess = true
  · simp only [hs, Bool.not_true, Bool.false_eq_true, if_false]
    cases hp : r.parser.parse reply.body with
    | error problem =>
      simp only [flightOf, hp]
      exact ⟨_, rfl, fun _ => ⟨rfl, by simp [ResultSummary.failure], by simp⟩⟩
    | ok value =>
      obtain ⟨hcaches, hwrites⟩ := h hs value hp
      simp only [flightOf, hp, keep, hcaches, hwrites, Bool.false_eq_true, if_false]
      exact ⟨_, rfl, fun hnot => absurd ⟨t, reply, value, rfl, hs, hp⟩ hnot⟩
  · rw [if_pos (by simpa using hs)]
    exact ⟨_, rfl, fun _ => valueless_failureNews (by simp [Call.failure?, hs])⟩

theorem report_unasked (hx : x.completed? = some t) (hf : c.flights.get? t.id = none) :
    c.report x = .ok (.nothing, [], c) := by
  cases x with
  | complete u reply =>
    cases hx
    simp only [report, complete_eq, hf]
    rfl
  | fail u failure =>
    cases hx
    simp only [report, fail_eq, hf]
  | _ => cases hx

theorem land_of_none (hf : c.flights.get? t.id = none) : c.land t.id = c := by
  have hflights : c.flights.erase t.id = c.flights := Table.ext (Table.erase_of_none hf)
  rw [land, hflights]

theorem report_failed (failure : FetchFailure)
    (hf : c.flights.get? t.id = some (flightOf r callback cancelled)) :
    ∃ n, c.report (.fail t failure) =
        .ok (.nothing, c.announce (flightOf r callback cancelled) n, c.land t.id) ∧
      Valueless r (.fail t failure) n := by
  refine ⟨failureNews (flightOf r callback cancelled) t failure, ?_, valueless_failureNews rfl⟩
  simp only [report, fail_eq, hf]

theorem report_replied (hf : c.flights.get? t.id = some (flightOf r callback cancelled))
    (h : reply.isSuccess = true → ∀ value, r.parser.parse reply.body = .ok value →
      r.policy.caches = false ∧ r.policy.parsed.writes = false) :
    ∃ n, c.report (.complete t reply) =
        .ok (.nothing, c.announce (flightOf r callback cancelled) n, c.land t.id) ∧
      (¬ (Call.complete t reply).Accepted r → Valueless r (.complete t reply) n) := by
  obtain ⟨n, hs, hn⟩ := settle_unkept (c.land t.id) callback cancelled t h
  refine ⟨n, ?_, hn⟩
  simp only [report, complete_eq, hf, hs]
  rfl

/-- Whatever waits under one number asks for the same. -/
theorem Continues.same_of_waits (he : c₀.flights = .empty) (h : Continues c₀ past c)
    (hw : Waits past since u r callback) {since' : List (Moment α ε)} {u' : Ticket}
    {r' : Request α ε} {callback' : Nat} (hw' : Waits past since' u' r' callback')
    (hid : u'.id = u.id) : r'.policy = r.policy ∧ r'.parser = r.parser := by
  have hflight := h.flight_of_waits he hw
  rw [← hid, h.flight_of_waits he hw', Option.some.injEq] at hflight
  exact ⟨congrArg Flight.policy hflight, congrArg Flight.parser hflight⟩

/-- The flight of the ticket ends, and nothing else changes. -/
theorem report_unkept (he : c₀.flights = .empty) (h : Continues c₀ past c)
    (hw : Waits past since u r callback) (hid : u.id = t.id) (hx : Unkept past t x) :
    ∃ n, c.report x = .ok (.nothing,
        c.announce (flightOf r callback (cancelledIn since t.id)) n, c.land t.id) ∧
      (¬ x.Accepted r → Valueless r x n) := by
  have hf : c.flights.get? t.id = some (flightOf r callback (cancelledIn since t.id)) :=
    hid ▸ h.flight_of_waits he hw
  cases hx with
  | unasked _ hn => exact absurd hid (hn u ⟨since, r, callback, hw⟩)
  | failed failure =>
    obtain ⟨n, hreport, hn⟩ := report_failed failure hf
    exact ⟨n, hreport, fun _ => hn⟩
  | refused hs => exact report_replied hf fun hsuccess => by simp [hs] at hsuccess
  | rejected hw' hid' hp =>
    obtain ⟨-, hparser⟩ := h.same_of_waits he hw hw' (hid'.trans hid.symm)
    rw [hparser] at hp
    exact report_replied hf fun _ value hvalue => by simp [hp] at hvalue
  | unwanted hw' hid' hlive hmode =>
    obtain ⟨hpolicy, -⟩ := h.same_of_waits he hw hw' (hid'.trans hid.symm)
    rw [hpolicy] at hlive hmode
    exact report_replied hf fun _ _ _ => ⟨by simp [Policy.caches, hlive], by rw [hmode]; rfl⟩

/-- What is told of a completion that keeps nothing. -/
structure Told (past : List (Moment α ε)) (t : Ticket) (x : Call α ε)
    (told : List (Delivery α ε)) : Prop where
  once : told.length ≤ 1
  unasked : (∀ u, Pending past u → u.id ≠ t.id) → told = []
  asked : ∀ since u r callback, Waits past since u r callback → u.id = t.id → ∀ d ∈ told,
    d.callback = callback ∧ d.queryId = r.id ∧ (¬ x.Accepted r → Valueless r x d.news)

/-- A completion that must not fill the cache comes to an end and changes nothing but the flight of
its ticket, if there is one: all tiers, their order and their counts are as before. -/
theorem completion_unkept {store : RecordCache} {entries : Nat} {now : Instant}
    (h : Continues (.new store entries now) past c) (hx : Unkept past t x) :
    ∃ told, c.report x = .ok (.nothing, told, c.land t.id) ∧ Told past t x told ∧
      ((∀ u, Pending past u → u.id ≠ t.id) → c.land t.id = c) := by
  cases hf : c.flights.get? t.id with
  | none =>
    have hcompleted : x.completed? = some t := by
      cases hx with
      | unasked hx => exact hx
      | _ => rfl
    refine ⟨[], ?_, ⟨by simp, fun _ => rfl, by simp⟩, fun _ => land_of_none hf⟩
    rw [report_unasked hcompleted hf, land_of_none hf]
  | some f =>
    obtain ⟨since, u, r, callback, hw, hid, -⟩ := (h.flights_iff rfl _ _).mp hf
    obtain ⟨n, hreport, -⟩ := report_unkept rfl h hw hid hx
    have hpending : ¬ ∀ u, Pending past u → u.id ≠ t.id :=
      fun hn => hn u ⟨since, r, callback, hw⟩ hid
    refine ⟨_, hreport, ⟨length_announce_le _ _ _, fun hn => absurd hn hpending, ?_⟩,
      fun hn => absurd hn hpending⟩
    intro since' u' r' callback' hw' hid' d hd
    obtain ⟨n', hreport', hnews⟩ := report_unkept rfl h hw' hid' hx
    have htold := Except.ok.inj (hreport.symm.trans hreport')
    simp only [Prod.mk.injEq, true_and, and_true] at htold
    rw [htold, announce_eq] at hd
    split at hd
    · cases hd
    · rw [List.mem_singleton.mp hd]
      exact ⟨rfl, rfl, hnews⟩

/-- A note of a service that may say why it failed. -/
def explainedRequest : Request String String := { noteRequest with errorReader := some Reader.text }

def brokenReply : Reply where
  status := 500
  headers := .empty
  body := [110, 111]

theorem completion_unkept_note : ∃ (store : RecordCache) (past : List (Moment String String))
    (c : Dispatcher String String), Continues (.new store 4 1000) past c ∧ c.flightCount = 1 ∧
    ∃ told, c.report (.complete ⟨1, 7, "a", false⟩ brokenReply) = .ok (.nothing, told, c.land 1) ∧
      told.map (fun d => (d.data, d.info.code, d.error)) = [(none, .serverError, some "no")] := by
  obtain ⟨c₀, past, c, hstart, hc, hcheck⟩ := continues_of_trial noteSetup Volume.empty 1000
    [.submit explainedRequest 0]
    (fun _ c => c.flightCount = 1 ∧
      ((c.report (.complete ⟨1, 7, "a", false⟩ brokenReply)).toOption.any fun out =>
        out.2.1.map (fun d => (d.data, d.info.code, d.error)) = [(none, .serverError, some "no")]))
    (by simp) (by decide +kernel)
  obtain ⟨store, -, rfl⟩ := start_ok hstart
  obtain ⟨hcount, hreport⟩ := of_decide_eq_true hcheck
  have hx : Unkept past ⟨1, 7, "a", false⟩ (.complete ⟨1, 7, "a", false⟩ brokenReply) :=
    .refused rfl
  obtain ⟨told, htold, -, -⟩ := completion_unkept hc hx
  rw [htold] at hreport
  exact ⟨store, past, c, hc, hcount, told, htold, of_decide_eq_true hreport⟩

end Dispatcher

end TierCache
