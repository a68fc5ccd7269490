import TierCache.Proofs.Dispatcher.Serving

/-!
# What a call reports

A call answers its caller, and may tell callbacks something. Look-ups and completions read the tiers
and the clock alone: which flights there are and who listens makes no difference to what they find
or keep.
-/
namespace TierCache.Dispatcher

variable {α ε : Type} {c c' d : Dispatcher α ε} {r : Request α ε}

/-- What a call answers to its caller. -/
inductive Returned (α : Type) where
  | nothing
  | submission (s : Submission)
  | hit (found : Option (Hit α))
  | truth (b : Bool)
  | count (n : Nat)

/-- A call with its answer, what callbacks are told, and the dispatcher after it. -/
def report (c : Dispatcher α ε) :
    Call α ε → Except Fault (Returned α × List (Delivery α ε) × Dispatcher α ε)
  | .submit r callback => do
    let (s, told, c) ← c.submit r callback
    return (.submission s, told, c)
  | .submitOffline r callback => do
    let (told, c) ← c.submitOffline r callback
    return (.nothing, told, c)
  | .lookup r => do
    let (hit, c) ← c.lookup r
    return (.hit hit, [], c)
  | .complete t reply => do
    let (told, c) ← c.complete t reply
    return (.nothing, told, c)
  | .fail t failure => .ok (.nothing, c.fail t failure)
  | .cancel t => .ok (.truth (c.cancel t).1, [], (c.cancel t).2)
  | .clearIf p => .ok (.count (c.clearIf p).1, [], (c.clearIf p).2)
  | .sweep => .ok (.count c.store.sweep.1, [], c.withStore (·.sweep.2))
  | x => do return (.nothing, [], ← c.call x)

/-- A report ends in the dispatcher that the call leads to. -/
theorem call_eq_report (c : Dispatcher α ε) (x : Call α ε) :
    c.call x = (c.report x).map fun out => out.2.2 := by
  cases x with
  | submit r callback => simp only [call, report]; cases c.submit r callback <;> rfl
  | submitOffline r callback => simp only [call, report]; cases c.submitOffline r callback <;> rfl
  | lookup r => simp only [call, report]; cases c.lookup r <;> rfl
  | complete t reply => simp only [call, report]; cases c.complete t reply <;> rfl
  | reopen p now =>
    simp only [report]
    cases c.call (.reopen p now) <;> rfl
  | _ => rfl

theorem report_of_call {x : Call α ε} (h : c.call x = .ok c') :
    ∃ returned told, c.report x = .ok (returned, told, c') := by
  rw [call_eq_report] at h
  obtain ⟨⟨returned, told, c₁⟩, hr, rfl⟩ := map_eq_ok_iff.mp h
  exact ⟨returned, told, hr⟩

namespace Moment

def returned (m : Moment α ε) : Returned α :=
  match m.before.report m.call with
  | .ok out => out.1
  | .error _ => .nothing

/-- What callbacks were told at the moment. -/
def told (m : Moment α ε) : List (Delivery α ε) :=
  match m.before.report m.call with
  | .ok out => out.2.1
  | .error _ => []

/-- The ticket that was issued at the moment. -/
def issued? (m : Moment α ε) : Option Ticket :=
  match m.returned with
  | .submission s => s.ticket?
  | _ => none

variable {x : Call α ε} {returned : Returned α} {told : List (Delivery α ε)}

theorem returned_eq (h : c.report x = .ok (returned, told, c')) :
    (Moment.mk c x).returned = returned := by
  rw [Moment.returned, h]

theorem told_eq (h : c.report x = .ok (returned, told, c')) : (Moment.mk c x).told = told := by
  rw [Moment.told, h]

end Moment

/-- The tiers and the clock of one dispatcher, with the flights and the callbacks of another. -/
def handling (c d : Dispatcher α ε) : Dispatcher α ε :=
  { c with flights := d.flights, nextTicket := d.nextTicket, dropped := d.dropped }

@[simp] theorem handling_self (c : Dispatcher α ε) : c.handling c = c := rfl

@[simp] theorem store_handling (c d : Dispatcher α ε) : (c.handling d).store = c.store := rfl

@[simp] theorem parsed_handling (c d : Dispatcher α ε) : (c.handling d).parsed = c.parsed := rfl

theorem parsedHit_handling (c d : Dispatcher α ε) (r : Request α ε) :
    (c.handling d).parsedHit r = ((c.parsedHit r).1, (c.parsedHit r).2.handling d) := by
  simp only [parsedHit]
  split
  · rfl
  · rfl

theorem storedHit_handling (c d : Dispatcher α ε) (r : Request α ε) :
    (c.handling d).storedHit r = (c.storedHit r).map fun out => (out.1, out.2.handling d) := by
  simp only [storedHit, store_handling]
  cases c.store.find r.key r.policy.family with
  | error fault => rfl
  | ok out =>
    obtain ⟨found, store⟩ := out
    cases found with
    | none => rfl
    | some v =>
      simp only [bind, Except.bind]
      cases r.parser.parse v.value.payload with
      | error problem => rfl
      | ok value =>
        simp only [parsed_handling]
        split
        · cases Parsed.put c.parsed r.key value v.value.metadata <;> rfl
        · rfl

theorem fromCache_handling (c d : Dispatcher α ε) (r : Request α ε) :
    (c.handling d).fromCache r = (c.fromCache r).map fun out => (out.1, out.2.handling d) := by
  simp only [fromCache, parsedHit_handling]
  cases hp : c.parsedHit r with
  | mk hit c₁ =>
    cases hit with
    | none => exact storedHit_handling c₁ d r
    | some x => rfl

/-- A look-up finds the same whatever is in flight. -/
theorem lookup_handling (c d : Dispatcher α ε) (r : Request α ε) :
    (c.handling d).lookup r = (c.lookup r).map fun out => (out.1, out.2.handling d) := by
  simp only [lookup, fromCache_handling]
  split
  · cases c.fromCache r <;> rfl
  · rfl

/-- A reply is kept alike whatever is in flight. -/
theorem keep_handling (c d : Dispatcher α ε) (f : Flight α ε) (reply : Reply) (value : α)
    (metadata : Metadata) : (c.handling d).keep f reply value metadata =
      (c.keep f reply value metadata).map fun c' => c'.handling d := by
  simp only [keep, store_handling, parsed_handling]
  split
  · cases (c.store.share ⟨Key.normalize f.key, metadata, reply.headers, reply.body⟩).2.put f.key
      (c.store.share ⟨Key.normalize f.key, metadata, reply.headers, reply.body⟩).1
      f.policy.placement with
    | error fault => rfl
    | ok store =>
      simp only [bind, Except.bind]
      split
      · cases Parsed.put c.parsed f.key value metadata <;> rfl
      · rfl
  · simp only [bind, Except.bind]
    split
    · cases Parsed.put c.parsed f.key value metadata <;> rfl
    · rfl

/-- Taken with its own flights, a dispatcher is itself: so what does not look at the flights
leaves them as they are. -/
theorem handling_of_map {β : Type} {x : Except Fault (β × Dispatcher α ε)} {b : β}
    (hx : x = x.map fun out => (out.1, out.2.handling c)) (h : x = .ok (b, c')) :
    c'.handling c = c' := by
  rw [h] at hx
  exact (congrArg Prod.snd (Except.ok.inj hx)).symm

theorem handling_of_fromCache {hit : Option (Hit α)} (h : c.fromCache r = .ok (hit, c')) :
    c'.handling c = c' :=
  handling_of_map (fromCache_handling c c r) h

theorem handling_of_lookup {hit : Option (Hit α)} (h : c.lookup r = .ok (hit, c')) :
    c'.handling c = c' :=
  handling_of_map (lookup_handling c c r) h

theorem handling_of_keep {f : Flight α ε} {reply : Reply} {value : α} {metadata : Metadata}
    (h : c.keep f reply value metadata = .ok c') : c'.handling c = c' := by
  have hk := keep_handling c c f reply value metadata
  rw [handling_self, h] at hk
  exact (Except.ok.inj hk).symm

/-- What there is to tell at the end of a flight. -/
structure News (α ε : Type) where
  info : ResultSummary
  data : Option α
  error : Option ε

def announce (c : Dispatcher α ε) (f : Flight α ε) (n : News α ε) : List (Delivery α ε) :=
  c.conclude f n.info n.data n.error

def failureNews (f : Flight α ε) (t : Ticket) (failure : FetchFailure) : News α ε where
  info := { ResultSummary.failure failure.code failure.status with
    isRefresh := t.refresh
    errorBody := failure.content?.map Utf8.decodeLossy }
  data := none
  error := errorOf f failure

/-- What comes of a reply for a flight that has landed, apart from who is told. -/
def settle (c : Dispatcher α ε) (f : Flight α ε) (t : Ticket) (reply : Reply) :
    Except Fault (News α ε × Dispatcher α ε) :=
  if !reply.isSuccess then .ok (failureNews f t (.http reply.status reply.body), c)
  else
    match f.parser.parse reply.body with
    | .error _ =>
      .ok (⟨{ ResultSummary.failure .serverError (some reply.status) with isRefresh := t.refresh },
        none, none⟩, c)
    | .ok value => do
      let metadata := c.metadataOf f reply
      let c ← c.keep f reply value metadata
      return (⟨{ ResultSummary.success metadata.serverTimestamp with
        httpStatus := some reply.status
        isRefresh := t.refresh }, some value, none⟩, c)

/-- The value of a reply has the type that its callback listens for. -/
theorem deliver_eq {f : Flight α ε} {body : List UInt8} {value : α} (info : ResultSummary)
    (h : f.parser.parse body = .ok value) :
    c.deliver f info value = c.announce f ⟨info, some value, none⟩ :=
  if_pos (f.parser.accepts_parse h)

theorem fail_eq (c : Dispatcher α ε) (t : Ticket) (failure : FetchFailure) :
    c.fail t failure = match c.flights.get? t.id with
      | none => ([], c)
      | some f => (c.announce f (failureNews f t failure), c.land t.id) := rfl

/-- A completion settles the flight once it has landed, and announces the news. -/
theorem complete_eq (c : Dispatcher α ε) (t : Ticket) (reply : Reply) :
    c.complete t reply = match c.flights.get? t.id with
      | none => .ok ([], c)
      | some f => ((c.land t.id).settle f t reply).map fun out => (c.announce f out.1, out.2) := by
  rw [complete, fail_eq]
  cases hf : c.flights.get? t.id with
  | none => simp only [ite_self]
  | some f =>
    simp only [settle]
    split
    · rfl
    · cases hp : f.parser.parse reply.body with
      | error problem => rfl
      | ok value =>
        simp only [deliver_eq _ hp]
        cases hk : (c.land t.id).keep f reply value ((c.land t.id).metadataOf f reply) with
        | error fault => rfl
        | ok c' =>
          have hd : c'.dropped = c.dropped :=
            (congrArg Dispatcher.dropped (handling_of_keep hk)).symm
          simp only [bind, Except.bind, pure, Except.pure, Except.map, announce, conclude, tell, hd]

theorem settle_handling (c d : Dispatcher α ε) (f : Flight α ε) (t : Ticket) (reply : Reply) :
    (c.handling d).settle f t reply =
      (c.settle f t reply).map fun out => (out.1, out.2.handling d) := by
  simp only [settle]
  split
  · rfl
  · cases f.parser.parse reply.body with
    | error problem => rfl
    | ok value =>
      have hm : (c.handling d).metadataOf f reply = c.metadataOf f reply := rfl
      simp only [hm, keep_handling]
      cases c.keep f reply value (c.metadataOf f reply) <;> rfl

/-- A completion finds no flight, or settles the one it finds. -/
theorem complete_ok {t : Ticket} {reply : Reply} {told : List (Delivery α ε)}
    (hc : c.complete t reply = .ok (told, c')) :
    c.flights.get? t.id = none ∧ told = [] ∧ c' = c ∨
      ∃ f news, c.flights.get? t.id = some f ∧ (c.land t.id).settle f t reply = .ok (news, c') ∧
        told = c.announce f news ∧ c'.handling (c.land t.id) = c' := by
  rw [complete_eq] at hc
  cases hf : c.flights.get? t.id with
  | none =>
    rw [hf] at hc
    cases hc
    exact .inl ⟨rfl, rfl, rfl⟩
  | some f =>
    rw [hf] at hc
    obtain ⟨⟨news, c₁⟩, hs, he⟩ := map_eq_ok_iff.mp hc
    cases he
    exact .inr ⟨f, news, rfl, hs, rfl,
      handling_of_map (settle_handling (c.land t.id) (c.land t.id) f t reply) hs⟩

end TierCache.Dispatcher
