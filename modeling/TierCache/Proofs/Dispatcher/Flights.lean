import TierCache.Proofs.Dispatcher.Report

/-!
# Flights from call to call

A submission may begin a flight, under a number that was not used before. Other calls begin none:
they end some, cancel some, and leave the rest as they are.
-/
namespace TierCache.Dispatcher

variable {α ε : Type} {c c' : Dispatcher α ε} {t : Ticket} {r : Request α ε} {callback : Nat}

namespace Call

def completed? : Call α ε → Option Ticket
  | .complete t _ | .fail t _ => some t
  | _ => none

/-- The call completes a ticket with the number. -/
def completes (x : Call α ε) (id : Nat) : Bool := x.completed?.any fun t => t.id = id

/-- No ticket with the number is pending after the call. -/
def ends (x : Call α ε) (id : Nat) : Bool :=
  match x with
  | .reset => true
  | x => x.completes id

def cancels (x : Call α ε) (id : Nat) : Bool :=
  match x with
  | .cancel t => t.id = id
  | _ => false

end Call

/-- Only submissions issue tickets. -/
theorem unissued {x : Call α ε} (c : Dispatcher α ε) (hx : ∀ r callback, x ≠ .submit r callback) :
    (Moment.mk c x).issued? = none := by
  cases x with
  | submit r callback => exact absurd rfl (hx r callback)
  | submitOffline r callback =>
    simp only [Moment.issued?, Moment.returned, report]
    cases c.submitOffline r callback <;> rfl
  | lookup r =>
    simp only [Moment.issued?, Moment.returned, report]
    cases c.lookup r <;> rfl
  | complete t reply =>
    simp only [Moment.issued?, Moment.returned, report]
    cases c.complete t reply <;> rfl
  | reopen p now =>
    simp only [Moment.issued?, Moment.returned, report]
    cases c.call (.reopen p now) <;> rfl
  | _ => rfl

/-- The flight that is begun for a submission. -/
def flightOf (r : Request α ε) (callback : Nat) (cancelled : Bool) : Flight α ε where
  key := r.key
  queryId := r.id
  policy := r.policy
  callback
  parser := r.parser
  errorReader := r.errorReader
  cancelled

/-- All that a call does to the flights: one may begin, under the next number, or else some end and
some are cancelled. -/
structure Handles (c : Dispatcher α ε) (x : Call α ε) (c' : Dispatcher α ε) : Prop where
  begun : ∀ t, (Moment.mk c x).issued? = some t → t.id = c.nextTicket ∧
    c'.nextTicket = c.nextTicket + 1 ∧ ∃ r callback, x = .submit r callback ∧
      c'.flights = c.flights.set c.nextTicket (flightOf r callback false)
  others : (Moment.mk c x).issued? = none → c'.nextTicket = c.nextTicket ∧
    ∀ id, c'.flights.get? id = if x.ends id then none else
      (c.flights.get? id).map fun f => { f with cancelled := f.cancelled || x.cancels id }

theorem Handles.of_unissued {x : Call α ε} (hi : (Moment.mk c x).issued? = none)
    (hn : c'.nextTicket = c.nextTicket)
    (h : ∀ id, c'.flights.get? id = if x.ends id then none else
      (c.flights.get? id).map fun f => { f with cancelled := f.cancelled || x.cancels id }) :
    Handles c x c' where
  begun := fun t ht => by
    rw [hi] at ht
    cases ht
  others := fun _ => ⟨hn, h⟩

/-- A call that leaves the flights alone. -/
theorem Handles.of_same {x : Call α ε} (hi : (Moment.mk c x).issued? = none)
    (hh : c'.handling c = c') (he : ∀ id, x.ends id = false) (hc : ∀ id, x.cancels id = false) :
    Handles c x c' := by
  have hf : c'.flights = c.flights := (congrArg Dispatcher.flights hh).symm
  refine .of_unissued hi (congrArg Dispatcher.nextTicket hh).symm fun id => ?_
  simp only [he id, hc id, hf, Bool.or_false, Bool.false_eq_true, if_false, Option.map_id']

/-- Once a ticket of theirs is completed, flights are over. -/
theorem Handles.of_land {x : Call α ε} (hx : x.completed? = some t)
    (hi : (Moment.mk c x).issued? = none)
    (hf : ∀ id, c'.flights.get? id = (c.land t.id).flights.get? id)
    (hn : c'.nextTicket = c.nextTicket) : Handles c x c' := by
  refine .of_unissued hi hn fun id => ?_
  have he : x.ends id = decide (t.id = id) := by
    cases x with
    | reset => cases hx
    | _ => simp [Call.ends, Call.completes, hx]
  have hcancels : x.cancels id = false := by
    cases x with
    | cancel t => cases hx
    | _ => rfl
  simp only [he, hcancels, hf, land, Table.get?_erase, Bool.or_false, decide_eq_true_eq,
    Option.map_id', eq_comm (a := id)]

/-- Without a flight there is nothing to land. -/
theorem get?_land_of_none (hf : c.flights.get? t.id = none) (id : Nat) :
    c.flights.get? id = (c.land t.id).flights.get? id := by
  rw [land, Table.get?_erase]
  split
  · rename_i he
    rw [he, hf]
  · rfl

theorem handles_submit {s : Submission} {told : List (Delivery α ε)}
    (hc : c.submit r callback = .ok (s, told, c')) : Handles c (.submit r callback) c' := by
  have hr : c.report (.submit r callback) = .ok (.submission s, told, c') := by
    simp only [report, hc]
    rfl
  have hissued : (Moment.mk c (.submit r callback)).issued? = s.ticket? := by
    rw [Moment.issued?, Moment.returned_eq hr]
  obtain ⟨hit, c₁, hl, hcases⟩ := submit_cases hc
  have hh := handling_of_lookup hl
  have hflights : c₁.flights = c.flights := (congrArg Dispatcher.flights hh).symm
  have hnext : c₁.nextTicket = c.nextTicket := (congrArg Dispatcher.nextTicket hh).symm
  have begins : ∀ refresh, s.ticket? = some (c₁.issue r callback refresh).1 →
      Handles c (.submit r callback) (c₁.issue r callback refresh).2 := by
    intro refresh hs
    refine ⟨fun t ht => ?_, fun hn => ?_⟩
    · rw [hissued, hs] at ht
      cases ht
      refine ⟨hnext, congrArg Nat.succ hnext, r, callback, rfl, ?_⟩
      rw [← hflights, ← hnext]
      rfl
    · rw [hissued, hs] at hn
      cases hn
  rcases hcases with ⟨-, rfl, -, rfl⟩ | ⟨x, -, -, ⟨-, rfl, rfl⟩ | ⟨-, rfl, rfl⟩ | ⟨-, rfl, rfl⟩⟩
  · exact begins false rfl
  · exact .of_same hissued hh (fun _ => rfl) fun _ => rfl
  · exact begins true rfl
  · exact begins false rfl

theorem handles_complete {reply : Reply} {told : List (Delivery α ε)}
    (hc : c.complete t reply = .ok (told, c')) : Handles c (.complete t reply) c' := by
  have hi := unissued (x := .complete t reply) c fun _ _ hx => by cases hx
  rcases complete_ok hc with ⟨hf, -, rfl⟩ | ⟨f, news, -, -, -, hh⟩
  · exact .of_land rfl hi (get?_land_of_none hf) rfl
  · have hflights : c'.flights = (c.land t.id).flights := (congrArg Dispatcher.flights hh).symm
    exact .of_land rfl hi (fun id => by rw [hflights]) (congrArg Dispatcher.nextTicket hh).symm

theorem handles_fail (c : Dispatcher α ε) (t : Ticket) (failure : FetchFailure) :
    Handles c (.fail t failure) (c.fail t failure).2 := by
  rw [fail_eq]
  cases hf : c.flights.get? t.id with
  | none => exact .of_land rfl rfl (get?_land_of_none hf) rfl
  | some f => exact .of_land rfl rfl (fun _ => rfl) rfl

theorem handles_cancel (c : Dispatcher α ε) (t : Ticket) :
    Handles c (.cancel t) (c.cancel t).2 := by
  rw [cancel]
  cases hf : c.flights.get? t.id with
  | none =>
    refine .of_unissued rfl rfl fun id => ?_
    by_cases he : t.id = id
    · simp [Call.ends, Call.completes, Call.completed?, ← he, hf]
    · simp [Call.ends, Call.completes, Call.completed?, Call.cancels, he]
  | some f =>
    refine .of_unissued rfl rfl fun id => ?_
    by_cases he : t.id = id
    · simp [Call.ends, Call.completes, Call.completed?, Call.cancels, ← he, hf]
    · simp [Call.ends, Call.completes, Call.completed?, Call.cancels, he, Ne.symm he]

/-- Every call of a dispatcher handles its flights so. -/
theorem handles {x : Call α ε} (hx : ∀ p now, x ≠ .reopen p now) (hc : c.call x = .ok c') :
    Handles c x c' := by
  cases x with
  | submit r callback =>
    obtain ⟨⟨s, told, c₁⟩, hs, hc⟩ := bind_eq_ok_iff.mp hc
    cases hc
    exact handles_submit hs
  | submitOffline r callback =>
    obtain ⟨⟨told, c₁⟩, hs, hc⟩ := bind_eq_ok_iff.mp hc
    cases hc
    have hi := unissued (x := .submitOffline r callback) c fun _ _ hx => by cases hx
    obtain ⟨⟨hit, c₂⟩, hfound, htold⟩ := bind_eq_ok_iff.mp hs
    have hh := handling_of_fromCache hfound
    cases hit with
    | none =>
      cases htold
      exact .of_same hi hh (fun _ => rfl) fun _ => rfl
    | some x =>
      cases htold
      exact .of_same hi hh (fun _ => rfl) fun _ => rfl
  | lookup r =>
    obtain ⟨⟨hit, c₁⟩, hl, hc⟩ := bind_eq_ok_iff.mp hc
    cases hc
    have hi := unissued (x := .lookup r) c fun _ _ hx => by cases hx
    exact .of_same hi (handling_of_lookup hl) (fun _ => rfl) fun _ => rfl
  | complete t reply =>
    obtain ⟨⟨told, c₁⟩, hs, hc⟩ := bind_eq_ok_iff.mp hc
    cases hc
    exact handles_complete hs
  | fail t failure =>
    cases hc
    exact handles_fail c t failure
  | cancel t =>
    cases hc
    exact handles_cancel c t
  | dropCallback callback =>
    cases hc
    have hsame : Handles c (.dropCallback callback) c :=
      .of_same rfl rfl (fun _ => rfl) fun _ => rfl
    exact .of_unissued rfl rfl (hsame.others rfl).2
  | reset =>
    cases hc
    exact .of_unissued rfl rfl fun _ => rfl
  | reopen p now => exact absurd rfl (hx p now)
  | _ =>
    cases hc
    exact .of_same rfl rfl (fun _ => rfl) fun _ => rfl

/-- Flights have numbers that tickets had. -/
theorem Handles.flight_lt {x : Call α ε} (h : Handles c x c')
    (hc : ∀ id f, c.flights.get? id = some f → id < c.nextTicket) :
    ∀ id f, c'.flights.get? id = some f → id < c'.nextTicket := by
  intro id f hf
  cases hi : (Moment.mk c x).issued? with
  | some t =>
    obtain ⟨-, hnext, r, callback, -, hflights⟩ := h.begun t hi
    rw [hflights, Table.get?_set] at hf
    rw [hnext]
    split at hf
    · omega
    · exact Nat.lt_succ_of_lt (hc id f hf)
  | none =>
    obtain ⟨hnext, hflights⟩ := h.others hi
    rw [hflights] at hf
    rw [hnext]
    split at hf
    · cases hf
    · obtain ⟨g, hg, -⟩ := Option.map_eq_some_iff.mp hf
      exact hc id g hg

theorem Reaches.flight_lt {l : Layout} {v : Volume} {past : List (Moment α ε)}
    (h : Reaches l v past c) : ∀ id f, c.flights.get? id = some f → id < c.nextTicket := by
  induction h with
  | start hp h =>
    obtain ⟨store, -, rfl⟩ := start_ok h
    intro id f hf
    cases hf
  | @step past c c' x _ hx hc ih =>
    by_cases hopen : ∃ p now, x = .reopen p now
    · obtain ⟨p, now, rfl⟩ := hopen
      obtain ⟨store, -, rfl⟩ := start_ok hc
      intro id f hf
      cases hf
    · exact (handles (fun p now he => hopen ⟨p, now, he⟩) hc).flight_lt ih

end TierCache.Dispatcher
