import TierCache.Proofs.Dispatcher.Flights

/-!
# The life of a ticket

A ticket is pending from the submission that issues it until a completion of it, or until the
dispatcher is reset. What is in flight can therefore be read off the moments of a run: each flight
stands for one ticket that was issued and has not ended, and remembers who asked and whether it was
cancelled since.
-/
namespace TierCache.Dispatcher

variable {α ε : Type} {c c' c₀ : Dispatcher α ε} {past since : List (Moment α ε)}
variable {m : Moment α ε} {t : Ticket} {r : Request α ε} {callback : Nat}

/-- The tickets that were issued, latest first. -/
def tickets (past : List (Moment α ε)) : List Ticket := past.filterMap Moment.issued?

/-- A submission was issued the ticket, and this came since. -/
def IssuedTo (past since : List (Moment α ε)) (t : Ticket) (r : Request α ε) (callback : Nat) :
    Prop :=
  ∃ before earlier, past = since ++ ⟨before, .submit r callback⟩ :: earlier ∧
    (Moment.mk before (.submit r callback)).issued? = some t

/-- The ticket has been waiting for its end ever since. -/
structure Waits (past since : List (Moment α ε)) (t : Ticket) (r : Request α ε) (callback : Nat) :
    Prop where
  issued : IssuedTo past since t r callback
  lasts : ∀ m ∈ since, m.call.ends t.id = false

/-- The ticket was issued, and neither completed nor dropped by a reset since. -/
def Pending (past : List (Moment α ε)) (t : Ticket) : Prop :=
  ∃ since r callback, Waits past since t r callback

def cancelledIn (since : List (Moment α ε)) (id : Nat) : Bool :=
  since.any fun m => m.call.cancels id

/-- What completions of the number told. -/
def heard (past : List (Moment α ε)) (id : Nat) : List (Delivery α ε) :=
  (past.filter fun m => m.call.completes id).flatMap Moment.told

@[simp] theorem issuedTo_cons : IssuedTo (m :: past) since t r callback ↔
    since = [] ∧ m.call = .submit r callback ∧ m.issued? = some t ∨
      ∃ since', since = m :: since' ∧ IssuedTo past since' t r callback := by
  constructor
  · rintro ⟨before, earlier, hp, ht⟩
    cases since with
    | nil =>
      obtain ⟨rfl, rfl⟩ := List.cons.inj hp
      exact .inl ⟨rfl, rfl, ht⟩
    | cons m' since =>
      obtain ⟨rfl, rfl⟩ := List.cons.inj hp
      exact .inr ⟨since, rfl, before, earlier, rfl, ht⟩
  · rintro (⟨rfl, hm, ht⟩ | ⟨since', rfl, before, earlier, rfl, ht⟩)
    · obtain ⟨before, x⟩ := m
      cases hm
      exact ⟨before, past, rfl, ht⟩
    · exact ⟨before, earlier, rfl, ht⟩

theorem IssuedTo.mem (h : IssuedTo past since t r callback) : t ∈ tickets past := by
  obtain ⟨before, earlier, rfl, ht⟩ := h
  exact List.mem_filterMap.mpr ⟨_, List.mem_append_right since List.mem_cons_self, ht⟩

@[simp] theorem tickets_cons (m : Moment α ε) (past : List (Moment α ε)) :
    tickets (m :: past) = m.issued?.toList ++ tickets past := by
  rw [tickets, List.filterMap_cons]
  cases m.issued? <;> rfl

@[simp] theorem cancelledIn_cons (m : Moment α ε) (since : List (Moment α ε)) (id : Nat) :
    cancelledIn (m :: since) id = (cancelledIn since id || m.call.cancels id) := by
  rw [cancelledIn, List.any_cons, Bool.or_comm]
  rfl

@[simp] theorem heard_cons (m : Moment α ε) (past : List (Moment α ε)) (id : Nat) :
    heard (m :: past) id = (if m.call.completes id then m.told else []) ++ heard past id := by
  simp only [heard, List.filter_cons]
  split <;> rfl

/-- Tickets are numbered upwards, from the first number that the run could use. -/
structure Numbered (c₀ : Dispatcher α ε) (past : List (Moment α ε)) (c : Dispatcher α ε) :
    Prop where
  le : c₀.nextTicket ≤ c.nextTicket
  above : ∀ t ∈ tickets past, c₀.nextTicket ≤ t.id
  below : ∀ t ∈ tickets past, t.id < c.nextTicket
  distinct : ((tickets past).map Ticket.id).Nodup

theorem Continues.numbered (h : Continues c₀ past c) : Numbered c₀ past c := by
  induction h with
  | nil => exact ⟨Nat.le_refl _, by simp [tickets], by simp [tickets], by simp [tickets]⟩
  | @step past c c' x _ hx hc ih =>
    have hh := handles hx hc
    cases hi : (Moment.mk c x).issued? with
    | none =>
      have hsame : tickets (⟨c, x⟩ :: past) = tickets past := by
        rw [tickets_cons, hi]
        rfl
      have hnext := (hh.others hi).1
      refine ⟨?_, ?_, ?_, ?_⟩
      · rw [hnext]
        exact ih.le
      · rw [hsame]
        exact ih.above
      · rw [hsame, hnext]
        exact ih.below
      · rw [hsame]
        exact ih.distinct
    | some t =>
      obtain ⟨hid, hnext, -⟩ := hh.begun t hi
      have hmore : tickets (⟨c, x⟩ :: past) = t :: tickets past := by
        rw [tickets_cons, hi]
        rfl
      refine ⟨?_, ?_, ?_, ?_⟩
      · rw [hnext]
        exact Nat.le_succ_of_le ih.le
      · rw [hmore, List.forall_mem_cons]
        exact ⟨hid ▸ ih.le, ih.above⟩
      · rw [hmore, List.forall_mem_cons, hnext]
        exact ⟨by omega, fun u hu => Nat.lt_succ_of_lt (ih.below u hu)⟩
      · rw [hmore, List.map_cons, List.nodup_cons]
        refine ⟨fun hm => ?_, ih.distinct⟩
        obtain ⟨u, hu, he⟩ := List.mem_map.mp hm
        have := ih.below u hu
        omega

/-- A number that is not used yet belongs to no ticket. -/
theorem Numbered.ne (h : Numbered c₀ past c) (ht : t ∈ tickets past) : t.id ≠ c.nextTicket :=
  Nat.ne_of_lt (h.below t ht)

@[simp] theorem waits_cons : Waits (m :: past) since t r callback ↔
    since = [] ∧ m.call = .submit r callback ∧ m.issued? = some t ∨
      ∃ since', since = m :: since' ∧ m.call.ends t.id = false ∧
        Waits past since' t r callback := by
  constructor
  · rintro ⟨hi, hl⟩
    rcases issuedTo_cons.mp hi with ⟨rfl, hm, ht⟩ | ⟨since', rfl, hi'⟩
    · exact .inl ⟨rfl, hm, ht⟩
    · rw [List.forall_mem_cons] at hl
      exact .inr ⟨since', rfl, hl.1, hi', hl.2⟩
  · rintro (⟨rfl, hm, ht⟩ | ⟨since', rfl, hm, hi, hl⟩)
    · exact ⟨issuedTo_cons.mpr (.inl ⟨rfl, hm, ht⟩), List.forall_mem_nil _⟩
    · exact ⟨issuedTo_cons.mpr (.inr ⟨since', rfl, hi⟩), List.forall_mem_cons.mpr ⟨hm, hl⟩⟩

/-- A flight stands for a ticket that waits, and knows whether that was cancelled. -/
def Stands (past : List (Moment α ε)) (id : Nat) (f : Flight α ε) : Prop :=
  ∃ since t r callback, Waits past since t r callback ∧ t.id = id ∧
    f = flightOf r callback (cancelledIn since id)

@[simp] theorem not_stands_nil (id : Nat) (f : Flight α ε) : ¬ Stands [] id f := by
  rintro ⟨since, t, r, callback, ⟨⟨before, earlier, hp, -⟩, -⟩, -⟩
  cases since <;> cases hp

theorem Stands.mem {id : Nat} {f : Flight α ε} (h : Stands past id f) :
    ∃ t ∈ tickets past, t.id = id := by
  obtain ⟨since, t, r, callback, hw, hid, -⟩ := h
  exact ⟨t, hw.issued.mem, hid⟩

theorem stands_cons_of_issued (hi : m.issued? = some t) (hm : m.call = .submit r callback)
    {id : Nat} {f : Flight α ε} : Stands (m :: past) id f ↔
      t.id = id ∧ f = flightOf r callback false ∨ Stands past id f := by
  have hends : ∀ id, m.call.ends id = false := fun id => by rw [hm]; rfl
  have hcancels : ∀ id, m.call.cancels id = false := fun id => by rw [hm]; rfl
  constructor
  · rintro ⟨since, u, r', callback', hw, hid, rfl⟩
    rcases waits_cons.mp hw with ⟨rfl, hm', hu⟩ | ⟨since', rfl, -, hw⟩
    · cases hm.symm.trans hm'
      cases hi.symm.trans hu
      exact .inl ⟨hid, rfl⟩
    · refine .inr ⟨since', u, r', callback', hw, hid, ?_⟩
      rw [cancelledIn_cons, hcancels, Bool.or_false]
  · rintro (⟨hid, rfl⟩ | ⟨since, u, r', callback', hw, hid, rfl⟩)
    · exact ⟨[], t, r, callback, waits_cons.mpr (.inl ⟨rfl, hm, hi⟩), hid, rfl⟩
    · refine ⟨m :: since, u, r', callback', waits_cons.mpr (.inr ⟨since, rfl, hends _, hw⟩), hid,
        ?_⟩
      rw [cancelledIn_cons, hcancels, Bool.or_false]

theorem stands_cons_of_unissued (hi : m.issued? = none) {id : Nat} {f : Flight α ε} :
    Stands (m :: past) id f ↔ m.call.ends id = false ∧
      ∃ g, Stands past id g ∧ { g with cancelled := g.cancelled || m.call.cancels id } = f := by
  constructor
  · rintro ⟨since, u, r, callback, hw, hid, rfl⟩
    rcases waits_cons.mp hw with ⟨-, -, hu⟩ | ⟨since', rfl, hm, hw⟩
    · rw [hi] at hu
      cases hu
    · refine ⟨hid ▸ hm, _, ⟨since', u, r, callback, hw, hid, rfl⟩, ?_⟩
      rw [cancelledIn_cons]
      rfl
  · rintro ⟨hm, g, ⟨since, u, r, callback, hw, hid, rfl⟩, rfl⟩
    refine ⟨m :: since, u, r, callback, waits_cons.mpr (.inr ⟨since, rfl, hid ▸ hm, hw⟩), hid, ?_⟩
    rw [cancelledIn_cons]
    rfl

/-- The flights are the tickets that wait, as those were asked for and cancelled. -/
theorem Continues.flights_iff (he : c₀.flights = .empty) (h : Continues c₀ past c) (id : Nat)
    (f : Flight α ε) : c.flights.get? id = some f ↔ Stands past id f := by
  induction h generalizing f with
  | nil =>
    rw [he, Table.get?_empty]
    exact iff_of_false nofun (not_stands_nil id f)
  | @step past c c' x hrun hx hc ih =>
    have hh := handles hx hc
    cases hi : (Moment.mk c x).issued? with
    | some t =>
      obtain ⟨hid, -, r, callback, rfl, hflights⟩ := hh.begun t hi
      rw [stands_cons_of_issued hi rfl, hflights, Table.get?_set, hid, ← ih]
      split
      · -- the number is new, so that nothing stood for it
        rename_i hnew
        have hnone : c.flights.get? id ≠ some f := fun hf => by
          obtain ⟨u, hu, he⟩ := ((ih f).mp hf).mem
          exact hrun.numbered.ne hu (he.trans hnew)
        refine ⟨fun hf => .inl ⟨hnew.symm, (Option.some.inj hf).symm⟩, fun hs => ?_⟩
        rcases hs with ⟨-, rfl⟩ | hf
        · rfl
        · exact absurd hf hnone
      · rename_i hold
        simp only [Ne.symm hold, false_and, false_or]
    | none =>
      rw [stands_cons_of_unissued hi, (hh.others hi).2 id]
      simp only [Option.ite_none_left_eq_some, Option.map_eq_some_iff, Bool.not_eq_true, ih]

theorem Continues.flight_lt (he : c₀.flights = .empty) (h : Continues c₀ past c) {id : Nat}
    {f : Flight α ε} (hf : c.flights.get? id = some f) : id < c.nextTicket := by
  obtain ⟨t, ht, rfl⟩ := ((h.flights_iff he id f).mp hf).mem
  exact h.numbered.below t ht

/-- The news are about the end of the ticket. -/
structure News.IsFor (n : News α ε) (t : Ticket) : Prop where
  isRefresh : n.info.isRefresh = t.refresh
  dataIsRefreshing : n.info.dataIsRefreshing = false

theorem settle_news {f : Flight α ε} {reply : Reply} {n : News α ε}
    (h : c.settle f t reply = .ok (n, c')) :
    n.IsFor t ∧ (reply.isSuccess = true → ∀ value, f.parser.parse reply.body = .ok value →
      n.info.code = .success ∧ n.data = some value) := by
  rw [settle] at h
  split at h
  · rename_i hs
    cases h
    refine ⟨⟨rfl, rfl⟩, fun hsuccess => ?_⟩
    rw [hsuccess] at hs
    cases hs
  · split at h
    · rename_i problem hp
      cases h
      refine ⟨⟨rfl, rfl⟩, fun _ value hvalue => ?_⟩
      rw [hp] at hvalue
      cases hvalue
    · rename_i value hp
      obtain ⟨c₁, -, h⟩ := bind_eq_ok_iff.mp h
      cases h
      refine ⟨⟨rfl, rfl⟩, fun _ value' hvalue => ?_⟩
      rw [hp] at hvalue
      exact ⟨rfl, congrArg some (Except.ok.inj hvalue)⟩

theorem announce_eq (c : Dispatcher α ε) (f : Flight α ε) (n : News α ε) :
    c.announce f n = if f.cancelled = true ∨ f.callback ∈ c.dropped then []
      else [⟨f.callback, f.queryId, n.info, n.data, n.error⟩] := by
  simp only [announce, conclude, tell, List.contains_iff_mem]
  by_cases hc : f.cancelled = true
  · simp only [hc, if_true, true_or]
  · simp only [hc, if_false, false_or, Bool.false_eq_true]

theorem length_announce_le (c : Dispatcher α ε) (f : Flight α ε) (n : News α ε) :
    (c.announce f n).length ≤ 1 := by
  rw [announce_eq]
  split
  · exact Nat.zero_le 1
  · exact Nat.le_refl 1

/-- A completion tells nothing if its ticket is not in flight, and else announces news once. -/
theorem told_of_completed {x : Call α ε} (hx : x.completed? = some t) (hc : c.call x = .ok c') :
    c.flights.get? t.id = none ∧ (Moment.mk c x).told = [] ∨
      ∃ f n, c.flights.get? t.id = some f ∧ n.IsFor t ∧ (Moment.mk c x).told = c.announce f n := by
  cases x with
  | complete u reply =>
    cases hx
    obtain ⟨⟨told, c₁⟩, hdone, -⟩ := bind_eq_ok_iff.mp hc
    have hrep : c.report (.complete t reply) = .ok (.nothing, told, c₁) := by
      simp only [report, hdone]
      rfl
    rw [Moment.told_eq hrep]
    rcases complete_ok hdone with ⟨hf, rfl, -⟩ | ⟨f, n, hf, hs, rfl, -⟩
    · exact .inl ⟨hf, rfl⟩
    · exact .inr ⟨f, n, hf, (settle_news hs).1, rfl⟩
  | fail u failure =>
    cases hx
    have htold : (Moment.mk c (.fail t failure)).told = (c.fail t failure).1 := rfl
    rw [htold, fail_eq]
    cases hf : c.flights.get? t.id with
    | none => exact .inl ⟨rfl, rfl⟩
    | some f => exact .inr ⟨f, failureNews f t failure, rfl, ⟨rfl, rfl⟩, rfl⟩
  | _ => cases hx

theorem completes_iff {x : Call α ε} {id : Nat} :
    x.completes id = true ↔ ∃ t, x.completed? = some t ∧ t.id = id := by
  simp only [Call.completes, Option.any_eq_true, decide_eq_true_eq]

theorem ends_of_completes {x : Call α ε} {id : Nat} (h : x.completes id = true) :
    x.ends id = true := by
  cases x with
  | reset => rfl
  | _ => exact h

/-- At most one delivery completes a number, and none does before the ticket is at its end. -/
theorem Continues.heard_le (he : c₀.flights = .empty) (h : Continues c₀ past c) (id : Nat) :
    (heard past id).length ≤ 1 ∧
      (c.flights.contains id = true ∨ c.nextTicket ≤ id → heard past id = []) := by
  induction h with
  | nil => exact ⟨Nat.zero_le 1, fun _ => rfl⟩
  | @step past c c' x hrun hx hc ih =>
    obtain ⟨ih, hnone⟩ := ih
    have hh := handles hx hc
    rw [heard_cons]
    cases hdone : x.completes id with
    | true =>
      obtain ⟨t, ht, rfl⟩ := completes_iff.mp hdone
      have hi := unissued (x := x) c fun r callback hs => by rw [hs] at ht; cases ht
      have hends : c'.flights.get? t.id = none := by
        rw [(hh.others hi).2, if_pos (ends_of_completes hdone)]
      simp only [Table.contains, hends, Option.isSome_none, Bool.false_eq_true, false_or, if_true,
        (hh.others hi).1]
      rcases told_of_completed ht hc with ⟨hf, htold⟩ | ⟨f, n, hf, -, htold⟩
      · rw [htold, List.nil_append]
        exact ⟨ih, fun hle => hnone (.inr hle)⟩
      · -- the one completion of the flight
        have hbefore : heard past t.id = [] := hnone (.inl (by rw [Table.contains, hf]; rfl))
        rw [htold, hbefore, List.append_nil]
        exact ⟨length_announce_le c f n,
          fun hle => absurd (hrun.flight_lt he hf) (Nat.not_lt.mpr hle)⟩
    | false =>
      simp only [Bool.false_eq_true, if_false, List.nil_append]
      refine ⟨ih, fun hlive => hnone ?_⟩
      cases hi : (Moment.mk c x).issued? with
      | none =>
        obtain ⟨hnext, hflights⟩ := hh.others hi
        rw [hnext, Table.contains, hflights] at hlive
        refine hlive.imp (fun hs => ?_) fun hle => hle
        split at hs
        · cases hs
        · rwa [Option.isSome_map] at hs
      | some t =>
        obtain ⟨-, hnext, r, callback, -, hflights⟩ := hh.begun t hi
        rw [hnext, Table.contains, hflights, Table.get?_set] at hlive
        split at hlive
        · exact .inr (by omega)
        · exact hlive.imp (fun hs => hs) (by omega)

theorem mayServe_of_lookup {x : Hit α} (h : c.lookup r = .ok (some x, c')) :
    x.freshness.mayServe = true := by
  rw [lookup] at h
  split at h
  · obtain ⟨⟨hit, c₁⟩, -, h⟩ := bind_eq_ok_iff.mp h
    simp only [pure, Except.pure, Except.ok.injEq, Prod.mk.injEq, Option.filter_eq_some_iff] at h
    exact h.1.2
  · cases h

/-- A refresh is issued behind an answer, which says so, and any other ticket without one. -/
theorem told_of_submit {s : Submission} {told : List (Delivery α ε)}
    (hc : c.submit r callback = .ok (s, told, c')) :
    (∀ t, s = .refreshing t → t.refresh = true ∧ ∃ timestamp value, told = c.tell ⟨callback, r.id,
      { ResultSummary.success timestamp with dataIsRefreshing := true }, some value, none⟩) ∧
    (∀ t, s = .fetching t → t.refresh = false ∧ told = []) ∧
    ∀ d ∈ told, d.info.isRefresh = false := by
  obtain ⟨hit, c₁, hl, hcases⟩ := submit_cases hc
  have hdropped : c₁.dropped = c.dropped :=
    (congrArg Dispatcher.dropped (handling_of_lookup hl)).symm
  rcases hcases with ⟨rfl, rfl, rfl, -⟩ | ⟨x, rfl, htold, hcases⟩
  · refine ⟨by simp, ?_, by simp⟩
    intro t ht
    cases ht
    exact ⟨rfl, rfl⟩
  · have hplain : ∀ d ∈ told, d.info.isRefresh = false := by
      intro d hd
      rw [htold, tell] at hd
      split at hd
      · cases hd
      · rw [List.mem_singleton.mp hd]
        rfl
    rcases hcases with ⟨-, rfl, -⟩ | ⟨hx, rfl, -⟩ | ⟨hx, -, -⟩
    · exact ⟨by simp, by simp, hplain⟩
    · refine ⟨?_, by simp, hplain⟩
      intro t ht
      cases ht
      refine ⟨rfl, x.metadata.serverTimestamp, x.value, ?_⟩
      rw [htold, tell, tell, hdropped, hx]
      rfl
    · -- an expired answer is never found
      have hserve := mayServe_of_lookup hl
      rw [hx] at hserve
      cases hserve

theorem isRefresh_of_submitOffline {told : List (Delivery α ε)}
    (hc : c.submitOffline r callback = .ok (told, c')) : ∀ d ∈ told, d.info.isRefresh = false := by
  obtain ⟨⟨hit, c₁⟩, -, htold⟩ := bind_eq_ok_iff.mp hc
  intro d hd
  cases hit with
  | none =>
    cases htold
    rw [tell] at hd
    split at hd
    · cases hd
    · rw [List.mem_singleton.mp hd]
      rfl
  | some x =>
    cases htold
    rw [tell] at hd
    split at hd
    · cases hd
    · rw [List.mem_singleton.mp hd]
      rfl

/-- Only completions tell of a refresh. -/
theorem isRefresh_of_told {x : Call α ε} (hc : c.call x = .ok c') {d : Delivery α ε}
    (hd : d ∈ (Moment.mk c x).told) (hr : d.info.isRefresh = true) :
    ∃ t, x.completed? = some t ∧ t.refresh = true := by
  cases hx : x.completed? with
  | some t =>
    refine ⟨t, rfl, ?_⟩
    rcases told_of_completed hx hc with ⟨-, htold⟩ | ⟨f, n, -, hn, htold⟩
    · rw [htold] at hd
      cases hd
    · rw [htold, announce_eq] at hd
      split at hd
      · cases hd
      · rw [List.mem_singleton.mp hd] at hr
        exact hn.isRefresh.symm.trans hr
  | none =>
    exfalso
    obtain ⟨returned, told, hrep⟩ := report_of_call hc
    rw [Moment.told_eq hrep] at hd
    cases x with
    | submit r callback =>
      obtain ⟨⟨s, told', c₁⟩, hs, he⟩ := bind_eq_ok_iff.mp hrep
      cases he
      rw [(told_of_submit hs).2.2 d hd] at hr
      cases hr
    | submitOffline r callback =>
      obtain ⟨⟨told', c₁⟩, hs, he⟩ := bind_eq_ok_iff.mp hrep
      cases he
      rw [isRefresh_of_submitOffline hs d hd] at hr
      cases hr
    | lookup r =>
      obtain ⟨out, -, he⟩ := bind_eq_ok_iff.mp hrep
      cases he
      cases hd
    | complete t reply => cases hx
    | fail t failure => cases hx
    | reopen p now =>
      obtain ⟨out, -, he⟩ := bind_eq_ok_iff.mp hrep
      cases he
      cases hd
    | _ =>
      cases hrep
      cases hd

theorem submit_of_returned {s : Submission}
    (h : (Moment.mk c (.submit r callback)).returned = .submission s) :
    ∃ c', c.submit r callback = .ok (s, (Moment.mk c (.submit r callback)).told, c') := by
  simp only [Moment.returned, Moment.told, report] at h ⊢
  cases hs : c.submit r callback with
  | error fault =>
    rw [hs] at h
    cases h
  | ok out =>
    rw [hs] at h
    cases h
    exact ⟨out.2.2, rfl⟩

/-- The tiers in memory can count what a reply to the request brings. -/
structure Fits (c : Dispatcher α ε) (r : Request α ε) (reply : Reply) : Prop where
  stored : r.policy.caches = true → c.store.memory.totalCost + c.store.kind.cost
    ⟨Key.normalize r.key, .ofReply reply c.now r.policy, reply.headers, reply.body⟩ < UInt64.size
  parsed : r.policy.parsed.writes = true → c.parsed.totalCost + 1 < UInt64.size

/-- What fits is kept. -/
theorem Fits.keep {f : Flight α ε} {reply : Reply} (h : c.Fits r reply) (hf : IsFor f r)
    (value : α) : ∃ c', c.keep f reply value (c.metadataOf f reply) = .ok c' := by
  have hmeta : c.metadataOf f reply = .ofReply reply c.now r.policy := by
    rw [metadataOf, hf.policy]
    rfl
  have hstore : f.policy.caches = true → ∃ store,
      (c.store.share (recordOf f reply (c.metadataOf f reply))).2.put f.key
        (c.store.share (recordOf f reply (c.metadataOf f reply))).1 f.policy.placement =
          .ok store := by
    intro hcaches
    refine Cache.put_of_lt _ _ _ _ ?_
    rw [hf.policy] at hcaches
    rw [recordOf, hmeta, hf.key]
    exact h.stored hcaches
  have hparsed : f.policy.parsed.writes = true → ∃ parsed,
      Parsed.put c.parsed f.key value (c.metadataOf f reply) = .ok parsed := by
    intro hwrites
    rw [hf.policy] at hwrites
    obtain ⟨out, hout⟩ := c.parsed.put_of_lt (Key.normalize f.key)
      ⟨value, c.metadataOf f reply⟩ (h.parsed hwrites)
    exact ⟨out.1, bind_eq_ok_iff.mpr ⟨out, hout, rfl⟩⟩
  rw [Dispatcher.keep]
  split
  · obtain ⟨store, hstore⟩ := hstore ‹_›
    split
    · obtain ⟨parsed, hparsed⟩ := hparsed ‹_›
      exact ⟨_, bind_eq_ok_iff.mpr ⟨store, hstore, bind_eq_ok_iff.mpr ⟨parsed, hparsed, rfl⟩⟩⟩
    · exact ⟨_, bind_eq_ok_iff.mpr ⟨store, hstore, rfl⟩⟩
  · split
    · obtain ⟨parsed, hparsed⟩ := hparsed ‹_›
      exact ⟨_, bind_eq_ok_iff.mpr ⟨c.store, rfl, bind_eq_ok_iff.mpr ⟨parsed, hparsed, rfl⟩⟩⟩
    · exact ⟨_, rfl⟩

/-- Only what is kept needs room. -/
theorem settle_of_fits {f : Flight α ε} {reply : Reply} (hf : IsFor f r)
    (h : ∀ value, reply.isSuccess = true → r.parser.parse reply.body = .ok value →
      c.Fits r reply) (t : Ticket) : ∃ out, c.settle f t reply = .ok out := by
  rw [settle]
  split
  · exact ⟨_, rfl⟩
  · rename_i hsuccess
    rw [Bool.not_eq_true', Bool.not_eq_false] at hsuccess
    split
    · exact ⟨_, rfl⟩
    · rename_i value hvalue
      obtain ⟨c', hkeep⟩ := (h value hsuccess (hf.parser ▸ hvalue)).keep hf value
      exact ⟨_, bind_eq_ok_iff.mpr ⟨c', hkeep, rfl⟩⟩

/-- What the end of a ticket told: one delivery, to the callback that asked, unless the ticket was
cancelled or the callback is dropped. -/
structure Concludes (c : Dispatcher α ε) (since : List (Moment α ε)) (t : Ticket)
    (r : Request α ε) (callback : Nat) (told : List (Delivery α ε)) : Prop where
  silent : cancelledIn since t.id = true ∨ callback ∈ c.dropped → told = []
  once : cancelledIn since t.id = false → callback ∉ c.dropped → ∃ d, told = [d] ∧
    d.callback = callback ∧ d.queryId = r.id ∧ d.info.isRefresh = t.refresh ∧
    d.info.dataIsRefreshing = false

/-- How the tickets of a run stand. -/
structure Lifecycle (past : List (Moment α ε)) (c : Dispatcher α ε) : Prop where
  distinct : ((tickets past).map Ticket.id).Nodup
  /-- The pending tickets are those in flight. -/
  pending : ∃ ts : List Ticket, ts.Nodup ∧ (∀ t, t ∈ ts ↔ Pending past t) ∧
    (ts.map Ticket.id).Perm c.flights.keys ∧ c.flightCount = ts.length
  cancel : ∀ t ∈ tickets past, (c.cancel t).1 = true ↔ Pending past t
  /-- A ticket that is not pending changes nothing. -/
  ignored : ∀ t, (∀ t', Pending past t' → t'.id ≠ t.id) →
    (∀ reply, c.complete t reply = .ok ([], c)) ∧ (∀ failure, c.fail t failure = ([], c)) ∧
      c.cancel t = (false, c)
  failing : ∀ since t r callback, Waits past since t r callback → ∀ failure, ∃ told,
    c.fail t failure = (told, c.land t.id) ∧ Concludes c since t r callback told
  completing : ∀ since t r callback, Waits past since t r callback → ∀ reply,
    ((∀ value, reply.isSuccess = true → r.parser.parse reply.body = .ok value →
      c.Fits r reply) → ∃ told c', c.complete t reply = .ok (told, c')) ∧
    ∀ told c', c.complete t reply = .ok (told, c') → c'.flights = (c.land t.id).flights ∧
      Concludes c since t r callback told ∧
      (reply.isSuccess = true → ∀ value, r.parser.parse reply.body = .ok value →
        ∀ d ∈ told, d.info.code = .success ∧ d.data = some value)
  once : ∀ id, (heard past id).length ≤ 1
  /-- The answer that is being refreshed is told before the refresh can be. -/
  refreshing : ∀ since before earlier r callback t,
    past = since ++ ⟨before, .submit r callback⟩ :: earlier →
    (Moment.mk before (.submit r callback)).returned = .submission (.refreshing t) →
      t.refresh = true ∧ heard earlier t.id = [] ∧ ∃ timestamp value,
        (Moment.mk before (.submit r callback)).told = before.tell ⟨callback, r.id,
          { ResultSummary.success timestamp with dataIsRefreshing := true }, some value, none⟩
  fetching : ∀ since before earlier r callback t,
    past = since ++ ⟨before, .submit r callback⟩ :: earlier →
    (Moment.mk before (.submit r callback)).returned = .submission (.fetching t) →
      t.refresh = false ∧ heard earlier t.id = [] ∧
        (Moment.mk before (.submit r callback)).told = []
  flagged : ∀ m ∈ past, ∀ d ∈ m.told, d.info.isRefresh = true →
    ∃ t, m.call.completed? = some t ∧ t.refresh = true

theorem concludes_announce (n : News α ε) (hn : n.IsFor t) (since : List (Moment α ε)) :
    Concludes c since t r callback
      (c.announce (flightOf r callback (cancelledIn since t.id)) n) := by
  rw [announce_eq]
  refine ⟨fun h => if_pos h, fun hc hd => ⟨_, if_neg ?_, rfl, rfl, hn.1, hn.2⟩⟩
  rintro (hc' | hd')
  · rw [flightOf, hc] at hc'
    cases hc'
  · exact hd hd'

namespace Continues

theorem call_of_mem (h : Continues c₀ past c) (hm : m ∈ past) :
    ∃ c', m.before.call m.call = .ok c' := by
  induction h with
  | nil => cases hm
  | step _ _ hc ih =>
    rcases List.mem_cons.mp hm with rfl | hm
    · exact ⟨_, hc⟩
    · exact ih hm

variable (he : c₀.flights = .empty) (h : Continues c₀ past c)
include he h

theorem flight_of_waits (hw : Waits past since t r callback) :
    c.flights.get? t.id = some (flightOf r callback (cancelledIn since t.id)) :=
  (h.flights_iff he _ _).mpr ⟨since, t, r, callback, hw, rfl, rfl⟩

theorem pending_iff (ht : t ∈ tickets past) : c.flights.contains t.id = true ↔ Pending past t := by
  rw [Table.contains, Option.isSome_iff_exists]
  constructor
  · rintro ⟨f, hf⟩
    obtain ⟨since, u, r, callback, hw, hu, -⟩ := (h.flights_iff he _ f).mp hf
    have hsame : u = t := eq_of_nodup_map h.numbered.distinct hw.issued.mem ht hu
    exact ⟨since, r, callback, hsame ▸ hw⟩
  · rintro ⟨since, r, callback, hw⟩
    exact ⟨_, h.flight_of_waits he hw⟩

theorem get?_of_not_pending (ht : ∀ u, Pending past u → u.id ≠ t.id) :
    c.flights.get? t.id = none := by
  rw [Option.eq_none_iff_forall_ne_some]
  intro f hf
  obtain ⟨since, u, r, callback, hw, hu, -⟩ := (h.flights_iff he _ f).mp hf
  exact ht u ⟨since, r, callback, hw⟩ hu

/-- The tickets in flight, each once. -/
theorem pending_keys : ∃ ts : List Ticket, ts.Nodup ∧ (∀ t, t ∈ ts ↔ Pending past t) ∧
    (ts.map Ticket.id).Perm c.flights.keys := by
  have hdistinct := h.numbered.distinct
  have hmem : ∀ t, t ∈ (tickets past).filter (fun t => c.flights.contains t.id) ↔
      Pending past t := by
    intro t
    rw [List.mem_filter]
    constructor
    · rintro ⟨ht, hin⟩
      exact (h.pending_iff he ht).mp hin
    · rintro ⟨since, r, callback, hw⟩
      exact ⟨hw.issued.mem, (h.pending_iff he hw.issued.mem).mpr ⟨since, r, callback, hw⟩⟩
  have hids : (((tickets past).filter fun t => c.flights.contains t.id).map Ticket.id).Nodup :=
    hdistinct.sublist (List.filter_sublist.map _)
  have hnodup : ((tickets past).filter fun t => c.flights.contains t.id).Nodup :=
    List.Pairwise.of_map Ticket.id (fun _ _ hne he => hne (congrArg Ticket.id he)) hids
  refine ⟨_, hnodup, hmem, (List.perm_ext_iff_of_nodup hids c.flights.nodup).mpr fun id => ?_⟩
  show _ ↔ id ∈ c.flights.keys
  rw [List.mem_map, Table.mem_keys_iff]
  constructor
  · rintro ⟨t, ht, rfl⟩
    obtain ⟨since, r, callback, hw⟩ := (hmem t).mp ht
    exact ⟨_, h.flight_of_waits he hw⟩
  · rintro ⟨f, hf⟩
    obtain ⟨since, t, r, callback, hw, hid, -⟩ := (h.flights_iff he _ f).mp hf
    exact ⟨t, (hmem t).mpr ⟨since, r, callback, hw⟩, hid⟩

/-- When its ticket is issued, nothing has been told under its number. -/
theorem unheard {before : Dispatcher α ε} {earlier : List (Moment α ε)} {s : Submission}
    (hp : past = since ++ ⟨before, .submit r callback⟩ :: earlier)
    (hr : (Moment.mk before (.submit r callback)).returned = .submission s)
    (ht : s.ticket? = some t) : heard earlier t.id = [] := by
  subst hp
  obtain ⟨c₁, hs⟩ := submit_of_returned hr
  have hi : (Moment.mk before (.submit r callback)).issued? = some t := by
    rw [Moment.issued?, hr]
    exact ht
  have hid := ((handles_submit hs).begun t hi).1
  exact (h.earlier.heard_le he t.id).2 (.inr (Nat.le_of_eq hid.symm))

end Continues

/-- Whatever happens to a dispatcher, tickets are issued once, are pending until they are completed
or dropped, and are answered for at most once. -/
theorem ticket_lifecycle {store : RecordCache} {entries : Nat} {now : Instant}
    (h : Continues (.new store entries now) past c) : Lifecycle past c where
  distinct := h.numbered.distinct
  pending := by
    obtain ⟨ts, hn, hmem, hperm⟩ := h.pending_keys rfl
    refine ⟨ts, hn, hmem, hperm, ?_⟩
    have hlength := hperm.length_eq
    rw [List.length_map, Table.keys, List.length_map] at hlength
    exact hlength.symm
  cancel := fun t ht => by
    rw [← h.pending_iff rfl ht, Dispatcher.cancel, Table.contains]
    cases c.flights.get? t.id with
    | none => rfl
    | some f => rfl
  ignored := fun t ht => by
    have hf := h.get?_of_not_pending rfl ht
    refine ⟨fun reply => ?_, fun failure => ?_, ?_⟩
    · rw [complete_eq, hf]
    · rw [fail_eq, hf]
    · rw [Dispatcher.cancel, hf]
  failing := fun since t r callback hw failure => by
    rw [fail_eq, h.flight_of_waits rfl hw]
    exact ⟨_, rfl, concludes_announce _ ⟨rfl, rfl⟩ since⟩
  completing := fun since t r callback hw reply => by
    have hf := h.flight_of_waits rfl hw
    refine ⟨fun hfits => ?_, fun told c' hc => ?_⟩
    · obtain ⟨out, hout⟩ := settle_of_fits (c := c.land t.id)
        (f := flightOf r callback (cancelledIn since t.id)) ⟨rfl, rfl, rfl⟩
        (fun value hs hp => ⟨(hfits value hs hp).stored, (hfits value hs hp).parsed⟩) t
      rw [complete_eq, hf]
      simp only [hout]
      exact ⟨_, _, rfl⟩
    · rcases complete_ok hc with ⟨hnone, -, -⟩ | ⟨f, n, hsome, hs, rfl, hh⟩
      · rw [hf] at hnone
        cases hnone
      · cases hf.symm.trans hsome
        obtain ⟨hn, hdecoded⟩ := settle_news hs
        refine ⟨(congrArg Dispatcher.flights hh).symm, concludes_announce n hn since,
          fun hsuccess value hvalue d hd => ?_⟩
        rw [announce_eq] at hd
        split at hd
        · cases hd
        · rw [List.mem_singleton.mp hd]
          exact hdecoded hsuccess value hvalue
  once := fun id => (h.heard_le rfl id).1
  refreshing := fun since before earlier r callback t hp hr => by
    obtain ⟨c₁, hs⟩ := submit_of_returned hr
    obtain ⟨hrefresh, htold⟩ := (told_of_submit hs).1 t rfl
    exact ⟨hrefresh, h.unheard rfl hp hr rfl, htold⟩
  fetching := fun since before earlier r callback t hp hr => by
    obtain ⟨c₁, hs⟩ := submit_of_returned hr
    obtain ⟨hrefresh, htold⟩ := (told_of_submit hs).2.1 t rfl
    exact ⟨hrefresh, h.unheard rfl hp hr rfl, htold⟩
  flagged := fun m hm d hd hr => by
    obtain ⟨c', hc⟩ := h.call_of_mem hm
    exact isRefresh_of_told hc hd hr

/-- The note is fetched and kept, and asked for again when its refresh is due. -/
def refreshCalls : List (Call String String) :=
  [.submit noteRequest 0, .complete ⟨1, 7, "a", false⟩ noteReply, .setClock 3000,
    .submit noteRequest 0]

/-- The ticket of the refresh is pending, the first one is not. -/
theorem ticket_lifecycle_note : ∃ (store : RecordCache) (past : List (Moment String String))
    (c : Dispatcher String String), Continues (.new store 4 1000) past c ∧
    tickets past = [⟨2, 7, "a", true⟩, ⟨1, 7, "a", false⟩] ∧
    Pending past ⟨2, 7, "a", true⟩ ∧ ¬ Pending past ⟨1, 7, "a", false⟩ := by
  obtain ⟨c₀, past, c, hstart, hc, hcheck⟩ := continues_of_trial noteSetup
    Volume.empty 1000 refreshCalls
    (fun past c => tickets past = [⟨2, 7, "a", true⟩, ⟨1, 7, "a", false⟩] ∧
      (c.cancel ⟨2, 7, "a", true⟩).1 = true ∧ (c.cancel ⟨1, 7, "a", false⟩).1 = false)
    (by simp [refreshCalls]) (by decide +kernel)
  obtain ⟨store, -, rfl⟩ := start_ok hstart
  obtain ⟨htickets, hsecond, hfirst⟩ := of_decide_eq_true hcheck
  have hlife := ticket_lifecycle hc
  refine ⟨store, past, c, hc, htickets, ?_, ?_⟩
  · exact (hlife.cancel ⟨2, 7, "a", true⟩ (by simp [htickets])).mp hsecond
  · rw [← hlife.cancel ⟨1, 7, "a", false⟩ (by simp [htickets]), hfirst]
    exact Bool.false_ne_true

end TierCache.Dispatcher
