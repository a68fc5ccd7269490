import TierCache.Proofs.Cache.Vacancy
import TierCache.Proofs.Dispatcher.Clearing
import TierCache.Proofs.Dispatcher.Ticketing

/-!
# What a reset cuts off

A reset ends all flights and empties all tiers, so nothing that came before it is left: no look-up
answers, also where the stores are opened again. From then on each copy in a tier and each answer
was brought by a completion that came later, of a ticket that was issued later. The old tickets can
still be completed, but that does nothing, and their numbers are not used again.
-/
namespace TierCache.Dispatcher

open Disk

variable {α ε : Type} {l : Layout} {v : Volume} {past later : List (Moment α ε)}
variable {m : Moment α ε} {c c' c₀ : Dispatcher α ε} {t : Ticket} {r : Request α ε}
variable {homes : Path → Prop}

theorem worked_storedHit {hit : Option (Hit α)} (h : c.storedHit r = .ok (hit, c')) :
    c.store.Worked c'.store := by
  simp only [storedHit] at h
  obtain ⟨⟨found, store⟩, hfind, h⟩ := bind_eq_ok_iff.mp h
  have hfound : c.store.Worked store := Cache.Worked.refl.find hfind
  split at h
  · cases h
    exact hfound
  · split at h
    · cases h
      exact hfound.remove r.key
    · split at h
      · obtain ⟨parsed, -, h⟩ := bind_eq_ok_iff.mp h
        cases h
        exact hfound
      · cases h
        exact hfound

theorem worked_fromCache {hit : Option (Hit α)} (h : c.fromCache r = .ok (hit, c')) :
    c.store.Worked c'.store := by
  have hstore : (c.parsedHit r).2.store = c.store := by
    rw [parsedHit]
    split <;> rfl
  rw [fromCache] at h
  split at h
  · rename_i c₁ hp
    cases h
    rw [hp] at hstore
    exact hstore ▸ .refl
  · rename_i c₁ hp
    rw [hp] at hstore
    exact hstore ▸ worked_storedHit h

theorem worked_lookup {hit : Option (Hit α)} (h : c.lookup r = .ok (hit, c')) :
    c.store.Worked c'.store := by
  rw [lookup] at h
  split at h
  · obtain ⟨⟨hit', c₁⟩, hfound, h⟩ := bind_eq_ok_iff.mp h
    cases h
    exact worked_fromCache hfound
  · cases h
    exact .refl

theorem worked_keep {f : Flight α ε} {reply : Reply} {value : α} {metadata : Metadata}
    (h : c.keep f reply value metadata = .ok c') : c.store.Worked c'.store := by
  obtain ⟨store, parsed, rfl, hstore, -⟩ := keep_ok h
  split at hstore
  · have hshared : c.store.Worked (c.store.share (recordOf f reply metadata)).2 :=
      Cache.Worked.refl.of_tiers rfl rfl rfl
    exact hshared.put hstore
  · exact hstore ▸ .refl

/-- Whatever a dispatcher is asked, its stores only see calls of theirs. -/
theorem worked {x : Call α ε} (hx : ∀ p now, x ≠ .reopen p now) (hc : c.call x = .ok c') :
    c.store.Worked c'.store := by
  cases x with
  | submit r callback =>
    obtain ⟨⟨s, told, c₁⟩, hs, hc⟩ := bind_eq_ok_iff.mp hc
    cases hc
    obtain ⟨hit, c₂, hl, hcases⟩ := submit_cases hs
    have hw := worked_lookup hl
    rcases hcases with ⟨-, -, -, rfl⟩ | ⟨x, -, -, ⟨-, -, rfl⟩ | ⟨-, -, rfl⟩ | ⟨-, -, rfl⟩⟩
    · exact hw
    · exact hw
    · exact hw
    · exact hw
  | submitOffline r callback =>
    obtain ⟨⟨told, c₁⟩, hs, hc⟩ := bind_eq_ok_iff.mp hc
    cases hc
    obtain ⟨⟨hit, c₂⟩, hfound, hs⟩ := bind_eq_ok_iff.mp hs
    have hw := worked_fromCache hfound
    cases hit with
    | none =>
      cases hs
      exact hw
    | some x =>
      cases hs
      exact hw
  | lookup r =>
    obtain ⟨⟨hit, c₁⟩, hl, hc⟩ := bind_eq_ok_iff.mp hc
    cases hc
    exact worked_lookup hl
  | complete t reply =>
    obtain ⟨⟨told, c₁⟩, hs, hc⟩ := bind_eq_ok_iff.mp hc
    cases hc
    rcases complete_cases hs with rfl | rfl | ⟨f, value, -, -, -, hkeep⟩
    · exact .refl
    · exact .refl
    · exact worked_keep (c := c.land t.id) hkeep
  | fail t failure =>
    cases hc
    rcases fail_cases c t failure with hf | hf
    · rw [hf]
      exact .refl
    · rw [hf]
      exact .refl
  | cancel t =>
    cases hc
    rw [cancel]
    split
    · exact .refl
    · exact .refl
  | reset =>
    cases hc
    exact Cache.Worked.refl.clear
  | clearIf p =>
    cases hc
    exact Cache.Worked.refl.removeIf p
  | setTime now =>
    cases hc
    exact Cache.Worked.refl.setTime now
  | sweep =>
    cases hc
    exact Cache.Worked.refl.sweep
  | reopen p now => exact absurd rfl (hx p now)
  | _ =>
    cases hc
    exact Cache.Worked.refl.of_tiers rfl rfl rfl

theorem Continues.worked (h : Continues c₀ past c) : c₀.store.Worked c.store := by
  induction h with
  | nil => exact .refl
  | step _ hx hc ih => exact ih.trans (Dispatcher.worked hx hc)

/-- The value was read from a body that completed a ticket of the run. -/
def Brought (past : List (Moment α ε)) (value : α) : Prop :=
  ∃ q reply received p, Completed past q reply received ∧ Asked past p ∧
    p.parser.parse reply.body = .ok value

theorem Brought.append {value : α} (h : Brought past value) (since : List (Moment α ε)) :
    Brought (since ++ past) value := by
  obtain ⟨q, reply, received, p, hdone, hp, hparse⟩ := h
  induction since with
  | nil => exact ⟨q, reply, received, p, hdone, hp, hparse⟩
  | cons m since ih =>
    obtain ⟨q, reply, received, p, hdone, hp, hparse⟩ := ih
    exact ⟨q, reply, received, p, hdone.cons m, hp.cons m, hparse⟩

theorem Answer.brought {now : Instant} {x : Hit α} (h : Answer past r now x) :
    Brought past x.value := by
  obtain ⟨body, ⟨q, reply, received, hdone, rfl, -, -⟩, p, hp, -, hparse⟩ := h.source
  exact ⟨q, reply, received, p, hdone, hp, hparse⟩

theorem data_of_settle {f : Flight α ε} {reply : Reply} {n : News α ε} {value : α}
    (h : c.settle f t reply = .ok (n, c')) (hd : n.data = some value) :
    reply.isSuccess = true ∧ f.parser.parse reply.body = .ok value := by
  rw [settle] at h
  split at h
  · cases h
    cases hd
  · rename_i hs
    split at h
    · cases h
      cases hd
    · rename_i value' hp
      obtain ⟨c₁, -, h⟩ := bind_eq_ok_iff.mp h
      cases h
      cases hd
      exact ⟨by simpa using hs, hp⟩

/-- What may be told: values that the run has brought, and errors at the end of a flight. -/
structure Tells (past : List (Moment α ε)) (m : Moment α ε) (d : Delivery α ε) : Prop where
  data : ∀ value, d.data = some value → Brought past value
  error : d.info.errorBody.isSome ∨ d.error.isSome →
    ∃ t, m.call.completed? = some t ∧ (m.before.flights.get? t.id).isSome

theorem Tells.of_answer {past' : List (Moment α ε)} {now : Instant} {x : Hit α} {callback : Nat}
    {info : ResultSummary} (hx : Answer past' r now x) (hi : info.errorBody = none)
    {d : Delivery α ε} (hd : d ∈ c.tell ⟨callback, r.id, info, some x.value, none⟩) :
    Tells past' m d := by
  rw [tell] at hd
  split at hd
  · cases hd
  · rw [List.mem_singleton.mp hd]
    refine ⟨fun value hv => ?_, fun he => ?_⟩
    · cases hv
      exact hx.brought
    · simp [hi] at he

theorem Tells.of_nothing {past' : List (Moment α ε)} {info : ResultSummary} {callback queryId : Nat}
    (hi : info.errorBody = none) {d : Delivery α ε}
    (hd : d ∈ c.tell ⟨callback, queryId, info, none, none⟩) : Tells past' m d := by
  rw [tell] at hd
  split at hd
  · cases hd
  · rw [List.mem_singleton.mp hd]
    exact ⟨fun _ hv => absurd hv (Option.some_ne_none _).symm, fun he => by simp [hi] at he⟩

/-- What a call of a traced dispatcher answers and tells was brought by then. -/
theorem Traced.tells {x : Call α ε} (h : Traced homes past c) (hx : ∀ p now, x ≠ .reopen p now)
    (hc : c.call x = .ok c') :
    (∀ hit, (Moment.mk c x).returned = .hit (some hit) → Brought (⟨c, x⟩ :: past) hit.value) ∧
      ∀ d ∈ (Moment.mk c x).told, Tells (⟨c, x⟩ :: past) ⟨c, x⟩ d := by
  have hcons := h.cons ⟨c, x⟩
  have unanswered : ∀ {returned told}, c.report x = .ok (returned, told, c') →
      (∀ hit, returned ≠ .hit hit) → ∀ hit, (Moment.mk c x).returned = .hit (some hit) →
        Brought (⟨c, x⟩ :: past) hit.value := by
    intro returned told hrep hne hit hh
    rw [Moment.returned_eq hrep] at hh
    exact absurd hh (hne _)
  cases x with
  | submit r callback =>
    obtain ⟨⟨s, told, c₁⟩, hs, hc⟩ := bind_eq_ok_iff.mp hc
    cases hc
    have hrep : c.report (.submit r callback) = .ok (.submission s, told, c₁) := by
      simp only [report, hs]
      rfl
    refine ⟨unanswered hrep (by simp), fun d hd => ?_⟩
    rw [Moment.told_eq hrep] at hd
    obtain ⟨hit, c₂, hl, hcases⟩ := submit_cases hs
    obtain ⟨-, -, hanswer⟩ := hcons.lookup (asked_cons.mpr (.inl rfl)) hl
    rcases hcases with ⟨-, -, rfl, -⟩ | ⟨x, hx, rfl, -⟩
    · cases hd
    · exact .of_answer (hanswer x hx).1 rfl hd
  | submitOffline r callback =>
    obtain ⟨⟨told, c₁⟩, hs, hc⟩ := bind_eq_ok_iff.mp hc
    cases hc
    have hrep : c.report (.submitOffline r callback) = .ok (.nothing, told, c₁) := by
      simp only [report, hs]
      rfl
    refine ⟨unanswered hrep (by simp), fun d hd => ?_⟩
    rw [Moment.told_eq hrep] at hd
    obtain ⟨⟨hit, c₂⟩, hfound, hs⟩ := bind_eq_ok_iff.mp hs
    obtain ⟨-, -, hanswer⟩ := hcons.fromCache (asked_cons.mpr (.inl rfl)) hfound
    cases hit with
    | none =>
      cases hs
      exact .of_nothing rfl hd
    | some x =>
      cases hs
      exact .of_answer (hanswer x rfl) rfl hd
  | lookup r =>
    obtain ⟨⟨hit, c₁⟩, hl, hc⟩ := bind_eq_ok_iff.mp hc
    cases hc
    have hrep : c.report (.lookup r) = .ok (.hit hit, [], c₁) := by
      simp only [report, hl]
      rfl
    obtain ⟨-, -, hanswer⟩ := hcons.lookup (asked_cons.mpr (.inl rfl)) hl
    refine ⟨fun x hx => ?_, fun d hd => ?_⟩
    · rw [Moment.returned_eq hrep] at hx
      cases hx
      exact (hanswer x rfl).1.brought
    · rw [Moment.told_eq hrep] at hd
      cases hd
  | complete t reply =>
    obtain ⟨⟨told, c₁⟩, hdone, hc⟩ := bind_eq_ok_iff.mp hc
    cases hc
    have hrep : c.report (.complete t reply) = .ok (.nothing, told, c₁) := by
      simp only [report, hdone]
      rfl
    refine ⟨unanswered hrep (by simp), fun d hd => ?_⟩
    rw [Moment.told_eq hrep] at hd
    rcases complete_ok hdone with ⟨-, rfl, -⟩ | ⟨f, n, hf, hs, rfl, -⟩
    · cases hd
    · rw [announce_eq] at hd
      split at hd
      · cases hd
      · rw [List.mem_singleton.mp hd]
        refine ⟨fun value hv => ?_, fun _ => ⟨t, rfl, by rw [hf]; rfl⟩⟩
        obtain ⟨hsuccess, hparse⟩ := data_of_settle hs hv
        obtain ⟨q, hi, hq⟩ := h.flights t.id f hf
        rw [hq.parser] at hparse
        exact ⟨q, reply, c.now, q,
          ⟨[], past, c, t, f, rfl, hi, hf, hq, rfl, hsuccess, value, hparse⟩,
          hi.asked.cons _, hparse⟩
  | fail t failure =>
    cases hc
    refine ⟨unanswered rfl (by simp), fun d hd => ?_⟩
    have hd : d ∈ (c.fail t failure).1 := hd
    rw [fail_eq] at hd
    cases hf : c.flights.get? t.id with
    | none =>
      rw [hf] at hd
      cases hd
    | some f =>
      simp only [hf, announce_eq] at hd
      split at hd
      · cases hd
      · rw [List.mem_singleton.mp hd]
        exact ⟨fun _ hv => absurd hv (Option.some_ne_none _).symm,
          fun _ => ⟨t, rfl, by rw [hf]; rfl⟩⟩
  | reopen p now => exact absurd rfl (hx p now)
  | _ =>
    cases hc
    exact ⟨unanswered rfl (by simp), fun d hd => by cases hd⟩

/-- With nothing in memory and nothing to read, a look-up answers nothing. -/
theorem lookup_of_empty (hp : c.parsed.entries = .empty) (hm : c.store.memory.entries = .empty)
    (ho : c.store.overflow.refs = .empty) (hs : ∀ d,
      ((c.store.archive.get r.policy.family).get c.store.volume d).1 = none) :
    ∃ c', c.lookup r = .ok (none, c') := by
  refine lookup_none (by rw [hp, Table.get?_empty]) ?_
  obtain ⟨s, hfind, -⟩ := @Cache.find_none _ c.store r.key r.policy.family
    (by rw [Resident.get, hm, Table.get?_empty]) (by rw [ho, Table.get?_empty]) (hs _)
  exact ⟨s, hfind⟩

/-- Nothing is in flight, found or stored. -/
structure Emptied (c : Dispatcher α ε) : Prop where
  flights : c.flightCount = 0
  lookup : ∀ r : Request α ε, ∃ c', c.lookup r = .ok (none, c')
  stores : ∀ f s, c.store.archive.get f = some s → Bare s c.store.volume

/-- The homes of the open stores. -/
def Homes (c : Dispatcher α ε) (home : Path) : Prop :=
  ∃ f s, c.store.archive.get f = some s ∧ s.root = home

/-- What a run has of all that came before it: nothing. -/
structure Severed (c : Dispatcher α ε) (past later : List (Moment α ε)) (c' : Dispatcher α ε) :
    Prop where
  /-- Every copy in every tier was brought by the run. -/
  tiers : Traced c.Homes later c'
  returned : ∀ m ∈ later, ∀ hit, m.returned = .hit (some hit) → Brought later hit.value
  data : ∀ m ∈ later, ∀ d ∈ m.told, ∀ value, d.data = some value → Brought later value
  error : ∀ m ∈ later, ∀ d ∈ m.told, d.info.errorBody.isSome ∨ d.error.isSome →
    ∃ t ∈ tickets later, m.call.completes t.id = true
  /-- Older tickets are not in flight. -/
  ignored : ∀ t : Ticket, t.id < c.nextTicket →
    (∀ reply, c'.complete t reply = .ok ([], c')) ∧ ∀ failure, c'.fail t failure = ([], c')
  distinct : ∀ t ∈ tickets later, ∀ u ∈ tickets past, t.id ≠ u.id

/-- A dispatcher that is made over vacant sites finds nothing. -/
theorem lookup_of_vacant {p : Setup} {now : Instant} (h : p.start v now = .ok c) (hv : v.Rooted)
    (hr : ∀ f site, p.layout.sites v.free f = some site → Roomy site.home)
    (hs : ∀ f site, p.layout.sites v.free f = some site → site.Vacant v) (r : Request α ε) :
    ∃ c', c.lookup r = .ok (none, c') := by
  obtain ⟨store, hstore, rfl⟩ := start_ok h
  obtain ⟨a, w, hstart, rfl⟩ := Cache.build_ok hstore
  exact lookup_of_empty rfl rfl rfl fun d =>
    Layout.get_of_vacant hstart hv hr (hs r.policy.family) d

/-- After a reset nothing is left. -/
theorem emptied_reset {sites : Family → Option Site}
    (h : l.Running sites c.store.archive c.store.volume) : Emptied c.reset :=
  have hw := h.stocked.wiped h.apart
  { flights := rfl
    lookup := fun _ => lookup_of_empty rfl rfl rfl (hw.get_none fun _ _ => id)
    stores := fun _ _ hs => hw.bare (fun _ _ => id) hs }

/-- What is told in a run was brought by it, if nothing was there before it. -/
theorem Continues.told_brought (ht : Traced homes [] c₀) (he : c₀.flights = .empty)
    (h : Continues c₀ later c) : Traced homes later c ∧ ∀ m ∈ later,
      (∀ hit, m.returned = .hit (some hit) → Brought later hit.value) ∧
      ∀ d ∈ m.told, (∀ value, d.data = some value → Brought later value) ∧
        (d.info.errorBody.isSome ∨ d.error.isSome →
          ∃ t ∈ tickets later, m.call.completes t.id = true) := by
  induction h with
  | nil => exact ⟨ht, fun m hm => absurd hm List.not_mem_nil⟩
  | @step later c c' x hrun hx hc ih =>
    obtain ⟨htraced, hall⟩ := ih
    obtain ⟨hreturned, htells⟩ := htraced.tells hx hc
    refine ⟨htraced.proceed hx hc, List.forall_mem_cons.mpr ⟨⟨hreturned, fun d hd => ?_⟩, ?_⟩⟩
    · refine ⟨(htells d hd).data, fun herror => ?_⟩
      obtain ⟨t, hcompleted, hf⟩ := (htells d hd).error herror
      obtain ⟨f, hf⟩ := Option.isSome_iff_exists.mp hf
      obtain ⟨u, hu, hid⟩ := ((hrun.flights_iff he t.id f).mp hf).mem
      refine ⟨u, ?_, completes_iff.mpr ⟨t, hcompleted, hid.symm⟩⟩
      rw [tickets_cons]
      exact List.mem_append_right _ hu
    · intro m hm
      refine ⟨fun hit hh => ((hall m hm).1 hit hh).append [_], fun d hd => ?_⟩
      obtain ⟨hdata, herror⟩ := (hall m hm).2 d hd
      refine ⟨fun value hv => (hdata value hv).append [_], fun hs => ?_⟩
      obtain ⟨t, ht, hcompletes⟩ := herror hs
      refine ⟨t, ?_, hcompletes⟩
      rw [tickets_cons]
      exact List.mem_append_right _ ht

/-- A reset leaves nothing to be traced. -/
theorem traced_reset {sites : Family → Option Site}
    (h : l.Running sites c.store.archive c.store.volume) (hk : c.store.kind = Record.kind) :
    Traced c.Homes [] c.reset := by
  have hw := h.stocked.wiped h.apart
  refine ⟨⟨hk, Resident.all_of_empty rfl, Lingering.all_of_empty rfl, ?_, ?_⟩,
    Resident.all_of_empty rfl, nofun⟩
  · intro f s hs
    obtain ⟨site, hsite, hh⟩ := hw.held f s hs
    obtain ⟨s', hs', hh'⟩ := h.stocked.held_of_site hsite
    exact ⟨f, s', hs', by rw [hh'.root, hh.root]⟩
  · rintro home ⟨f, s, hs, rfl⟩ d r bytes time hf
    obtain ⟨site, hsite, hh⟩ := h.stocked.held f s hs
    obtain ⟨s', -, hh'⟩ := hw.held_of_site hsite
    rw [hh.root] at hf
    exact (hh'.clean d r bytes time hf).elim

/-- What follows a reset has nothing of what came before it. -/
theorem severed (ht : Traced c.Homes [] c.reset) (hpast : Continues c₀ past c)
    (h : Continues c.reset later c') : Severed c past later c' := by
  obtain ⟨htraced, hall⟩ := h.told_brought ht rfl
  refine ⟨htraced, fun m hm => (hall m hm).1, fun m hm d hd => ((hall m hm).2 d hd).1,
    fun m hm d hd => ((hall m hm).2 d hd).2, fun t hlt => ?_, fun t htickets u hu he => ?_⟩
  · have hnone : c'.flights.get? t.id = none := by
      rw [Option.eq_none_iff_forall_ne_some]
      intro f hf
      obtain ⟨u, hu, hid⟩ := ((h.flights_iff rfl t.id f).mp hf).mem
      have := h.numbered.above u hu
      exact absurd hlt (Nat.not_lt.mpr (hid ▸ this))
    exact ⟨fun reply => by rw [complete_eq, hnone], fun failure => by rw [fail_eq, hnone]⟩
  · have habove : c.nextTicket ≤ t.id := h.numbered.above t htickets
    have hbelow := hpast.numbered.below u hu
    omega

/-- A reset is a barrier. Over a volume whose paths leave room for records, nothing is in flight
after it, nothing is found, no store that is open has a record, and nothing is found either when the
stores are opened again. Whatever calls follow, there is no copy in a tier and no answer is given
that was not brought by a completion since, of a ticket issued since. -/
theorem reset_barrier {p : Setup} {now : Instant} (hv : v.Rooted)
    (hr : ∀ f site, p.layout.sites v.free f = some site → Roomy site.home)
    (hstart : p.start v now = .ok c₀) (h : Continues c₀ past c) :
    Emptied c.reset ∧
    (∀ f, (c.reset.store.archive.get f).isSome = (c.store.archive.get f).isSome) ∧
    (∀ (now' : Instant) (c₁ : Dispatcher α ε), p.start c.reset.store.volume now' = .ok c₁ →
      ∀ r : Request α ε, ∃ c', c₁.lookup r = .ok (none, c')) ∧
    ∀ later c', Continues c.reset later c' → Severed c past later c' := by
  obtain ⟨store, hstore, rfl⟩ := start_ok hstart
  obtain ⟨a, w, hlayout, rfl⟩ := Cache.build_ok hstore
  obtain ⟨hrunning, hfree⟩ := Layout.Running.of_start hlayout hv hr
  have hworked := h.worked
  have hc := hrunning.worked hworked.archive
  have hreset := hrunning.worked hworked.clear.archive
  have hwiped := hc.stocked.wiped hc.apart
  refine ⟨emptied_reset hc, Archive.isSome_get_forEach .wipe (fun _ _ => rfl) _ _,
    fun now' c₁ hagain => lookup_of_vacant hagain hwiped.rooted (fun f site hsite => ?_)
      (hreset.vacated hwiped),
    fun later c' hlater => severed (traced_reset hc hworked.kind_eq) h hlater⟩
  have hsame : c.reset.store.volume.free = v.free := hworked.clear.archive.free_eq.trans hfree
  exact hr f site (hsame ▸ hsite)

/-- The note is kept and asked for again, so that the ticket of its refresh is pending. -/
def keptCalls : List (Call String String) :=
  sizedCalls sizedNote ++ [.setClock 3000, .submit sizedNote 0]

/-- The old ticket is completed, and then the note is fetched anew. -/
def renewedCalls : List (Call String String) :=
  [.complete ⟨2, 7, sizedNote.key, true⟩ noteReply, .submit sizedNote 0,
    .complete ⟨3, 7, sizedNote.key, false⟩ noteReply]

/-- The note is found before the reset, and after it once it was fetched anew. -/
theorem reset_barrier_note : ∃ c₀ past c later c', Volume.empty.Rooted ∧
    (∀ f site, noteSetup.layout.sites none f = some site → Roomy site.home) ∧
    noteSetup.start Volume.empty 1000 = .ok c₀ ∧ Continues c₀ past c ∧
    c.value? sizedNote = some "hi" ∧ c.flightCount = 1 ∧ Emptied c.reset ∧
    Continues c.reset later c' ∧ tickets later = [⟨3, 7, sizedNote.key, false⟩] ∧
    c'.value? sizedNote = some "hi" ∧ Severed c past later c' := by
  obtain ⟨c₀, past, c, hstart, hc, hcheck⟩ := continues_of_trial noteSetup Volume.empty 1000
    keptCalls (fun _ c => c.value? sizedNote = some "hi" ∧ c.flightCount = 1 ∧
      (follow [] c.reset renewedCalls).toOption.any (fun r =>
        tickets r.1 = [⟨3, 7, sizedNote.key, false⟩] ∧ r.2.value? sizedNote = some "hi") = true)
    (by simp [keptCalls, sizedCalls]) (by decide +kernel)
  obtain ⟨hvalue, hflights, hlater⟩ := of_decide_eq_true hcheck
  obtain ⟨⟨later, c'⟩, hfollow, hcheck⟩ := exists_of_any hlater
  obtain ⟨htickets, hrenewed⟩ := of_decide_eq_true hcheck
  have hlater : Continues c.reset later c' :=
    continues_of_follow (by simp [renewedCalls]) hfollow
  have hroomy : ∀ f site, noteSetup.layout.sites none f = some site → Roomy site.home :=
    Layout.usable_store.roomy
  obtain ⟨hemptied, -, -, hsevered⟩ := reset_barrier rooted_empty hroomy hstart hc
  exact ⟨c₀, past, c, later, c', rooted_empty, hroomy, hstart, hc, hvalue, hflights, hemptied,
    hlater, htickets, hrenewed, hsevered later c' hlater⟩

end TierCache.Dispatcher
