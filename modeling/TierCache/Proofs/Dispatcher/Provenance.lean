import TierCache.Proofs.Dispatcher.Run
import TierCache.Proofs.Record

/-!
# Where the answers of a dispatcher come from

Bodies and their metadata are only ever made together, when a reply completes a ticket, and travel
together through all tiers: as a record in memory, in the overflow tier and on disk, or with the
parsed value. So each copy can be traced to the completion that it was made at.
-/
namespace TierCache

/-- The metadata that a reply has under a policy. -/
def Metadata.ofReply (reply : Reply) (received : Instant) (p : Policy) : Metadata :=
  { ofLifetime (reply.serverTimestamp received) received p.timeToRefresh p.timeToLive with
    alwaysRetain := p.alwaysRetain }

theorem Record.kind_decode (r : Record) (bytes : List UInt8) (h : kind.encode r = .ok bytes) :
    kind.decode bytes = .ok r := by
  simp only [kind] at h ⊢
  exact decode_of_encode h

theorem Parsed.all_put {α : Type} {P : String → ParsedValue α → Prop} {d d' : Parsed α}
    {key : String} {value : α} {metadata : Metadata} (h : Resident.All P d)
    (hv : P (Key.normalize key) ⟨value, metadata⟩) (hc : Parsed.put d key value metadata = .ok d') :
    Resident.All P d' := by
  simp only [Parsed.put] at hc
  obtain ⟨p, hput, hc⟩ := bind_eq_ok_iff.mp hc
  cases hc
  exact (h.put hv hput).1

namespace Dispatcher

variable {α ε : Type} {l : Layout} {homes : Path → Prop} {v : Volume} {past : List (Moment α ε)}
variable {m : Moment α ε} {c c' : Dispatcher α ε} {r : Request α ε}

/-- A body and its metadata come from a reply that completed a ticket of the digest's key. -/
def Source (past : List (Moment α ε)) (d : Digest) (body : List UInt8) (metadata : Metadata) :
    Prop :=
  ∃ q reply received, Completed past q reply received ∧ reply.body = body ∧
    metadata = .ofReply reply received q.policy ∧ .ofKey (Key.normalize q.key) = d

/-- A value was read from a body by a request of the key. -/
def Parses (past : List (Moment α ε)) (key : String) (body : List UInt8) (value : α) : Prop :=
  ∃ q, Asked past q ∧ Key.normalize q.key = key ∧ q.parser.parse body = .ok value

/-- Every copy in every tier has a source, those in the homes of the stores too, and every flight
was issued for a request. -/
structure Traced (homes : Path → Prop) (past : List (Moment α ε)) (c : Dispatcher α ε) : Prop where
  store : c.store.Traced Record.kind (fun d r => Source past d r.payload r.metadata) homes
  parsed : Resident.All (fun k v => ∃ body, Source past (.ofKey k) body v.metadata ∧
    Parses past k body v.value) c.parsed
  flights : ∀ id f, c.flights.get? id = some f → ∃ q, Issued past id q ∧ IsFor f q

/-- An answer from the cache has a source, and was not changed on its way. -/
structure Answer (past : List (Moment α ε)) (r : Request α ε) (now : Instant) (hit : Hit α) :
    Prop where
  source : ∃ body, Source past (.ofKey (Key.normalize r.key)) body hit.metadata ∧
    Parses past (Key.normalize r.key) body hit.value
  accepted : r.parser.accepts hit.value = true
  freshness : hit.freshness = .ofMetadata hit.metadata now

/-- All but the tiers is the same. -/
structure Beside (c c' : Dispatcher α ε) : Prop where
  now : c'.now = c.now
  flights : c'.flights = c.flights
  nextTicket : c'.nextTicket = c.nextTicket
  dropped : c'.dropped = c.dropped

theorem Source.cons {d : Digest} {body : List UInt8} {metadata : Metadata}
    (h : Source past d body metadata) (m : Moment α ε) : Source (m :: past) d body metadata := by
  obtain ⟨q, reply, received, hc, h⟩ := h
  exact ⟨q, reply, received, hc.cons m, h⟩

theorem Parses.cons {key : String} {body : List UInt8} {value : α}
    (h : Parses past key body value) (m : Moment α ε) : Parses (m :: past) key body value := by
  obtain ⟨q, hq, h⟩ := h
  exact ⟨q, hq.cons m, h⟩

theorem fail_cases (c : Dispatcher α ε) (t : Ticket) (failure : FetchFailure) :
    (c.fail t failure).2 = c ∨ (c.fail t failure).2 = c.land t.id := by
  rw [Dispatcher.fail]
  split
  · exact .inl rfl
  · exact .inr rfl

namespace Traced

theorem cons (h : Traced homes past c) (m : Moment α ε) : Traced homes (m :: past) c where
  store := h.store.mono fun _ _ hs => hs.cons m
  parsed := h.parsed.mono fun _ _ ⟨body, hs, hp⟩ => ⟨body, hs.cons m, hp.cons m⟩
  flights := fun id f hf =>
    let ⟨q, hi, hq⟩ := h.flights id f hf
    ⟨q, hi.cons m, hq⟩

/-- Only the store may change. -/
theorem of_store (h : Traced homes past c) {store : RecordCache}
    (hs : store.Traced Record.kind (fun d r => Source past d r.payload r.metadata) homes) :
    Traced homes past { c with store } where
  store := hs
  parsed := h.parsed
  flights := h.flights

theorem parsedHit (h : Traced homes past c) (r : Request α ε) :
    Traced homes past (c.parsedHit r).2 ∧ Beside c (c.parsedHit r).2 ∧
      ∀ hit, (c.parsedHit r).1 = some hit → Answer past r c.now hit := by
  rw [Dispatcher.parsedHit]
  split
  · refine ⟨⟨h.store, h.parsed.get _, h.flights⟩, ⟨rfl, rfl, rfl, rfl⟩, fun hit hhit => ?_⟩
    simp only [Option.filter_eq_some_iff, Option.map_eq_some_iff] at hhit
    obtain ⟨⟨p, hp, rfl⟩, -⟩ := hhit
    simp only [Parsed.get, Option.filter_eq_some_iff] at hp
    exact ⟨h.parsed.of_get hp.1, hp.2, rfl⟩
  · exact ⟨h, ⟨rfl, rfl, rfl, rfl⟩, fun hit hhit => by cases hhit⟩

theorem putParsed (h : Traced homes past c) {key : String} {value : α} {metadata : Metadata}
    {body : List UInt8} (hs : Source past (.ofKey (Key.normalize key)) body metadata)
    (hp : Parses past (Key.normalize key) body value) {parsed : Parsed α}
    (hc : Parsed.put c.parsed key value metadata = .ok parsed) :
    Traced homes past { c with parsed } :=
  ⟨h.store, Parsed.all_put h.parsed ⟨body, hs, hp⟩ hc, h.flights⟩

theorem storedHit (h : Traced homes past c) (hr : Asked past r) {hit : Option (Hit α)}
    (hc : c.storedHit r = .ok (hit, c')) :
    Traced homes past c' ∧ Beside c c' ∧ ∀ x, hit = some x → Answer past r c.now x := by
  simp only [Dispatcher.storedHit] at hc
  obtain ⟨found, hfind, hc⟩ := bind_eq_ok_iff.mp hc
  obtain ⟨hstore, hsource⟩ := h.store.find Record.kind_decode hfind
  have hfound : Traced homes past { c with store := found.2 } := h.of_store hstore
  split at hc
  · cases hc
    exact ⟨hfound, ⟨rfl, rfl, rfl, rfl⟩, fun x hx => by cases hx⟩
  · rename_i rec hrec
    have hs := hsource rec hrec
    split at hc
    · cases hc
      exact ⟨hfound.of_store (hfound.store.remove r.key), ⟨rfl, rfl, rfl, rfl⟩,
        fun x hx => by cases hx⟩
    · rename_i value hvalue
      have hp : Parses past (Key.normalize r.key) rec.value.payload value := ⟨r, hr, rfl, hvalue⟩
      have hanswer : Answer past r c.now
          ⟨value, rec.value.metadata, .ofMetadata rec.value.metadata c.now⟩ :=
        ⟨⟨_, hs, hp⟩, r.parser.accepts_parse hvalue, rfl⟩
      split at hc
      · obtain ⟨parsed, hput, hc⟩ := bind_eq_ok_iff.mp hc
        cases hc
        refine ⟨hfound.putParsed hs hp hput, ⟨rfl, rfl, rfl, rfl⟩, fun x hx => ?_⟩
        cases hx
        exact hanswer
      · cases hc
        refine ⟨hfound, ⟨rfl, rfl, rfl, rfl⟩, fun x hx => ?_⟩
        cases hx
        exact hanswer

theorem fromCache (h : Traced homes past c) (hr : Asked past r) {hit : Option (Hit α)}
    (hc : c.fromCache r = .ok (hit, c')) :
    Traced homes past c' ∧ Beside c c' ∧ ∀ x, hit = some x → Answer past r c.now x := by
  obtain ⟨hparsed, hbeside, hanswer⟩ := h.parsedHit r
  rw [Dispatcher.fromCache] at hc
  split at hc
  · rename_i x c₁ hx
    rw [hx] at hparsed hbeside hanswer
    cases hc
    exact ⟨hparsed, hbeside, hanswer⟩
  · rename_i c₁ hx
    rw [hx] at hparsed hbeside
    obtain ⟨hstored, hbeside', hanswer'⟩ := hparsed.storedHit hr hc
    rw [hbeside.now] at hanswer'
    exact ⟨hstored, ⟨hbeside'.now.trans hbeside.now, hbeside'.flights.trans hbeside.flights,
      hbeside'.nextTicket.trans hbeside.nextTicket, hbeside'.dropped.trans hbeside.dropped⟩,
      hanswer'⟩

/-- What a look-up answers has a source and may still be served. -/
theorem lookup (h : Traced homes past c) (hr : Asked past r) {hit : Option (Hit α)}
    (hc : c.lookup r = .ok (hit, c')) :
    Traced homes past c' ∧ Beside c c' ∧
      ∀ x, hit = some x → Answer past r c.now x ∧ c.now < x.metadata.hardExpiry := by
  rw [Dispatcher.lookup] at hc
  split at hc
  · obtain ⟨p, hp, hc⟩ := bind_eq_ok_iff.mp hc
    cases hc
    obtain ⟨ht, hbeside, hanswer⟩ := h.fromCache hr hp
    refine ⟨ht, hbeside, fun x hx => ?_⟩
    simp only [Option.filter_eq_some_iff] at hx
    have ha := hanswer x hx.1
    have hserve := hx.2
    rw [ha.freshness, Freshness.mayServe_ofMetadata, decide_eq_true_eq] at hserve
    exact ⟨ha, hserve⟩
  · cases hc
    exact ⟨h, ⟨rfl, rfl, rfl, rfl⟩, fun x hx => by cases hx⟩

theorem issue (h : Traced homes past c) (hi : Issued past c.nextTicket r) (callback : Nat)
    (refresh : Bool) : Traced homes past (c.issue r callback refresh).2 where
  store := h.store
  parsed := h.parsed
  flights := by
    intro id f hf
    simp only [Dispatcher.issue, Table.get?_set] at hf
    split at hf
    · rename_i he
      cases hf
      exact ⟨r, he ▸ hi, rfl, rfl, rfl⟩
    · exact h.flights id f hf

theorem land (h : Traced homes past c) (id : Nat) : Traced homes past (c.land id) where
  store := h.store
  parsed := h.parsed
  flights := by
    intro id' f hf
    simp only [Dispatcher.land, Table.get?_erase, Option.ite_none_left_eq_some] at hf
    exact h.flights id' f hf.2

theorem fail (h : Traced homes past c) (t : Ticket) (failure : FetchFailure) :
    Traced homes past (c.fail t failure).2 := by
  cases fail_cases c t failure with
  | inl hf => rwa [hf]
  | inr hf =>
    rw [hf]
    exact h.land t.id

theorem cancel (h : Traced homes past c) (t : Ticket) : Traced homes past (c.cancel t).2 := by
  rw [Dispatcher.cancel]
  split
  · exact h
  · rename_i f hf
    refine ⟨h.store, h.parsed, fun id g hg => ?_⟩
    simp only [Table.get?_set] at hg
    split at hg
    · rename_i he
      cases hg
      obtain ⟨q, hi, hq⟩ := h.flights t.id f hf
      exact ⟨q, he ▸ hi, hq.key, hq.policy, hq.parser⟩
    · exact h.flights id g hg

end Traced

/-- What a submission comes to. -/
theorem submit_cases {callback : Nat} {s : Submission} {told : List (Delivery α ε)}
    (hc : c.submit r callback = .ok (s, told, c')) :
    ∃ hit c₁, c.lookup r = .ok (hit, c₁) ∧
      (hit = none ∧ s = .fetching (c₁.issue r callback false).1 ∧ told = [] ∧
          c' = (c₁.issue r callback false).2 ∨
        ∃ x, hit = some x ∧
          told = c₁.tell ⟨callback, r.id, { ResultSummary.success x.metadata.serverTimestamp with
            dataIsRefreshing := x.freshness.fetch = .background }, some x.value, none⟩ ∧
          (x.freshness = .fresh ∧ s = .served ∧ c' = c₁ ∨
            x.freshness = .stale ∧ s = .refreshing (c₁.issue r callback true).1 ∧
              c' = (c₁.issue r callback true).2 ∨
            x.freshness = .expired ∧ s = .fetching (c₁.issue r callback false).1 ∧
              c' = (c₁.issue r callback false).2)) := by
  simp only [Dispatcher.submit] at hc
  obtain ⟨p, hp, hc⟩ := bind_eq_ok_iff.mp hc
  obtain ⟨hit, c₁⟩ := p
  refine ⟨hit, c₁, hp, ?_⟩
  cases hit with
  | none =>
    cases hc
    exact .inl ⟨rfl, rfl, rfl, rfl⟩
  | some x =>
    refine .inr ⟨x, rfl, ?_⟩
    cases hf : x.freshness with
    | fresh =>
      simp only [hf, Freshness.fetch] at hc ⊢
      cases hc
      exact ⟨rfl, .inl ⟨trivial, rfl, rfl⟩⟩
    | stale =>
      simp only [hf, Freshness.fetch] at hc ⊢
      cases hc
      exact ⟨rfl, .inr (.inl ⟨trivial, rfl, rfl⟩)⟩
    | expired =>
      simp only [hf, Freshness.fetch] at hc ⊢
      cases hc
      exact ⟨rfl, .inr (.inr ⟨trivial, rfl, rfl⟩)⟩

/-- What completing a ticket comes to: only a reply that is parsed is kept. -/
theorem complete_cases {t : Ticket} {reply : Reply} {told : List (Delivery α ε)}
    (hc : c.complete t reply = .ok (told, c')) :
    c' = c ∨ c' = c.land t.id ∨ ∃ f value, c.flights.get? t.id = some f ∧
      reply.isSuccess = true ∧ f.parser.parse reply.body = .ok value ∧
      (c.land t.id).keep f reply value ((c.land t.id).metadataOf f reply) = .ok c' := by
  rw [Dispatcher.complete] at hc
  split at hc
  · have hfail := fail_cases c t (.http reply.status reply.body)
    rw [Except.ok.inj hc] at hfail
    exact hfail.imp id .inl
  · rename_i hsuccess
    simp only [Bool.not_eq_true', Bool.not_eq_false] at hsuccess
    split at hc
    · cases hc
      exact .inl rfl
    · rename_i f hf
      simp only at hc
      split at hc
      · cases hc
        exact .inr (.inl rfl)
      · rename_i value hvalue
        obtain ⟨c₁, hkeep, hc⟩ := bind_eq_ok_iff.mp hc
        cases hc
        exact .inr (.inr ⟨f, value, hf, hsuccess, hvalue, hkeep⟩)

/-- The record of a reply. -/
def recordOf (f : Flight α ε) (reply : Reply) (metadata : Metadata) : Record :=
  ⟨Key.normalize f.key, metadata, reply.headers, reply.body⟩

/-- What is kept of a reply, in the store and among the parsed values, is as the policy says. -/
theorem keep_ok {f : Flight α ε} {reply : Reply} {value : α} {metadata : Metadata}
    (hc : c.keep f reply value metadata = .ok c') :
    ∃ store parsed, c' = { c with store, parsed } ∧
      (if f.policy.caches then
        (c.store.share (recordOf f reply metadata)).2.put f.key
          (c.store.share (recordOf f reply metadata)).1 f.policy.placement = .ok store
      else store = c.store) ∧
      if f.policy.parsed.writes then Parsed.put c.parsed f.key value metadata = .ok parsed
      else parsed = c.parsed := by
  simp only [Dispatcher.keep] at hc
  split at hc
  · rename_i hcaches
    obtain ⟨store, hstore, hc⟩ := bind_eq_ok_iff.mp hc
    split at hc
    · rename_i hwrites
      obtain ⟨parsed, hparsed, hc⟩ := bind_eq_ok_iff.mp hc
      cases hc
      exact ⟨store, parsed, rfl, (if_pos hcaches).mpr hstore, (if_pos hwrites).mpr hparsed⟩
    · rename_i hwrites
      cases hc
      exact ⟨store, _, rfl, (if_pos hcaches).mpr hstore, (if_neg hwrites).mpr rfl⟩
  · rename_i hcaches
    obtain ⟨store, hstore, hc⟩ := bind_eq_ok_iff.mp hc
    cases hstore
    split at hc
    · rename_i hwrites
      obtain ⟨parsed, hparsed, hc⟩ := bind_eq_ok_iff.mp hc
      cases hc
      exact ⟨_, parsed, rfl, (if_neg hcaches).mpr rfl, (if_pos hwrites).mpr hparsed⟩
    · rename_i hwrites
      cases hc
      exact ⟨_, _, rfl, (if_neg hcaches).mpr rfl, (if_neg hwrites).mpr rfl⟩

namespace Traced

theorem submit (h : Traced homes past c) {callback : Nat} {s : Submission}
    {told : List (Delivery α ε)} (hc : c.submit r callback = .ok (s, told, c')) :
    Traced homes (⟨c, .submit r callback⟩ :: past) c' := by
  have hr : Asked (⟨c, .submit r callback⟩ :: past) r := asked_cons.mpr (.inl rfl)
  obtain ⟨hit, c₁, hl, hcases⟩ := submit_cases hc
  obtain ⟨hlooked, hbeside, -⟩ := (h.cons _).lookup hr hl
  have issued : ∀ refresh, s.ticket? = some (c₁.issue r callback refresh).1 →
      Traced homes (⟨c, .submit r callback⟩ :: past) (c₁.issue r callback refresh).2 := by
    intro refresh hs
    refine hlooked.issue ?_ callback refresh
    exact ⟨c, callback, s, told, c', _, List.mem_cons_self, hc, hs, rfl⟩
  rcases hcases with ⟨-, rfl, -, rfl⟩ | ⟨x, -, -, hcases⟩
  · exact issued false rfl
  · rcases hcases with ⟨-, -, rfl⟩ | ⟨-, rfl, rfl⟩ | ⟨-, rfl, rfl⟩
    · exact hlooked
    · exact issued true rfl
    · exact issued false rfl

theorem submitOffline (h : Traced homes past c) {callback : Nat} {told : List (Delivery α ε)}
    (hc : c.submitOffline r callback = .ok (told, c')) :
    Traced homes (⟨c, .submitOffline r callback⟩ :: past) c' := by
  have hr : Asked (⟨c, .submitOffline r callback⟩ :: past) r := asked_cons.mpr (.inl rfl)
  simp only [Dispatcher.submitOffline] at hc
  obtain ⟨p, hp, hc⟩ := bind_eq_ok_iff.mp hc
  have hfound := ((h.cons _).fromCache hr hp).1
  split at hc
  · cases hc
    exact hfound
  · cases hc
    exact hfound

/-- What is kept of a reply has that reply as its source. -/
theorem keep (h : Traced homes past c) {f : Flight α ε} {q : Request α ε} {reply : Reply}
    {value : α} (hf : IsFor f q) (hdone : Completed past q reply c.now)
    (hvalue : f.parser.parse reply.body = .ok value)
    (hc : c.keep f reply value (c.metadataOf f reply) = .ok c') : Traced homes past c' := by
  have hs : Source past (.ofKey (Key.normalize f.key)) reply.body (c.metadataOf f reply) := by
    refine ⟨q, reply, c.now, hdone, rfl, ?_, by rw [hf.key]⟩
    rw [metadataOf, hf.policy]
    rfl
  have hp : Parses past (Key.normalize f.key) reply.body value :=
    ⟨q, hdone.asked, by rw [hf.key], hf.parser ▸ hvalue⟩
  obtain ⟨store, parsed, rfl, hstore, hparsed⟩ := keep_ok hc
  have hput : Traced homes past { c with store } := by
    split at hstore
    · exact h.of_store (Cache.Traced.put (h.store.share _) hs hstore)
    · rwa [hstore]
  split at hparsed
  · exact hput.putParsed hs hp hparsed
  · rwa [hparsed]

theorem complete (h : Traced homes past c) {t : Ticket} {reply : Reply} {told : List (Delivery α ε)}
    (hc : c.complete t reply = .ok (told, c')) :
    Traced homes (⟨c, .complete t reply⟩ :: past) c' := by
  rcases complete_cases hc with rfl | rfl | ⟨f, value, hf, hsuccess, hvalue, hkeep⟩
  · exact h.cons _
  · exact (h.cons _).land t.id
  · obtain ⟨q, hi, hq⟩ := h.flights t.id f hf
    have hdone : Completed (⟨c, .complete t reply⟩ :: past) q reply c.now :=
      ⟨[], past, c, t, f, rfl, hi, hf, hq, rfl, hsuccess, value, hq.parser ▸ hvalue⟩
    exact ((h.cons _).land t.id).keep hq hdone hvalue hkeep

theorem reset (h : Traced homes past c) : Traced homes past c.reset where
  store := h.store.clear
  parsed := Resident.all_of_empty rfl
  flights := fun id f hf => by cases hf

theorem clearIf (h : Traced homes past c) (p : String → Bool) :
    Traced homes past (c.clearIf p).2 where
  store := h.store.removeIf p
  parsed := Resident.all_of_empty rfl
  flights := h.flights

end Traced

theorem start_ok {p : Setup} {now : Instant} (h : p.start v now = .ok c) :
    ∃ store, p.design.build v = .ok store ∧ c = .new store p.parsedEntries now := by
  simp only [Setup.start] at h
  obtain ⟨store, hs, h⟩ := bind_eq_ok_iff.mp h
  cases h
  exact ⟨store, hs, rfl⟩

/-- A dispatcher that is made over traced records has nothing in memory or in flight. -/
theorem Traced.of_start {p : Setup} {now : Instant}
    (hp : ∀ home, p.layout.Home home → homes home) (h : p.start v now = .ok c)
    (hv : v.Vouched homes fun d bytes => ∃ r : Record, Source past d r.payload r.metadata ∧
      Record.kind.encode r = .ok bytes) : Traced homes past c := by
  obtain ⟨store, hs, rfl⟩ := start_ok h
  obtain ⟨a, w, hstart, rfl⟩ := Cache.build_ok hs
  obtain ⟨ha, hw⟩ := Layout.start_vouched hstart hv hp
  exact ⟨.of_new ha hw _ _, Resident.all_of_empty rfl, fun id f hf => by cases hf⟩

/-- Every call keeps all that is in the tiers traced to what was completed. -/
theorem Traced.proceed (h : Traced homes past c) {x : Call α ε} (hx : ∀ p now, x ≠ .reopen p now)
    (hc : c.call x = .ok c') : Traced homes (⟨c, x⟩ :: past) c' := by
  have hcons := h.cons ⟨c, x⟩
  have hs := hcons.store
  cases x with
  | submit r callback =>
    obtain ⟨p, hp, hc⟩ := bind_eq_ok_iff.mp hc
    cases hc
    exact h.submit hp
  | submitOffline r callback =>
    obtain ⟨p, hp, hc⟩ := bind_eq_ok_iff.mp hc
    cases hc
    exact h.submitOffline hp
  | lookup r =>
    obtain ⟨p, hp, hc⟩ := bind_eq_ok_iff.mp hc
    cases hc
    exact (hcons.lookup (asked_cons.mpr (.inl rfl)) hp).1
  | complete t reply =>
    obtain ⟨p, hp, hc⟩ := bind_eq_ok_iff.mp hc
    cases hc
    exact h.complete hp
  | fail t failure =>
    cases hc
    exact hcons.fail t failure
  | cancel t =>
    cases hc
    exact hcons.cancel t
  | dropCallback callback =>
    cases hc
    exact ⟨hs, hcons.parsed, hcons.flights⟩
  | reset =>
    cases hc
    exact hcons.reset
  | clearIf p =>
    cases hc
    exact hcons.clearIf p
  | setClock now =>
    cases hc
    exact ⟨hs, hcons.parsed, hcons.flights⟩
  | setTime now =>
    cases hc
    exact hcons.of_store (hs.setTime now)
  | hold id =>
    cases hc
    exact hcons.of_store (hs.of_tiers rfl rfl rfl hs.resident hs.lingering)
  | release id =>
    cases hc
    exact hcons.of_store (hs.of_tiers rfl rfl rfl hs.resident hs.lingering)
  | resizeMemory capacity =>
    cases hc
    exact hcons.of_store (hs.resizeMemory capacity)
  | clearResident =>
    cases hc
    exact hcons.of_store (hs.of_tiers rfl rfl rfl (Resident.all_of_empty rfl) hs.lingering)
  | clearLingering =>
    cases hc
    exact hcons.of_store (hs.of_tiers rfl rfl rfl hs.resident (Lingering.all_of_empty rfl))
  | dropWindow =>
    cases hc
    exact hcons.of_store (hs.of_tiers rfl rfl rfl hs.resident hs.lingering)
  | sweep =>
    cases hc
    exact hcons.of_store hs.sweep
  | reopen p now => exact absurd rfl (hx p now)

/-- A dispatcher that is made again finds what it left. -/
theorem Traced.step (h : Traced l.Home past c) {x : Call α ε} (hx : Admits l x)
    (hc : c.call x = .ok c') : Traced l.Home (⟨c, x⟩ :: past) c' := by
  cases x with
  | reopen p now => exact .of_start hx hc (h.cons ⟨c, .reopen p now⟩).store.vouched
  | _ => exact h.proceed (by simp) hc

/-- Every run keeps all that is in its tiers traced to what was completed in it. -/
theorem Reaches.traced (hv : v.Vouched l.Home fun _ _ => False) (h : Reaches l v past c) :
    Traced l.Home past c := by
  induction h with
  | start hp h => exact .of_start hp h (hv.mono fun _ _ hf => hf.elim)
  | step _ hx hc ih => exact ih.step hx hc

end Dispatcher

end TierCache
