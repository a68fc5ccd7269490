import TierCache.Proofs.Dispatcher.Provenance

/-!
# Nothing is served once it has expired

Whichever tier answers, what is served was read from the body of a reply that completed a ticket of
the same slot, has the metadata that the policy of that ticket gave it then, and has not reached
its hard expiry. What a submission does besides follows from the soft expiry alone.
-/
namespace TierCache.Dispatcher

variable {α ε : Type} {l : Layout} {v : Volume} {past : List (Moment α ε)}
variable {c c' : Dispatcher α ε} {r : Request α ε}

/-- An answer that may be served: its value was read, by the request or by one before it, from a
body with which a ticket of the slot was completed, under the metadata of that completion, and the
hard expiry is still to come. -/
structure Servable (past : List (Moment α ε)) (r : Request α ε) (now : Instant) (hit : Hit α) :
    Prop where
  completed : ∃ q reply received, Completed past q reply received ∧
    Key.normalize q.key = Key.normalize r.key ∧
    hit.metadata = .ofReply reply received q.policy ∧
    ∃ p, (p = r ∨ Asked past p) ∧ Key.normalize p.key = Key.normalize r.key ∧
      p.parser.parse reply.body = .ok hit.value
  accepted : r.parser.accepts hit.value = true
  unexpired : now < hit.metadata.hardExpiry

/-- What a submission does, by what a look-up answers. -/
structure Outcome (c : Dispatcher α ε) (r : Request α ε) (callback : Nat) (hit : Option (Hit α))
    (s : Submission) (told : List (Delivery α ε)) (c' : Dispatcher α ε) : Prop where
  served : s = .served ↔ ∃ x, hit = some x ∧ c.now < x.metadata.softExpiry
  refreshing : (∃ t, s = .refreshing t) ↔ ∃ x, hit = some x ∧ x.metadata.softExpiry ≤ c.now
  fetching : (∃ t, s = .fetching t) ↔ hit = none
  told_eq : told = match hit with
    | none => []
    | some x => c.tell ⟨callback, r.id, { ResultSummary.success x.metadata.serverTimestamp with
        dataIsRefreshing := x.metadata.softExpiry ≤ c.now }, some x.value, none⟩
  unissued : s.ticket? = none → c'.flights = c.flights ∧ c'.nextTicket = c.nextTicket
  issued : ∀ t, s.ticket? = some t → t = ⟨c.nextTicket, r.id, r.key, hit.isSome⟩ ∧
    c'.nextTicket = c.nextTicket + 1 ∧
    ∃ f, IsFor f r ∧ c'.flights = c.flights.set t.id f

/-- What may be served is stale from its soft expiry on. -/
theorem ofMetadata_of_lt {m : Metadata} {now : Instant} (h : now < m.hardExpiry) :
    Freshness.ofMetadata m now = if m.softExpiry ≤ now then .stale else .fresh := by
  rw [Freshness.ofMetadata, if_neg (UInt64.not_le.mpr h)]

/-- A ticket is issued under the next number, and nothing else is put in flight. -/
theorem issued_issue {c₁ : Dispatcher α ε} (hb : Beside c c₁) (r : Request α ε) (callback : Nat)
    (refresh : Bool) : (c₁.issue r callback refresh).1 = ⟨c.nextTicket, r.id, r.key, refresh⟩ ∧
      (c₁.issue r callback refresh).2.nextTicket = c.nextTicket + 1 ∧
      ∃ f, IsFor f r ∧ (c₁.issue r callback refresh).2.flights = c.flights.set c.nextTicket f := by
  refine ⟨?_, ?_, ⟨r.key, r.id, r.policy, callback, r.parser, r.errorReader, false⟩,
    ⟨rfl, rfl, rfl⟩, ?_⟩
  · rw [Dispatcher.issue, hb.nextTicket]
  · rw [Dispatcher.issue, hb.nextTicket]
  · rw [Dispatcher.issue, hb.nextTicket, hb.flights]

/-- A submission serves what a look-up answers, and fetches as its freshness asks. -/
theorem submit_outcome {callback : Nat} {s : Submission} {told : List (Delivery α ε)}
    (hc : c.submit r callback = .ok (s, told, c'))
    (hl : ∀ hit c₁, c.lookup r = .ok (hit, c₁) → Beside c c₁ ∧ ∀ x, hit = some x →
      x.freshness = .ofMetadata x.metadata c.now ∧ c.now < x.metadata.hardExpiry) :
    ∃ hit c₁, c.lookup r = .ok (hit, c₁) ∧ Outcome c r callback hit s told c' := by
  obtain ⟨hit, c₁, hlook, hcases⟩ := submit_cases hc
  obtain ⟨hb, hx⟩ := hl hit c₁ hlook
  refine ⟨hit, c₁, hlook, ?_⟩
  have tell_eq : ∀ d : Delivery α ε, c₁.tell d = c.tell d := by
    intro d
    rw [Dispatcher.tell, hb.dropped]
    rfl
  rcases hcases with ⟨rfl, rfl, rfl, rfl⟩ | ⟨x, rfl, rfl, hcases⟩
  · have hi := issued_issue hb r callback false
    refine ⟨by simp, by simp, by simp, rfl, by simp [Submission.ticket?], fun t ht => ?_⟩
    cases ht
    refine ⟨hi.1, hi.2.1, ?_⟩
    rw [hi.1]
    exact hi.2.2
  · obtain ⟨hf, hlt⟩ := hx x rfl
    rw [ofMetadata_of_lt hlt] at hf
    by_cases hsoft : x.metadata.softExpiry ≤ c.now
    · rw [if_pos hsoft] at hf
      have hsoft' : ¬ c.now < x.metadata.softExpiry := UInt64.not_lt.mpr hsoft
      simp only [hf, reduceCtorEq, false_and, true_and, false_or, or_false] at hcases
      obtain ⟨rfl, rfl⟩ := hcases
      have hi := issued_issue hb r callback true
      refine ⟨by simp [hsoft'], by simp [hsoft], by simp, ?_, by simp [Submission.ticket?],
        fun t ht => ?_⟩
      · simp only [hf, Freshness.fetch, hsoft, decide_true, tell_eq]
      · cases ht
        refine ⟨hi.1, hi.2.1, ?_⟩
        rw [hi.1]
        exact hi.2.2
    · rw [if_neg hsoft] at hf
      have hsoft' : c.now < x.metadata.softExpiry := UInt64.not_le.mp hsoft
      simp only [hf, reduceCtorEq, false_and, true_and, or_false] at hcases
      obtain ⟨rfl, rfl⟩ := hcases
      refine ⟨by simp [hsoft'], by simp [hsoft], by simp, ?_, fun _ => ⟨hb.flights, hb.nextTicket⟩,
        fun t ht => by cases ht⟩
      simp only [hf, Freshness.fetch, hsoft, decide_false, tell_eq]
      rfl

/-- An answer of a look-up may be served. -/
theorem Answer.servable {m : Moment α ε} {x : Hit α} (ha : Answer (m :: past) r c.now x)
    (hx : c.now < x.metadata.hardExpiry) (hm : ∀ t reply, m.call ≠ .complete t reply)
    (hr : m.call.request? = some r)
    (hu : ∀ q, Asked past q → Digest.ofKey (Key.normalize q.key) =
      Digest.ofKey (Key.normalize r.key) → Key.normalize q.key = Key.normalize r.key) :
    Servable past r c.now x := by
  obtain ⟨body, ⟨q, reply, received, hdone, rfl, hmeta, hd⟩, p, hp, hkey, hparse⟩ := ha.source
  have hdone := hdone.of_cons hm
  refine ⟨⟨q, reply, received, hdone, hu q hdone.asked hd, hmeta, p, ?_, hkey, hparse⟩,
    ha.accepted, hx⟩
  rw [asked_cons, hr, Option.some.injEq] at hp
  exact hp.imp Eq.symm id

/-- No run serves anything from the cache that has expired or that no reply to its slot brought, and
each submission fetches exactly what the freshness of its answer asks for. The directory holds no
records at first, and no two keys of the run have one digest. -/
theorem served_unexpired
    (hv : ∀ home, l.Home home → ∀ d k, v.fileAt? (Disk.recordPlace home d k) = none)
    (h : Reaches l v past c) (r : Request α ε)
    (hu : ∀ q, Asked past q → Digest.ofKey (Key.normalize q.key) =
      Digest.ofKey (Key.normalize r.key) → Key.normalize q.key = Key.normalize r.key) :
    (∀ x c', c.lookup r = .ok (some x, c') → Servable past r c.now x) ∧
      ∀ callback s told c', c.submit r callback = .ok (s, told, c') →
        ∃ hit c₁, c.lookup r = .ok (hit, c₁) ∧ (∀ x, hit = some x → Servable past r c.now x) ∧
          Outcome c r callback hit s told c' := by
  have ht : Traced l.Home past c := h.traced fun home hh d k bytes time hf => by
    rw [hv home hh d k] at hf
    cases hf
  -- the request is asked by the very call that is answered
  have answers : ∀ (x : Call α ε) (hit : Option (Hit α)) (c₁ : Dispatcher α ε),
      x.request? = some r → (∀ t reply, x ≠ .complete t reply) → c.lookup r = .ok (hit, c₁) →
      Beside c c₁ ∧ ∀ y, hit = some y → y.freshness = .ofMetadata y.metadata c.now ∧
        c.now < y.metadata.hardExpiry ∧ Servable past r c.now y := by
    intro x hit c₁ hr hx hl
    obtain ⟨-, hb, ha⟩ := (ht.cons ⟨c, x⟩).lookup (asked_cons.mpr (.inl hr)) hl
    refine ⟨hb, fun y hy => ?_⟩
    obtain ⟨hanswer, hlt⟩ := ha y hy
    exact ⟨hanswer.freshness, hlt, hanswer.servable hlt hx hr hu⟩
  refine ⟨fun x c₁ hc => ?_, fun callback s told c₁ hc => ?_⟩
  · exact ((answers (.lookup r) _ c₁ rfl (by simp) hc).2 x rfl).2.2
  · have hl := fun hit c₂ => answers (.submit r callback) hit c₂ rfl (by simp)
    obtain ⟨hit, c₂, hlook, hout⟩ := submit_outcome hc fun hit c₂ hlook =>
      ⟨(hl hit c₂ hlook).1, fun x hx =>
        ⟨((hl hit c₂ hlook).2 x hx).1, ((hl hit c₂ hlook).2 x hx).2.1⟩⟩
    exact ⟨hit, c₂, hlook, fun x hx => ((hl hit c₂ hlook).2 x hx).2.2, hout⟩

theorem lookup_of_stored (hc : r.policy.caches = true) (hp : r.policy.parsed.reads = false)
    {hit : Option (Hit α)} (hs : c.storedHit r = .ok (hit, c')) :
    c.lookup r = .ok (hit.filter fun h => h.freshness.mayServe, c') := by
  simp only [lookup, hc, if_true, fromCache, parsedHit, hp, Bool.false_eq_true, if_false, hs]
  rfl

theorem submit_of_miss (hl : c.lookup r = .ok (none, c')) (callback : Nat) :
    c.submit r callback = .ok (.fetching (c'.issue r callback false).1, [],
      (c'.issue r callback false).2) := by
  simp only [submit, hl]
  rfl

theorem keep_of_put {f : Flight α ε} {reply : Reply} {value : α} {metadata : Metadata}
    {store : RecordCache} (hc : f.policy.caches = true) (hw : f.policy.parsed.writes = false)
    (hs : (c.store.share ⟨Key.normalize f.key, metadata, reply.headers, reply.body⟩).2.put f.key
      (c.store.share ⟨Key.normalize f.key, metadata, reply.headers, reply.body⟩).1
      f.policy.placement = .ok store) :
    c.keep f reply value metadata = .ok { c with store } := by
  simp only [keep, hc, if_true, hs, hw, Bool.false_eq_true, if_false]
  rfl

theorem complete_of_keep {t : Ticket} {reply : Reply} {f : Flight α ε} {value : α}
    (hs : reply.isSuccess = true) (hf : c.flights.get? t.id = some f)
    (hp : f.parser.parse reply.body = .ok value)
    (hk : (c.land t.id).keep f reply value ((c.land t.id).metadataOf f reply) = .ok c') :
    ∃ told, c.complete t reply = .ok (told, c') := by
  simp only [complete, hs, Bool.not_true, Bool.false_eq_true, if_false, hf, hp, hk]
  exact ⟨_, rfl⟩

def noteRequest : Request String String where
  id := 7
  key := "a"
  policy := { timeToRefresh := .ofMillis 1000, timeToLive := .ofMillis 5000 }
  parser := .ofReader Reader.text id (fun _ => true) fun _ => rfl
  errorReader := none

def noteReply : Reply where
  status := 200
  headers := .empty
  body := [104, 105]

def noteRecord : Record where
  key := "a"
  metadata := .ofReply noteReply 1000 noteRequest.policy
  headers := .empty
  payload := noteReply.body

def noteSetup : Setup where
  memoryCapacity := 100
  overflowWindow := 2
  parsedEntries := 4
  layout := .single ⟨["store"]⟩ 1 100

def noteDispatcher (store : RecordCache) : Dispatcher String String := .new store 4 1000

@[simp] theorem volume_empty (home : Path) (d : Digest) (k : Retention) :
    Volume.empty.fileAt? (Disk.recordPlace home d k) = none := by
  rw [Volume.fileAt?, Disk.node?_empty (Disk.recordPlace_ne_nil home d k)]

/-- A new store of the note's layout holds nothing. -/
theorem start_note : ∃ s v, noteSetup.start Volume.empty 1000 =
    .ok (noteDispatcher (.new Record.kind 100 2 (.single (some s)) v)) ∧
      (Disk.Slot.get (some s) v (.ofKey (Key.normalize "a"))).1 = none := by
  obtain ⟨s, v, ho⟩ := Disk.open_store
  have hlayout : noteSetup.layout.start Volume.empty = .ok (.single (some s), v) := by
    simp only [noteSetup, Layout.start, ho]
  have hempty : Volume.empty.Vouched noteSetup.layout.Home fun _ _ => False := by
    intro home _ d k bytes time hf
    rw [volume_empty] at hf
    cases hf
  refine ⟨s, v, ?_, ?_⟩
  · simp only [Setup.start, Design.build, Setup.design, hlayout]
    rfl
  · obtain ⟨hin, hvouched⟩ := Layout.start_vouched hlayout hempty fun _ h => h
    rw [Option.eq_none_iff_forall_ne_some]
    exact fun bytes hb => hin.good_of_get (f := .general) hvouched hb

/-- The note is fetched and kept in memory, and its refresh comes due. -/
theorem keep_note : ∃ (past : List (Moment String String)) (c : Dispatcher String String),
    Reaches noteSetup.layout Volume.empty past c ∧ (∀ q, Asked past q → q = noteRequest) ∧
      c.now = 3000 ∧ (c.store.memory.get "a").1 = some ⟨0, noteRecord⟩ := by
  have hkey : Key.normalize "a" = "a" := by decide
  have hcaches : noteRequest.policy.caches = true := by decide
  obtain ⟨s, v, hstart, hread⟩ := start_note
  -- nothing is found, and a ticket is issued
  let c₀ : RecordCache := .new Record.kind 100 2 (.single (some s)) v
  obtain ⟨st, hfind, hkind, hmem, hid⟩ := Cache.find_none (c := c₀) (f := .general) rfl rfl hread
  have hmiss : (noteDispatcher c₀).storedHit noteRequest = .ok (none, noteDispatcher st) := by
    have hf : (noteDispatcher c₀).store.find noteRequest.key noteRequest.policy.family =
      .ok (none, st) := hfind
    simp only [storedHit, hf]
    rfl
  have hsubmit := submit_of_miss (lookup_of_stored hcaches rfl hmiss) 0
  let c₁ := ((noteDispatcher st).issue noteRequest 0 false).2
  have hissued : (noteDispatcher c₀).call (.submit noteRequest 0) = .ok c₁ := by
    simp only [call, hsubmit]
    rfl
  -- the reply completes it, and is kept
  have hput : ∃ st', (st.share noteRecord).2.put "a" (st.share noteRecord).1
      (.disk .general .normal) = .ok st' ∧ (st'.memory.get "a").1 = some ⟨0, noteRecord⟩ := by
    simp only [Cache.put, Cache.putCosting, hkey, Cache.putResident, Cache.memory_writeRecord,
      Cache.share, hmem, hkind, hid]
    exact ⟨_, rfl, rfl⟩
  obtain ⟨st', hput, hmem'⟩ := hput
  let c₂ : Dispatcher String String := { c₁.land 1 with store := st' }
  let f : Flight String String := ⟨"a", 7, noteRequest.policy, 0, noteRequest.parser, none, false⟩
  have hkeep : (c₁.land 1).keep f noteReply "hi" ((c₁.land 1).metadataOf f noteReply) = .ok c₂ := by
    refine keep_of_put hcaches rfl ?_
    rw [show Key.normalize f.key = "a" from hkey]
    exact hput
  obtain ⟨told, hcomplete⟩ := complete_of_keep (t := ⟨1, 7, "a", false⟩) rfl rfl rfl hkeep
  have hcompleted : c₁.call (.complete ⟨1, 7, "a", false⟩ noteReply) = .ok c₂ := by
    simp only [call, hcomplete]
    rfl
  have hclock : c₂.call (.setClock 3000) = .ok (c₂.setClock 3000) := rfl
  have hstart : Reaches noteSetup.layout Volume.empty [] (noteDispatcher c₀) :=
    .start (fun _ h => h) hstart
  have hfetched := hstart.step (x := .submit noteRequest 0) trivial hissued
  have hkept := hfetched.step (x := .complete ⟨1, 7, "a", false⟩ noteReply) trivial hcompleted
  have hdue := hkept.step (x := .setClock 3000) trivial hclock
  refine ⟨_, _, hdue, ?_, rfl, hmem'⟩
  intro q hq
  have hq : noteRequest = q := by
    simpa [Asked, Call.request?] using hq
  exact hq.symm

theorem lookup_note {c : Dispatcher String String} (hnow : c.now = 3000)
    (hm : (c.store.memory.get "a").1 = some ⟨0, noteRecord⟩) :
    ∃ c', c.lookup noteRequest = .ok (some ⟨"hi", noteRecord.metadata, .stale⟩, c') := by
  have hkey : Key.normalize "a" = "a" := by decide
  have hf : ∃ st, c.store.find noteRequest.key noteRequest.policy.family =
      .ok (some ⟨0, noteRecord⟩, st) := by
    show ∃ st, c.store.find "a" .general = _
    simp only [Cache.find, hkey, hm]
    exact ⟨_, rfl⟩
  obtain ⟨st, hf⟩ := hf
  have hhit : c.storedHit noteRequest = .ok (some ⟨"hi", noteRecord.metadata, .stale⟩,
      { c with store := st }) := by
    simp only [storedHit, hf, hnow]
    rfl
  exact ⟨_, lookup_of_stored (by decide) rfl hhit⟩

/-- The note is served past its refresh, while it has not expired. -/
theorem served_unexpired_note : ∃ (past : List (Moment String String))
    (c c' : Dispatcher String String) (x : Hit String),
    (∀ home, noteSetup.layout.Home home → ∀ d k,
      Volume.empty.fileAt? (Disk.recordPlace home d k) = none) ∧
    Reaches noteSetup.layout Volume.empty past c ∧
    (∀ q, Asked past q → Digest.ofKey (Key.normalize q.key) =
      Digest.ofKey (Key.normalize noteRequest.key) →
        Key.normalize q.key = Key.normalize noteRequest.key) ∧
    c.lookup noteRequest = .ok (some x, c') ∧ x.value = "hi" ∧ x.freshness = .stale ∧
    Servable past noteRequest c.now x := by
  obtain ⟨past, c, hrun, hasked, hnow, hmem⟩ := keep_note
  obtain ⟨c', hlookup⟩ := lookup_note hnow hmem
  have hempty : ∀ home, noteSetup.layout.Home home → ∀ d k,
      Volume.empty.fileAt? (Disk.recordPlace home d k) = none :=
    fun home _ d k => volume_empty home d k
  have hone : ∀ q, Asked past q → Digest.ofKey (Key.normalize q.key) =
      Digest.ofKey (Key.normalize noteRequest.key) →
        Key.normalize q.key = Key.normalize noteRequest.key := by
    intro q hq _
    rw [hasked q hq]
  exact ⟨past, c, c', _, hempty, hrun, hone, hlookup, rfl, rfl,
    (served_unexpired hempty hrun noteRequest hone).1 _ _ hlookup⟩

end TierCache.Dispatcher
