import TierCache.Proofs.Dispatcher.Serving
import TierCache.Proofs.Dispatcher.Steady

/-!
# What was superseded is not served

Two tiers answer for the same key, parsed values first, and a completion renews the second only if
its policy says so. Once a completion has been stored, whatever a look-up answers was brought by
this completion or by a later one. There is one exception: a parsed value that the completion has
found and not replaced may be served as long as it stays where it is.
-/
namespace TierCache.Dispatcher

variable {α ε : Type} {l : Layout} {v : Volume} {past earlier later : List (Moment α ε)}
variable {c c' before : Dispatcher α ε} {q r : Request α ε} {t : Ticket} {reply : Reply}
variable {n : Nat} {key : String} {body : List UInt8} {metadata : Metadata}

/-- A reply completes the ticket that a submission of the request has issued, and is parsed. -/
structure Completes (earlier : List (Moment α ε)) (before : Dispatcher α ε) (t : Ticket)
    (reply : Reply) (q : Request α ε) : Prop where
  issued : Issued earlier t.id q
  flight : ∃ f, before.flights.get? t.id = some f ∧ IsFor f q
  success : reply.isSuccess = true
  parsed : ∃ value, q.parser.parse reply.body = .ok value

/-- The reply completed a ticket of the request after so many moments. -/
def CompletedAt (past : List (Moment α ε)) (n : Nat) (q : Request α ε) (reply : Reply)
    (received : Instant) : Prop :=
  ∃ later earlier before t, past = later ++ ⟨before, .complete t reply⟩ :: earlier ∧
    earlier.length = n ∧ before.now = received ∧ Completes earlier before t reply q

/-- A body and its metadata come from a completion of the key after so many moments or more. -/
def Since (past : List (Moment α ε)) (n : Nat) (key : String) (body : List UInt8)
    (metadata : Metadata) : Prop :=
  ∃ n' q reply received, n ≤ n' ∧ CompletedAt past n' q reply received ∧
    Key.normalize q.key = key ∧ reply.body = body ∧ metadata = .ofReply reply received q.policy

/-- An answer was parsed, by the request or by one of its key before it, from a body that no
completion before so many moments brought. -/
def Current (past : List (Moment α ε)) (n : Nat) (r : Request α ε) (x : Hit α) : Prop :=
  ∃ body, Since past n (Key.normalize r.key) body x.metadata ∧
    ∃ p, (p = r ∨ Asked past p) ∧ Key.normalize p.key = Key.normalize r.key ∧
      p.parser.parse body = .ok x.value

/-- The record of a reply to a request. -/
def replyRecord (q : Request α ε) (reply : Reply) (received : Instant) : Record :=
  ⟨Key.normalize q.key, .ofReply reply received q.policy, reply.headers, reply.body⟩

/-- The record of a reply is encoded, and its write does not fail. -/
def Stored (before : Dispatcher α ε) (reply : Reply) (q : Request α ε) : Prop :=
  ∃ bytes, Record.kind.encode (replyRecord q reply before.now) = .ok bytes ∧
    ((before.store.archive.get q.policy.family).put before.store.volume
      (.ofKey (Key.normalize q.key)) bytes q.policy.retention).1 ≠ .failed

/-- The parsed value that is kept under a key. -/
def parsedAt (c : Dispatcher α ε) (key : String) : Option (ParsedValue α) :=
  (c.parsed.entries.get? key).map Resident.Entry.value

/-- The completion of a request that writes no parsed values has found one, and it is there still:
it has been at every moment since. -/
structure Spared (since : List (Moment α ε)) (c : Dispatcher α ε) (q : Request α ε)
    (p : ParsedValue α) : Prop where
  unwritten : q.policy.parsed.writes = false
  stood : ∀ m ∈ since, m.before.parsedAt (Key.normalize q.key) = some p
  stands : c.parsedAt (Key.normalize q.key) = some p

/-- All requests of the key are of one family, and no other key has its digest. -/
structure Unmixed (past : List (Moment α ε)) (key : String) (family : Family) : Prop where
  family : ∀ p, Asked past p → Key.normalize p.key = key → p.policy.family = family
  digest : ∀ p, Asked past p → Digest.ofKey (Key.normalize p.key) = .ofKey key →
    Key.normalize p.key = key

theorem CompletedAt.cons {received : Instant} (h : CompletedAt past n q reply received)
    (m : Moment α ε) : CompletedAt (m :: past) n q reply received := by
  obtain ⟨later, earlier, before, t, rfl, h⟩ := h
  exact ⟨m :: later, earlier, before, t, rfl, h⟩

theorem CompletedAt.of_cons {m : Moment α ε} {received : Instant}
    (h : CompletedAt (m :: past) n q reply received) (hm : ∀ t reply, m.call ≠ .complete t reply) :
    CompletedAt past n q reply received := by
  obtain ⟨later, earlier, before, t, he, h⟩ := h
  obtain ⟨later', he⟩ := split_of_cons he fun hm' => hm t reply (congrArg Moment.call hm')
  exact ⟨later', earlier, before, t, he, h⟩

theorem Since.cons (h : Since past n key body metadata) (m : Moment α ε) :
    Since (m :: past) n key body metadata := by
  obtain ⟨n', q, reply, received, hn, hc, h⟩ := h
  exact ⟨n', q, reply, received, hn, hc.cons m, h⟩

theorem Unmixed.of_cons {family : Family} {m : Moment α ε} (h : Unmixed (m :: past) key family) :
    Unmixed past key family where
  family := fun p hp => h.family p (hp.cons m)
  digest := fun p hp => h.digest p (hp.cons m)

/-- The completion that is made now is the latest one. -/
theorem Completes.since (h : Completes past c t reply q) (hn : n ≤ past.length) :
    Since (⟨c, .complete t reply⟩ :: past) n (Key.normalize q.key) reply.body
      (.ofReply reply c.now q.policy) :=
  ⟨past.length, q, reply, c.now, hn, ⟨[], past, c, t, rfl, rfl, rfl, h⟩, rfl, rfl, rfl⟩

/-- What is shown, recorded and kept parsed for the key comes from a completion after so many
moments or more, apart from parsed values that were spared. -/
def inForce (past : List (Moment α ε)) (n : Nat) (key : String) (family : Family)
    (spared : ParsedValue α → Prop) : Clauses α where
  store :=
    { shows := fun k x => k = key → Since past n key x.payload x.metadata
      records := fun f d x => f = family → d = .ofKey key → Since past n key x.payload x.metadata }
  parsed := fun k p => k = key →
    (∃ body, Since past n key body p.metadata ∧ Parses past key body p.value) ∨ spared p

variable {family : Family} {spared spared' : ParsedValue α → Prop}

theorem Keeps.cons {free : Option Nat} (h : Keeps l free (inForce past n key family spared) c)
    (m : Moment α ε) : Keeps l free (inForce (m :: past) n key family spared) c :=
  h.mono {
    shows := fun _ _ hs hk => (hs hk).cons m
    records := fun _ _ _ hr hf hd => (hr hf hd).cons m
    parsed := fun _ _ hp hk => (hp hk).imp_left fun ⟨body, hs, hparses⟩ =>
      ⟨body, hs.cons m, hparses.cons m⟩ }

theorem Keeps.imp_spared {free : Option Nat}
    (h : Keeps l free (inForce past n key family spared) c) (hs : ∀ p, spared p → spared' p) :
    Keeps l free (inForce past n key family spared') c :=
  h.mono ⟨fun _ _ => id, fun _ _ _ => id, fun _ p hp hk => (hp hk).imp_right (hs p)⟩

/-- What is spared is there. -/
theorem Keeps.standing {free : Option Nat} (h : Keeps l free (inForce past n key family spared) c) :
    Keeps l free (inForce past n key family fun p => spared p ∧ c.parsedAt key = some p) c where
  store := h.store
  owned := h.owned
  parsed := by
    rintro k e he rfl
    refine (h.parsed k e he rfl).imp_right fun hp => ⟨hp, ?_⟩
    rw [parsedAt, he, Option.map_some]

/-- A request of the key looks in its family. -/
theorem serves_inForce (hr : Asked past r)
    (hf : Key.normalize r.key = key → r.policy.family = family) :
    (inForce past n key family spared).Serves r where
  reads := fun x hx hk => hx (hf hk) (by rw [hk])
  parses := fun _ x value hx hvalue hk =>
    .inl ⟨x.payload, hx hk, r, hr, hk, hvalue⟩

/-- The record of a reply, put for a request. -/
theorem recordOf_eq {f : Flight α ε} (hf : IsFor f q) (c : Dispatcher α ε) (reply : Reply) :
    recordOf f reply (c.metadataOf f reply) = replyRecord q reply c.now := by
  rw [recordOf, metadataOf, hf.key, hf.policy]
  rfl

/-- What a completion brings comes from it. -/
theorem takes_inForce {f : Flight α ε} {value : α} (hq : Completes past c t reply q)
    (hf : IsFor f q) (hvalue : f.parser.parse reply.body = .ok value) (hn : n ≤ past.length)
    (hone : Digest.ofKey (Key.normalize q.key) = .ofKey key → Key.normalize q.key = key) :
    (inForce (⟨c, .complete t reply⟩ :: past) n key family spared).Takes f reply value
      (c.metadataOf f reply) := by
  have hs := hq.since hn
  have hrec := recordOf_eq hf c reply
  have hmeta : c.metadataOf f reply = .ofReply reply c.now q.policy :=
    congrArg Record.metadata hrec
  constructor
  · intro _ hk
    rw [hf.key] at hk
    rw [hrec]
    exact hk ▸ hs
  · intro _ _ hd
    rw [hf.key] at hd
    rw [hrec]
    exact hone hd ▸ hs
  · intro _ hk
    rw [hf.key] at hk
    refine .inl ⟨reply.body, ?_, q, hq.issued.asked.cons _, hk, hf.parser ▸ hvalue⟩
    rw [hmeta]
    exact hk ▸ hs

theorem keep_of_complete {f : Flight α ε} {value : α} (hs : reply.isSuccess = true)
    (hf : c.flights.get? t.id = some f) (hp : f.parser.parse reply.body = .ok value)
    {told : List (Delivery α ε)} (hc : c.complete t reply = .ok (told, c')) :
    (c.land t.id).keep f reply value ((c.land t.id).metadataOf f reply) = .ok c' := by
  simp only [complete, hs, Bool.not_true, Bool.false_eq_true, if_false, hf, hp] at hc
  obtain ⟨c₁, hkeep, hc⟩ := bind_eq_ok_iff.mp hc
  cases hc
  exact hkeep

/-- A completion whose record is stored supersedes all that the store had for its key, and spares
what was kept parsed only if its policy has it write nothing there. -/
theorem Completes.inForce {free : Option Nat} {t' : Clauses α} (h : Keeps l free t' c)
    (hq : Completes past c t reply q) (hcaches : q.policy.caches = true)
    (hstored : Stored c reply q) {told : List (Delivery α ε)}
    (hc : c.complete t reply = .ok (told, c')) :
    Keeps l free (inForce (⟨c, .complete t reply⟩ :: past) past.length (Key.normalize q.key)
      q.policy.family fun p => q.policy.parsed.writes = false ∧
        c.parsedAt (Key.normalize q.key) = some p) c' := by
  obtain ⟨f, hf, hfq⟩ := hq.flight
  obtain ⟨value, hvalue⟩ := hq.parsed
  obtain ⟨bytes, henc, hout⟩ := hstored
  have hkeep := keep_of_complete hq.success hf (hfq.parser ▸ hvalue) hc
  have hrec := recordOf_eq hfq (c.land t.id) reply
  have hmeta : (c.land t.id).metadataOf f reply = .ofReply reply c.now q.policy :=
    congrArg Record.metadata hrec
  have hs := hq.since (Nat.le_refl _)
  obtain ⟨store, parsed, rfl, hstore, hparsed⟩ := keep_ok hkeep
  rw [hfq.policy, if_pos hcaches, hrec, hfq.key] at hstore
  rw [hfq.policy, hfq.key, hmeta] at hparsed
  have hput : (c.store.share (replyRecord q reply c.now)).2.put q.key
      (c.store.share (replyRecord q reply c.now)).1
      (.disk q.policy.family q.policy.retention) = .ok store := hstore
  refine ⟨?_, h.owned.put hput, ?_⟩
  · have hshared : (c.store.share (replyRecord q reply c.now)).2.Upholds Record.kind l free
        t'.store := h.store.of_tiers rfl rfl rfl h.store.seen
    refine hshared.putCosting_replacing (v := (c.store.share (replyRecord q reply c.now)).1)
      henc hout (fun k x hne _ hk => absurd hk hne)
      (fun g d x hne _ hg hd => ?_) (fun _ => hs) (fun _ _ => hs) hput
    exact absurd hg (hne.resolve_left fun h => h hd)
  · split at hparsed
    · obtain ⟨p, hput, he⟩ := bind_eq_ok_iff.mp hparsed
      cases he
      have hothers : Resident.All (fun k p => k ≠ Key.normalize q.key →
          (Dispatcher.inForce (⟨c, .complete t reply⟩ :: past) past.length (Key.normalize q.key)
            q.policy.family fun p => q.policy.parsed.writes = false ∧
              c.parsedAt (Key.normalize q.key) = some p).parsed k p) c.parsed :=
        fun k _ _ hne hk => absurd hk hne
      refine (Resident.All.put_replacing hothers ?_ hput).1
      exact fun _ => .inl ⟨reply.body, hs, q, hq.issued.asked.cons _, rfl, hvalue⟩
    · rename_i hwrites
      rintro k e he rfl
      have hbefore : c.parsed.entries.get? (Key.normalize q.key) = some e := hparsed ▸ he
      refine .inr ⟨Bool.eq_false_iff.mpr hwrites, ?_⟩
      rw [parsedAt, hbefore, Option.map_some]

/-- What is in force stays in force, whatever else is completed, looked up, cleared or made again;
only memory must not be emptied alone, which would uncover what the overflow tier remembers. -/
theorem Keeps.inForce_step {free : Option Nat} (hv : l.Blank v) {x : Call α ε}
    (h : Keeps l free (inForce past n key family spared) c) (hsteady : Steady l v past c)
    (hn : n ≤ past.length) (hx : ∀ p now, x = .reopen p now → p.layout = l)
    (hmem : x ≠ .clearResident)
    (hone : Unmixed (⟨c, x⟩ :: past) key family) (hc : c.call x = .ok c') :
    Keeps l free (inForce (⟨c, x⟩ :: past) n key family spared) c' := by
  refine (h.cons ⟨c, x⟩).step ?_ hx hc
  have serves : ∀ q, x.request? = some q →
      (inForce (⟨c, x⟩ :: past) n key family spared).Serves q := by
    intro q hq
    have hasked : Asked (⟨c, x⟩ :: past) q := asked_cons.mpr (.inl hq)
    exact serves_inForce hasked (hone.family q hasked)
  cases x with
  | submit r callback => exact serves r rfl
  | submitOffline r callback => exact serves r rfl
  | lookup r => exact serves r rfl
  | complete t reply =>
    intro f value hf hsuccess hvalue
    obtain ⟨q, hi, hq⟩ := (hsteady.traced hv).flights t.id f hf
    have hcompletes : Completes past c t reply q :=
      ⟨hi, ⟨f, hf, hq⟩, hsuccess, value, hq.parser ▸ hvalue⟩
    exact takes_inForce hcompletes hq hvalue hn (hone.digest q (hi.asked.cons _))
  | clearResident => exact absurd rfl hmem
  | _ => trivial

/-- From a completion whose record is stored on, what it brought is in force, and what it spared has
stood all the time. -/
theorem Steady.inForce (hv : l.Blank v)
    (h : Steady l v (later ++ ⟨before, .complete t reply⟩ :: earlier) c)
    (hq : Completes earlier before t reply q) (hcaches : q.policy.caches = true)
    (hstored : Stored before reply q) (hmem : ∀ m ∈ later, m.call ≠ .clearResident)
    (hone : Unmixed (later ++ ⟨before, .complete t reply⟩ :: earlier) (Key.normalize q.key)
      q.policy.family) :
    Keeps l v.free (inForce (later ++ ⟨before, .complete t reply⟩ :: earlier) earlier.length
      (Key.normalize q.key) q.policy.family
      (Spared (later ++ [⟨before, .complete t reply⟩]) c q)) c := by
  have hk : Keeps l v.free (Dispatcher.inForce (later ++ ⟨before, .complete t reply⟩ :: earlier)
      earlier.length (Key.normalize q.key) q.policy.family fun p =>
        q.policy.parsed.writes = false ∧ ∀ m ∈ later ++ [⟨before, .complete t reply⟩],
          m.before.parsedAt (Key.normalize q.key) = some p) c := by
    induction later generalizing c with
    | nil =>
      cases h with
      | step h _ hc =>
        obtain ⟨p, hp, hc⟩ := bind_eq_ok_iff.mp hc
        cases hc
        refine (hq.inForce (h.keeps hv.usable) hcaches hstored hp).imp_spared ?_
        rintro p ⟨hwrites, hbefore⟩
        refine ⟨hwrites, fun m hm => ?_⟩
        rw [List.mem_singleton.mp hm]
        exact hbefore
    | cons m later ih =>
      cases h with
      | @step _ c₁ _ x h hx hc =>
        have hk := ih h (fun m hm => hmem m (List.mem_cons_of_mem _ hm)) hone.of_cons
        have hlength : earlier.length ≤
            (later ++ ⟨before, .complete t reply⟩ :: earlier).length := by
          rw [List.length_append, List.length_cons]
          omega
        refine (hk.standing.inForce_step hv h hlength hx (hmem _ List.mem_cons_self) hone
          hc).imp_spared ?_
        rintro p ⟨⟨hwrites, hstood⟩, hstands⟩
        exact ⟨hwrites, List.forall_mem_cons.mpr ⟨hstands, hstood⟩⟩
  refine hk.standing.imp_spared ?_
  rintro p ⟨⟨hwrites, hstood⟩, hstands⟩
  exact ⟨hwrites, hstood, hstands⟩

theorem Since.of_cons {m : Moment α ε} (h : Since (m :: past) n key body metadata)
    (hm : ∀ t reply, m.call ≠ .complete t reply) : Since past n key body metadata := by
  obtain ⟨n', q, reply, received, hn, hc, h⟩ := h
  exact ⟨n', q, reply, received, hn, hc.of_cons hm, h⟩

/-- What a look-up answers within what is in force. -/
theorem Keeps.answers {free : Option Nat} {x : Hit α} {hit : Option (Hit α)}
    (h : Keeps l free (Dispatcher.inForce past n (Key.normalize r.key) r.policy.family spared) c)
    (hl : c.lookup r = .ok (hit, c')) (hx : hit = some x) :
    Current past n r x ∨ r.policy.parsed.reads = true ∧ spared ⟨x.value, x.metadata⟩ := by
  -- the look-up itself is a moment at which the request is asked
  have asked : Asked (⟨c, .lookup r⟩ :: past) r := asked_cons.mpr (.inl rfl)
  have asked_or : ∀ {p}, Asked (⟨c, .lookup r⟩ :: past) p → p = r ∨ Asked past p := by
    intro p hp
    exact (asked_cons.mp hp).imp (fun hr => (Option.some.inj hr).symm) id
  have current : ∀ {body}, Since (⟨c, .lookup r⟩ :: past) n (Key.normalize r.key) body x.metadata →
      Parses (⟨c, .lookup r⟩ :: past) (Key.normalize r.key) body x.value → Current past n r x := by
    intro body hs ⟨p, hp, hkey, hparse⟩
    exact ⟨body, hs.of_cons (by simp), p, asked_or hp, hkey, hparse⟩
  obtain ⟨-, hyields⟩ := (h.cons ⟨c, .lookup r⟩).lookup (serves_inForce asked fun _ => rfl) hl
  rcases hyields x hx with ⟨hreads, hparsed⟩ | ⟨rec, hshown, hmetadata, hparse⟩
  · rcases hparsed rfl with ⟨body, hs, hparses⟩ | hspared
    · exact .inl (current hs hparses)
    · exact .inr ⟨hreads, hspared⟩
  · have hs := hshown rfl
    rw [hmetadata] at hs
    exact .inl (current hs ⟨r, asked, rfl, hparse⟩)

/-- Once a completion has been parsed and stored, no later look-up or submission of its key serves
what an earlier completion brought, whichever tier answers. There is one exception: if the
completion writes no parsed values, the one that it found may be served to a request that reads
them, as long as it has stood there at every moment since. All requests of the key are of one
family, and no other key has its digest. -/
theorem superseded_unserved (hv : l.Blank v)
    (h : Steady l v (later ++ ⟨before, .complete t reply⟩ :: earlier) c)
    (hq : Completes earlier before t reply q) (hcaches : q.policy.caches = true)
    (hstored : Stored before reply q) (hmem : ∀ m ∈ later, m.call ≠ .clearResident)
    (hone : Unmixed (later ++ ⟨before, .complete t reply⟩ :: earlier) (Key.normalize q.key)
      q.policy.family)
    (hkey : Key.normalize r.key = Key.normalize q.key)
    (hr : r.policy.family = q.policy.family) :
    (∀ x c', c.lookup r = .ok (some x, c') →
      Current (later ++ ⟨before, .complete t reply⟩ :: earlier) earlier.length r x ∨
        r.policy.parsed.reads = true ∧
          Spared (later ++ [⟨before, .complete t reply⟩]) c q ⟨x.value, x.metadata⟩) ∧
    ∀ callback s told c', c.submit r callback = .ok (s, told, c') →
      ∀ d ∈ told, ∀ value, d.data = some value → ∃ x, x.value = value ∧
        (Current (later ++ ⟨before, .complete t reply⟩ :: earlier) earlier.length r x ∨
          r.policy.parsed.reads = true ∧
            Spared (later ++ [⟨before, .complete t reply⟩]) c q ⟨x.value, x.metadata⟩) := by
  have hk := h.inForce hv hq hcaches hstored hmem hone
  rw [← hkey, ← hr] at hk
  refine ⟨fun x c' hl => hk.answers hl rfl, ?_⟩
  intro callback s told c' hc d hd value hvalue
  obtain ⟨hit, c₁, hl, hcases⟩ := submit_cases hc
  rcases hcases with ⟨-, -, rfl, -⟩ | ⟨x, hx, rfl, -⟩
  · cases hd
  · rw [tell] at hd
    split at hd
    · cases hd
    · rw [List.mem_singleton.mp hd] at hvalue
      exact ⟨x, Option.some.inj hvalue, hk.answers hl hx⟩

instance : Decidable (Stored before reply q) :=
  match h : Record.kind.encode (replyRecord q reply before.now) with
  | .ok bytes => decidable_of_iff
      (((before.store.archive.get q.policy.family).put before.store.volume
        (.ofKey (Key.normalize q.key)) bytes q.policy.retention).1 ≠ .failed)
      ⟨fun hput => ⟨bytes, h, hput⟩, fun ⟨_, henc, hput⟩ => by
        rw [h] at henc
        rwa [Except.ok.inj henc]⟩
  | .error _ => isFalse fun ⟨_, henc, _⟩ => by
      rw [h] at henc
      cases henc

/-- The note, for a reader that keeps and reads parsed values. -/
def parsedNote : Request String String :=
  { noteRequest with id := 8, policy := { noteRequest.policy with parsed := .readWrite } }

/-- A later version of the note. -/
def newReply : Reply := { noteReply with body := [121, 111] }

/-- The tickets of the two requests, submitted in this order. -/
def parsedTicket : Ticket := ⟨1, 8, "a", false⟩

def noteTicket : Ticket := ⟨2, 7, "a", false⟩

/-- Both requests are submitted, and the reader of parsed values is completed first. -/
def noteCalls : List (Call String String) :=
  [.submit parsedNote 0, .submit noteRequest 0, .complete parsedTicket noteReply]

/-- The other ticket is completed with the later version, and the dispatchers before and after are
as they should be. -/
def completing (check : Dispatcher String String → Dispatcher String String → Bool)
    (before : Dispatcher String String) : Bool :=
  (before.call (.complete noteTicket newReply)).toOption.any (check before)

/-- The later version is stored, and the reader of parsed values is still answered with the one
before it, until that is cleared away. -/
theorem steady_notes : ∃ (earlier : List (Moment String String))
    (before mid : Dispatcher String String),
    Steady noteSetup.layout Volume.empty (⟨before, .complete noteTicket newReply⟩ :: earlier) mid ∧
    (∀ q, Asked (⟨before, .complete noteTicket newReply⟩ :: earlier) q →
      q = noteRequest ∨ q = parsedNote) ∧
    Completes earlier before noteTicket newReply noteRequest ∧
    Stored before newReply noteRequest ∧ mid.value? parsedNote = some "hi" ∧
    (mid.clearIf fun _ => false).2.value? parsedNote = some "yo" ∧
    (mid.clearIf fun _ => false).2.parsedAt (Key.normalize noteRequest.key) = none := by
  have hpasses : passes noteSetup Volume.empty 1000 noteCalls (completing fun before mid =>
      Stored before newReply noteRequest ∧
      (before.flights.get? 2).map (fun f => f.policy.parsed) = some .disabled ∧
      mid.value? parsedNote = some "hi" ∧
      (mid.clearIf fun _ => false).2.value? parsedNote = some "yo" ∧
      ((mid.clearIf fun _ => false).2.parsedAt (Key.normalize noteRequest.key)).isNone) = true := by
    decide +kernel
  obtain ⟨earlier, before, hbefore, hasked, h⟩ := steady_of_passes hpasses (by simp [noteCalls])
  obtain ⟨mid, hmid, hcheck⟩ := exists_of_any h
  obtain ⟨hstored, hmode, hold, hnew, hnone⟩ := of_decide_eq_true hcheck
  have hasked : ∀ q, Asked earlier q → q = noteRequest ∨ q = parsedNote := fun q hq => by
    simpa [noteCalls, Call.request?, eq_comm, or_comm] using hasked q hq
  refine ⟨earlier, before, mid, hbefore.step (by simp) hmid, fun q hq => hasked q ?_, ?_, hstored,
    hold, hnew, Option.isNone_iff_eq_none.mp hnone⟩
  · exact (asked_cons.mp hq).resolve_left (by simp [Call.request?])
  · -- the flight is for the request whose policy it has
    obtain ⟨f, hflight, hmode⟩ := Option.map_eq_some_iff.mp hmode
    obtain ⟨q, hi, hq⟩ := (hbefore.traced Layout.blank_store).flights 2 f hflight
    have he : q = noteRequest := by
      rw [hq.policy] at hmode
      refine (hasked q hi.asked).resolve_right ?_
      rintro rfl
      cases hmode
    subst he
    exact ⟨hi, ⟨f, hflight, hq⟩, rfl, "yo", rfl⟩

/-- The reader that keeps no parsed values is completed last, so that the older parsed value is
spared. Once it has been cleared away, its reader is answered with the later version. -/
theorem superseded_unserved_note : ∃ (earlier : List (Moment String String))
    (before mid c : Dispatcher String String) (x : Hit String) (c' : Dispatcher String String),
    Steady noteSetup.layout Volume.empty
      ([⟨mid, .clearIf fun _ => false⟩] ++ ⟨before, .complete noteTicket newReply⟩ :: earlier) c ∧
    Completes earlier before noteTicket newReply noteRequest ∧
    Stored before newReply noteRequest ∧ mid.value? parsedNote = some "hi" ∧
    c.lookup parsedNote = .ok (some x, c') ∧ x.value = "yo" ∧
    Current ([⟨mid, .clearIf fun _ => false⟩] ++ ⟨before, .complete noteTicket newReply⟩ :: earlier)
      earlier.length parsedNote x := by
  obtain ⟨earlier, before, mid, hmid, hasked, hq, hstored, hold, hvalue, hnone⟩ := steady_notes
  have hc : Steady noteSetup.layout Volume.empty ([⟨mid, .clearIf fun _ => false⟩] ++
      ⟨before, .complete noteTicket newReply⟩ :: earlier) (mid.clearIf fun _ => false).2 :=
    hmid.step (by simp) rfl
  generalize (mid.clearIf fun _ => false).2 = c at hc hvalue hnone
  obtain ⟨x, c', hl, hx⟩ := lookup_of_value? hvalue
  have hasked' : ∀ p, Asked ([⟨mid, .clearIf fun _ => false⟩] ++
      ⟨before, .complete noteTicket newReply⟩ :: earlier) p → p = noteRequest ∨ p = parsedNote :=
    fun p hp => hasked p ((asked_cons.mp hp).resolve_left (by simp [Call.request?]))
  refine ⟨earlier, before, mid, c, x, c', hc, hq, hstored, hold, hl, hx, ?_⟩
  have hserved := (superseded_unserved (r := parsedNote) Layout.blank_store hc hq (by decide)
    hstored (by simp) ⟨?_, ?_⟩ rfl rfl).1 x c' hl
  · refine hserved.resolve_right fun hspared => ?_
    rw [hspared.2.stands] at hnone
    cases hnone
  · intro p hp _
    rcases hasked' p hp with rfl | rfl <;> rfl
  · intro p hp _
    rcases hasked' p hp with rfl | rfl <;> rfl

/-- The last completion brings the body that is later than any other. -/
theorem Since.body_eq {m : Metadata} (h : Since (⟨c, .complete t reply⟩ :: past) past.length key
    body m) : body = reply.body := by
  obtain ⟨n', q, reply', received, hn, ⟨later, earlier, before, t', he, rfl, -⟩, -, rfl, -⟩ := h
  cases later with
  | nil =>
    rw [List.nil_append, List.cons.injEq, Moment.mk.injEq, Call.complete.injEq] at he
    rw [he.1.2.2]
  | cons m later =>
    rw [List.cons_append, List.cons.injEq] at he
    have hlength := congrArg List.length he.2
    rw [List.length_append, List.length_cons] at hlength
    omega

/-- A reader that keeps no parsed values is completed last: the later version is stored, and the
reader of parsed values is still answered with the one before it. -/
theorem superseded_served_note : ∃ (earlier : List (Moment String String))
    (before c : Dispatcher String String) (x : Hit String) (c' : Dispatcher String String),
    noteSetup.layout.Blank Volume.empty ∧
    Steady noteSetup.layout Volume.empty
      (⟨before, .complete noteTicket newReply⟩ :: earlier) c ∧
    (∀ q, Asked (⟨before, .complete noteTicket newReply⟩ :: earlier) q →
      q = noteRequest ∨ q = parsedNote) ∧
    Completes earlier before noteTicket newReply noteRequest ∧
    noteRequest.policy.caches = true ∧ parsedNote.policy.caches = true ∧
    Stored before newReply noteRequest ∧ c.lookup parsedNote = .ok (some x, c') ∧
    x.value = "hi" ∧
    ¬ Current (⟨before, .complete noteTicket newReply⟩ :: earlier) earlier.length
      parsedNote x := by
  obtain ⟨earlier, before, c, hc, hasked, hq, hstored, hvalue, -⟩ := steady_notes
  obtain ⟨x, c', hl, hx⟩ := lookup_of_value? hvalue
  refine ⟨earlier, before, c, x, c', Layout.blank_store, hc, hasked, hq, by decide, by decide,
    hstored, hl, hx, ?_⟩
  rintro ⟨body, hs, p, hp, -, hparse⟩
  have hyo : p.parser.parse body = .ok "yo" := by
    rw [hs.body_eq]
    rcases hp with rfl | hp
    · rfl
    · rcases hasked p hp with rfl | rfl <;> rfl
  rw [hyo, hx] at hparse
  exact absurd (Except.ok.inj hparse) (by decide)

end TierCache.Dispatcher
