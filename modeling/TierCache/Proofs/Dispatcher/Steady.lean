import TierCache.Proofs.Cache.Ownership
import TierCache.Proofs.Dispatcher.Provenance

/-!
# Runs over one layout

A steady run makes its dispatcher over a directory that has no records yet, and may make it again
over the same directory with the same layout. Clauses say what the tiers may show, record and keep
parsed. A dispatcher keeps its clauses as long as each call does its part: what a request reads may
be shown and parsed, and what a reply brings is within the clauses.
-/
namespace TierCache

/-- The stores of a layout can be opened in a volume, and no version of them has left a record. -/
structure Layout.Blank (l : Layout) (v : Volume) : Prop where
  usable : l.Usable v
  empty : ∀ home, l.Home home → ∀ d r, v.fileAt? (Disk.recordPlace home d r) = none

theorem Layout.blank_store : (single ⟨["store"]⟩ 1 100).Blank Volume.empty where
  usable := usable_store
  empty := fun home _ d r => by
    rw [Volume.fileAt?, Disk.node?_empty (Disk.recordPlace_ne_nil home d r)]

namespace Dispatcher

variable {α ε : Type} {l : Layout} {v : Volume} {past : List (Moment α ε)}
variable {c c' : Dispatcher α ε} {r : Request α ε}

/-- The dispatchers that runs over one layout lead to, with the moments of the run, latest first. -/
inductive Steady (l : Layout) (v : Volume) : List (Moment α ε) → Dispatcher α ε → Prop where
  | start {p : Setup} {now : Instant} {c : Dispatcher α ε} (hp : p.layout = l)
      (h : p.start v now = .ok c) : Steady l v [] c
  | step {past : List (Moment α ε)} {c c' : Dispatcher α ε} {x : Call α ε}
      (h : Steady l v past c) (hx : ∀ p now, x = .reopen p now → p.layout = l)
      (hc : c.call x = .ok c') : Steady l v (⟨c, x⟩ :: past) c'

theorem Steady.reaches (h : Steady l v past c) : Reaches l v past c := by
  induction h with
  | start hp h => exact .start (fun home hh => hp ▸ hh) h
  | @step past c c' x _ hx hc ih =>
    refine ih.step ?_ hc
    cases x with
    | reopen p now => exact fun home hh => hx p now rfl ▸ hh
    | _ => trivial

theorem Steady.traced (hv : l.Blank v) (h : Steady l v past c) :
    Traced l.Home past c :=
  h.reaches.traced fun home hh d r bytes time hf => by
    rw [hv.empty home hh d r] at hf
    cases hf

theorem Steady.follow {xs : List (Call α ε)} {past' : List (Moment α ε)} (h : Steady l v past c)
    (hx : ∀ x ∈ xs, ∀ p now, x ≠ .reopen p now)
    (hc : follow past c xs = .ok (past', c')) : Steady l v past' c' :=
  follow_induction (P := Steady l v) h (fun _ _ x _ hm h hc =>
    h.step (fun p now he => absurd he (hx x hm p now)) hc) hc

/-- Whether a run of the calls comes to its end, and its dispatcher is as it should be. -/
def passes (p : Setup) (v : Volume) (now : Instant) (xs : List (Call α ε))
    (check : Dispatcher α ε → Bool) : Bool :=
  (p.start v now).toOption.any fun c => (follow [] c xs).toOption.any fun r => check r.2

theorem steady_of_passes {p : Setup} {now : Instant} {xs : List (Call α ε)}
    {check : Dispatcher α ε → Bool} (h : passes p v now xs check = true)
    (hx : ∀ x ∈ xs, ∀ p now, x ≠ .reopen p now) :
    ∃ past c, Steady p.layout v past c ∧
      (∀ q, Asked past q → ∃ x ∈ xs, x.request? = some q) ∧ check c = true := by
  obtain ⟨c₀, hstart, h⟩ := exists_of_any h
  obtain ⟨⟨past, c⟩, hfollow, h⟩ := exists_of_any h
  refine ⟨past, c, (Steady.start rfl hstart).follow hx hfollow, fun q hq => ?_, h⟩
  rw [asked_follow hfollow] at hq
  exact hq.resolve_right fun ⟨m, hm, _⟩ => List.not_mem_nil hm

/-- The value that a look-up answers. -/
def value? (c : Dispatcher α ε) (r : Request α ε) : Option α :=
  (c.lookup r).toOption.bind fun p => p.1.map Hit.value

theorem lookup_of_value? {value : α} (h : c.value? r = some value) :
    ∃ x c', c.lookup r = .ok (some x, c') ∧ x.value = value := by
  obtain ⟨⟨hit, c'⟩, hl, hx⟩ := Option.bind_eq_some_iff.mp h
  obtain ⟨x, rfl, rfl⟩ := Option.map_eq_some_iff.mp hx
  refine ⟨x, c', ?_, rfl⟩
  cases hlook : c.lookup r with
  | error e =>
    rw [hlook] at hl
    cases hl
  | ok p =>
    rw [hlook] at hl
    rw [Option.some.inj hl]

/-- Terms for the store, and for the parsed values. -/
structure Clauses (α : Type) where
  store : Terms Record
  parsed : String → ParsedValue α → Prop

namespace Clauses

def free : Clauses α := ⟨.free, fun _ _ => True⟩

/-- What the first clauses allow the others allow too. -/
structure Implies (t t' : Clauses α) : Prop where
  shows : ∀ k x, t.store.shows k x → t'.store.shows k x
  records : ∀ f d x, t.store.records f d x → t'.store.records f d x
  parsed : ∀ k p, t.parsed k p → t'.parsed k p

/-- What is read for a request may be shown, and what is parsed of it may be kept. -/
structure Serves (t : Clauses α) (r : Request α ε) : Prop where
  reads : t.store.Reads (Key.normalize r.key) r.policy.family
  parses : r.policy.parsed.writes = true → ∀ x value, t.store.shows (Key.normalize r.key) x →
    r.parser.parse x.payload = .ok value → t.parsed (Key.normalize r.key) ⟨value, x.metadata⟩

/-- What a reply brings for a flight may be shown, recorded and kept parsed. -/
structure Takes (t : Clauses α) (f : Flight α ε) (reply : Reply) (value : α)
    (metadata : Metadata) : Prop where
  shown : f.policy.caches = true →
    t.store.shows (Key.normalize f.key) (recordOf f reply metadata)
  recorded : f.policy.caches = true →
    t.store.records f.policy.family (.ofKey (Key.normalize f.key)) (recordOf f reply metadata)
  parsed : f.policy.parsed.writes = true → t.parsed (Key.normalize f.key) ⟨value, metadata⟩

/-- A call does its part for the clauses. -/
def Allows (t : Clauses α) (c : Dispatcher α ε) : Call α ε → Prop
  | .submit r _ | .submitOffline r _ | .lookup r => t.Serves r
  | .complete ticket reply => ∀ f value, c.flights.get? ticket.id = some f →
      reply.isSuccess = true → f.parser.parse reply.body = .ok value →
        t.Takes f reply value (c.metadataOf f reply)
  | .clearResident => ∀ k v, c.store.overflow.refs.get? k = some v → t.store.shows k v.value
  | _ => True

theorem free_allows (c : Dispatcher α ε) (x : Call α ε) : free.Allows c x := by
  cases x with
  | submit r callback => exact ⟨fun _ _ => trivial, fun _ _ _ _ _ => trivial⟩
  | submitOffline r callback => exact ⟨fun _ _ => trivial, fun _ _ _ _ _ => trivial⟩
  | lookup r => exact ⟨fun _ _ => trivial, fun _ _ _ _ _ => trivial⟩
  | complete ticket reply =>
    exact fun _ _ _ _ _ => ⟨fun _ => trivial, fun _ => trivial, fun _ => trivial⟩
  | clearResident => exact fun _ _ _ => trivial
  | _ => trivial

/-- An answer comes from a parsed value, or was parsed of what the store shows. -/
def Yields (t : Clauses α) (r : Request α ε) (x : Hit α) : Prop :=
  r.policy.parsed.reads = true ∧ t.parsed (Key.normalize r.key) ⟨x.value, x.metadata⟩ ∨
    ∃ rec, t.store.shows (Key.normalize r.key) rec ∧ rec.metadata = x.metadata ∧
      r.parser.parse rec.payload = .ok x.value

end Clauses

/-- All tiers of a dispatcher are within the clauses, and its store numbers its values itself. -/
structure Keeps (l : Layout) (free : Option Nat) (t : Clauses α) (c : Dispatcher α ε) : Prop where
  store : c.store.Upholds Record.kind l free t.store
  owned : c.store.Owned
  parsed : Resident.All t.parsed c.parsed

namespace Keeps

variable {free : Option Nat} {t t' : Clauses α}

theorem mono (h : Keeps l free t c) (ht : t.Implies t') : Keeps l free t' c :=
  ⟨h.store.mono ht.shows ht.records, h.owned, h.parsed.mono ht.parsed⟩

theorem parsedHit (h : Keeps l free t c) (r : Request α ε) :
    Keeps l free t (c.parsedHit r).2 ∧ ∀ x, (c.parsedHit r).1 = some x → t.Yields r x := by
  rw [Dispatcher.parsedHit]
  split
  · rename_i hreads
    refine ⟨⟨h.store, h.owned, h.parsed.get _⟩, fun x hx => .inl ⟨hreads, ?_⟩⟩
    simp only [Option.filter_eq_some_iff, Option.map_eq_some_iff] at hx
    obtain ⟨⟨p, hp, rfl⟩, -⟩ := hx
    simp only [Parsed.get, Option.filter_eq_some_iff] at hp
    exact h.parsed.of_get hp.1
  · exact ⟨h, fun x hx => by cases hx⟩

theorem storedHit (h : Keeps l free t c) (hr : t.Serves r) {hit : Option (Hit α)}
    (hc : c.storedHit r = .ok (hit, c')) :
    Keeps l free t c' ∧ ∀ x, hit = some x → t.Yields r x := by
  simp only [Dispatcher.storedHit] at hc
  obtain ⟨found, hfind, hc⟩ := bind_eq_ok_iff.mp hc
  obtain ⟨hstore, hshown⟩ := h.store.find Record.kind_decode hr.reads hfind
  have howned := h.owned.find hfind
  split at hc
  · cases hc
    exact ⟨⟨hstore, howned, h.parsed⟩, fun x hx => by cases hx⟩
  · rename_i rec hrec
    have hs := hshown rec hrec
    split at hc
    · cases hc
      exact ⟨⟨hstore.remove r.key (fun _ _ _ hs => hs) fun _ _ _ _ hr => hr,
        howned.remove r.key, h.parsed⟩, fun x hx => by cases hx⟩
    · rename_i value hvalue
      split at hc
      · rename_i hwrites
        obtain ⟨parsed, hput, hc⟩ := bind_eq_ok_iff.mp hc
        cases hc
        refine ⟨⟨hstore, howned, Parsed.all_put h.parsed (hr.parses hwrites _ _ hs hvalue) hput⟩,
          fun x hx => .inr ⟨_, hs, ?_⟩⟩
        cases hx
        exact ⟨rfl, hvalue⟩
      · cases hc
        refine ⟨⟨hstore, howned, h.parsed⟩, fun x hx => .inr ⟨_, hs, ?_⟩⟩
        cases hx
        exact ⟨rfl, hvalue⟩

theorem fromCache (h : Keeps l free t c) (hr : t.Serves r) {hit : Option (Hit α)}
    (hc : c.fromCache r = .ok (hit, c')) :
    Keeps l free t c' ∧ ∀ x, hit = some x → t.Yields r x := by
  obtain ⟨hparsed, hyields⟩ := h.parsedHit r
  rw [Dispatcher.fromCache] at hc
  split at hc
  · rename_i x c₁ hx
    rw [hx] at hparsed hyields
    cases hc
    exact ⟨hparsed, hyields⟩
  · rename_i c₁ hx
    rw [hx] at hparsed
    exact hparsed.storedHit hr hc

theorem lookup (h : Keeps l free t c) (hr : t.Serves r) {hit : Option (Hit α)}
    (hc : c.lookup r = .ok (hit, c')) :
    Keeps l free t c' ∧ ∀ x, hit = some x → t.Yields r x := by
  rw [Dispatcher.lookup] at hc
  split at hc
  · obtain ⟨p, hp, hc⟩ := bind_eq_ok_iff.mp hc
    cases hc
    obtain ⟨hk, hyields⟩ := h.fromCache hr hp
    refine ⟨hk, fun x hx => hyields x ?_⟩
    simp only [Option.filter_eq_some_iff] at hx
    exact hx.1
  · cases hc
    exact ⟨h, fun x hx => by cases hx⟩

theorem submit (h : Keeps l free t c) (hr : t.Serves r) {callback : Nat} {s : Submission}
    {told : List (Delivery α ε)} (hc : c.submit r callback = .ok (s, told, c')) :
    Keeps l free t c' := by
  obtain ⟨hit, c₁, hl, hcases⟩ := submit_cases hc
  have hk := (h.lookup hr hl).1
  have issued : ∀ refresh, Keeps l free t (c₁.issue r callback refresh).2 :=
    fun refresh => ⟨hk.store, hk.owned, hk.parsed⟩
  rcases hcases with ⟨-, -, -, rfl⟩ | ⟨x, -, -, ⟨-, -, rfl⟩ | ⟨-, -, rfl⟩ | ⟨-, -, rfl⟩⟩
  · exact issued false
  · exact hk
  · exact issued true
  · exact issued false

theorem submitOffline (h : Keeps l free t c) (hr : t.Serves r) {callback : Nat}
    {told : List (Delivery α ε)} (hc : c.submitOffline r callback = .ok (told, c')) :
    Keeps l free t c' := by
  simp only [Dispatcher.submitOffline] at hc
  obtain ⟨p, hp, hc⟩ := bind_eq_ok_iff.mp hc
  have hk := (h.fromCache hr hp).1
  split at hc
  · cases hc
    exact hk
  · cases hc
    exact hk

theorem keep (h : Keeps l free t c) {f : Flight α ε} {reply : Reply} {value : α}
    {metadata : Metadata} (ht : t.Takes f reply value metadata)
    (hc : c.keep f reply value metadata = .ok c') : Keeps l free t c' := by
  obtain ⟨store, parsed, rfl, hstore, hparsed⟩ := keep_ok hc
  have hput : store.Upholds Record.kind l free t.store ∧ store.Owned := by
    split at hstore
    · rename_i hcaches
      have hshared : (c.store.share (recordOf f reply metadata)).2.Upholds Record.kind l free
        t.store := h.store.of_tiers rfl rfl rfl h.store.seen
      exact ⟨hshared.put (ht.shown hcaches) (ht.recorded hcaches) hstore, h.owned.put hstore⟩
    · rw [hstore]
      exact ⟨h.store, h.owned⟩
  refine ⟨hput.1, hput.2, ?_⟩
  split at hparsed
  · rename_i hwrites
    exact Parsed.all_put h.parsed (ht.parsed hwrites) hparsed
  · rw [hparsed]
    exact h.parsed

theorem complete (h : Keeps l free t c) {ticket : Ticket} {reply : Reply}
    (ht : t.Allows c (.complete ticket reply)) {told : List (Delivery α ε)}
    (hc : c.complete ticket reply = .ok (told, c')) : Keeps l free t c' := by
  rcases complete_cases hc with rfl | rfl | ⟨f, value, hf, hsuccess, hvalue, hkeep⟩
  · exact h
  · exact ⟨h.store, h.owned, h.parsed⟩
  · have hland : Keeps l free t (c.land ticket.id) := ⟨h.store, h.owned, h.parsed⟩
    exact hland.keep (ht f value hf hsuccess hvalue) hkeep

theorem of_start {p : Setup} {now : Instant} (hv : l.Usable v) (hp : p.layout = l)
    (h : p.start v now = .ok c) : Keeps l v.free t c := by
  subst hp
  obtain ⟨store, hs, rfl⟩ := start_ok h
  obtain ⟨a, w, hstart, rfl⟩ := Cache.build_ok hs
  exact ⟨.started hv hstart _ _ _, Cache.owned_new _ _ _ _ _, Resident.all_of_empty rfl⟩

theorem reopen {p : Setup} {now : Instant} (h : Keeps l free t c) (hp : p.layout = l)
    (hc : p.start c.store.volume now = .ok c') : Keeps l free t c' := by
  subst hp
  obtain ⟨store, hs, rfl⟩ := start_ok hc
  obtain ⟨a, w, hstart, rfl⟩ := Cache.build_ok hs
  exact ⟨h.store.reopened hstart _ _, Cache.owned_new _ _ _ _ _, Resident.all_of_empty rfl⟩

/-- Every call that does its part leaves the dispatcher within its clauses. -/
theorem step (h : Keeps l free t c) {x : Call α ε} (ht : t.Allows c x)
    (hx : ∀ p now, x = .reopen p now → p.layout = l) (hc : c.call x = .ok c') :
    Keeps l free t c' := by
  cases x with
  | submit r callback =>
    obtain ⟨p, hp, hc⟩ := bind_eq_ok_iff.mp hc
    cases hc
    exact h.submit ht hp
  | submitOffline r callback =>
    obtain ⟨p, hp, hc⟩ := bind_eq_ok_iff.mp hc
    cases hc
    exact h.submitOffline ht hp
  | lookup r =>
    obtain ⟨p, hp, hc⟩ := bind_eq_ok_iff.mp hc
    cases hc
    exact (h.lookup ht hp).1
  | complete ticket reply =>
    obtain ⟨p, hp, hc⟩ := bind_eq_ok_iff.mp hc
    cases hc
    exact h.complete ht hp
  | fail ticket failure =>
    cases hc
    cases fail_cases c ticket failure with
    | inl hf => rwa [hf]
    | inr hf =>
      rw [hf]
      exact ⟨h.store, h.owned, h.parsed⟩
  | cancel ticket =>
    cases hc
    rw [Dispatcher.cancel]
    split
    · exact h
    · exact ⟨h.store, h.owned, h.parsed⟩
  | dropCallback callback =>
    cases hc
    exact ⟨h.store, h.owned, h.parsed⟩
  | reset =>
    cases hc
    exact ⟨h.store.clear, .clear _, Resident.all_of_empty rfl⟩
  | clearIf p =>
    cases hc
    exact ⟨h.store.removeIf p (fun _ _ _ hs => hs) fun _ _ _ _ _ _ hr => hr, h.owned.removeIf p,
      Resident.all_of_empty rfl⟩
  | setClock now =>
    cases hc
    exact ⟨h.store, h.owned, h.parsed⟩
  | setTime now =>
    cases hc
    exact ⟨h.store.setTime now, h.owned.congr rfl rfl rfl, h.parsed⟩
  | hold id =>
    cases hc
    exact ⟨h.store.of_tiers rfl rfl rfl h.store.seen, h.owned.congr rfl rfl rfl, h.parsed⟩
  | release id =>
    cases hc
    exact ⟨h.store.of_tiers rfl rfl rfl h.store.seen, h.owned.congr rfl rfl rfl, h.parsed⟩
  | resizeMemory capacity =>
    cases hc
    exact ⟨h.store.resizeMemory capacity, h.owned.resizeMemory capacity, h.parsed⟩
  | clearResident =>
    cases hc
    exact ⟨h.store.clearResident ht, h.owned.clearResident, h.parsed⟩
  | clearLingering =>
    cases hc
    exact ⟨h.store.clearLingering, h.owned.clearLingering, h.parsed⟩
  | dropWindow =>
    cases hc
    exact ⟨h.store.of_tiers rfl rfl rfl h.store.seen, h.owned.dropWindow, h.parsed⟩
  | sweep =>
    cases hc
    exact ⟨h.store.sweep, h.owned.sweep, h.parsed⟩
  | reopen p now => exact h.reopen (hx p now rfl) hc

end Keeps

/-- Clauses on the run so far are kept throughout, if they only grow and every call does its
part. -/
theorem Steady.keeps_of {t : List (Moment α ε) → Clauses α} (hv : l.Usable v)
    (hgrow : ∀ past m, (t past).Implies (t (m :: past)))
    (hallow : ∀ past c x, Steady l v past c → (t (⟨c, x⟩ :: past)).Allows c x)
    (h : Steady l v past c) : Keeps l v.free (t past) c := by
  induction h with
  | start hp h => exact .of_start hv hp h
  | @step past c c' x h hx hc ih => exact (ih.mono (hgrow past _)).step (hallow past c x h) hx hc

/-- Whatever happens in a steady run, its store has the records of its stores on shelves. -/
theorem Steady.keeps (hv : l.Usable v) (h : Steady l v past c) :
    Keeps l v.free Clauses.free c :=
  h.keeps_of (t := fun _ => .free) hv (fun _ _ => ⟨fun _ _ => id, fun _ _ _ => id, fun _ _ => id⟩)
    fun _ c x _ => Clauses.free_allows c x

end Dispatcher

end TierCache
