import TierCache.Dispatcher
import TierCache.Proofs.Cache.Coherence
import TierCache.Proofs.Cache.Provenance

/-!
# Runs of a dispatcher

A run makes a dispatcher over a directory, calls it in any order, and may make it again over the
same directory, with other bounds or another version. What is said of a run speaks of its moments:
the dispatcher before a call, and the call.
-/
namespace TierCache

/-- How a dispatcher is made. -/
structure Setup where
  memoryCapacity : Nat
  overflowWindow : Nat
  parsedEntries : Nat
  layout : Layout

namespace Setup

def ofSettings (s : Settings) : Setup where
  memoryCapacity := s.memoryCapacity
  overflowWindow := s.overflowWindow
  parsedEntries := s.parsedEntries
  layout := .families s

def design (p : Setup) : Design Record where
  kind := Record.kind
  memoryCapacity := p.memoryCapacity
  overflowWindow := p.overflowWindow
  layout := p.layout

def start {α ε : Type} (p : Setup) (v : Volume) (now : Instant) :
    Except Fault (Dispatcher α ε) := do
  let store ← p.design.build v
  return .new store p.parsedEntries now

theorem start_ofSettings {α ε : Type} (s : Settings) (v : Volume) (now : Instant) :
    ((ofSettings s).start v now : Except Fault (Dispatcher α ε)) =
      Dispatcher.ofSettings s v now := rfl

end Setup

namespace Dispatcher

variable {α ε : Type}

inductive Call (α ε : Type) where
  | submit (r : Request α ε) (callback : Nat)
  | submitOffline (r : Request α ε) (callback : Nat)
  | lookup (r : Request α ε)
  | complete (t : Ticket) (reply : Reply)
  | fail (t : Ticket) (failure : FetchFailure)
  | cancel (t : Ticket)
  | dropCallback (callback : Nat)
  | reset
  | clearIf (p : String → Bool)
  | setClock (now : Instant)
  /-- The clock that files are stamped by, which is another one. -/
  | setTime (now : Int)
  | hold (id : Nat)
  | release (id : Nat)
  | resizeMemory (capacity : Nat)
  | clearResident
  | clearLingering
  | dropWindow
  | sweep
  /-- The dispatcher is made again, with nothing in memory or in flight. -/
  | reopen (p : Setup) (now : Instant)

/-- The request that a call is about. -/
def Call.request? : Call α ε → Option (Request α ε)
  | .submit r _ | .submitOffline r _ | .lookup r => some r
  | _ => none

def withStore (c : Dispatcher α ε) (act : RecordCache → RecordCache) : Dispatcher α ε :=
  { c with store := act c.store }

def call (c : Dispatcher α ε) : Call α ε → Except Fault (Dispatcher α ε)
  | .submit r callback => return (← c.submit r callback).2.2
  | .submitOffline r callback => return (← c.submitOffline r callback).2
  | .lookup r => return (← c.lookup r).2
  | .complete t reply => return (← c.complete t reply).2
  | .fail t failure => .ok (c.fail t failure).2
  | .cancel t => .ok (c.cancel t).2
  | .dropCallback callback => .ok (c.dropCallback callback)
  | .reset => .ok c.reset
  | .clearIf p => .ok (c.clearIf p).2
  | .setClock now => .ok (c.setClock now)
  | .setTime now => .ok (c.withStore fun s => { s with volume := { s.volume with clock := now } })
  | .hold id => .ok (c.withStore (·.hold id))
  | .release id => .ok (c.withStore (·.release id))
  | .resizeMemory capacity => .ok (c.withStore (·.resizeMemory capacity))
  | .clearResident => .ok (c.withStore (·.clearResident))
  | .clearLingering => .ok (c.withStore (·.clearLingering))
  | .dropWindow => .ok (c.withStore (·.dropWindow))
  | .sweep => .ok (c.withStore (·.sweep.2))
  | .reopen p now => p.start c.store.volume now

/-- A call of a run, and the dispatcher that it was made of. -/
structure Moment (α ε : Type) where
  before : Dispatcher α ε
  call : Call α ε

/-- Stores are opened in the directory of a layout only. -/
def Admits (l : Layout) : Call α ε → Prop
  | .reopen p _ => ∀ home, p.layout.Home home → l.Home home
  | _ => True

/-- The dispatchers that runs from a volume lead to, with the moments of the run, latest first. -/
inductive Reaches (l : Layout) (v : Volume) : List (Moment α ε) → Dispatcher α ε → Prop where
  | start {p : Setup} {now : Instant} {c : Dispatcher α ε}
      (hp : ∀ home, p.layout.Home home → l.Home home) (h : p.start v now = .ok c) :
      Reaches l v [] c
  | step {past : List (Moment α ε)} {c c' : Dispatcher α ε} {x : Call α ε}
      (h : Reaches l v past c) (hx : Admits l x) (hc : c.call x = .ok c') :
      Reaches l v (⟨c, x⟩ :: past) c'

/-- The dispatchers that calls of one dispatcher lead to, with their moments, latest first. It is
not made again on the way. -/
inductive Continues (c₀ : Dispatcher α ε) : List (Moment α ε) → Dispatcher α ε → Prop where
  | nil : Continues c₀ [] c₀
  | step {past : List (Moment α ε)} {c c' : Dispatcher α ε} {x : Call α ε}
      (h : Continues c₀ past c) (hx : ∀ p now, x ≠ .reopen p now) (hc : c.call x = .ok c') :
      Continues c₀ (⟨c, x⟩ :: past) c'

theorem Continues.reaches {l : Layout} {v : Volume} {p : Setup} {now : Instant}
    {past : List (Moment α ε)} {c₀ c : Dispatcher α ε}
    (hp : ∀ home, p.layout.Home home → l.Home home) (hstart : p.start v now = .ok c₀)
    (h : Continues c₀ past c) : Reaches l v past c := by
  induction h with
  | nil => exact .start hp hstart
  | @step past c c' x _ hx hc ih =>
    refine ih.step ?_ hc
    cases x with
    | reopen p now => exact absurd rfl (hx p now)
    | _ => trivial

/-- Every moment of a run was come to by the ones before it. -/
theorem Continues.earlier {c₀ c : Dispatcher α ε} {later earlier : List (Moment α ε)}
    {m : Moment α ε} (h : Continues c₀ (later ++ m :: earlier) c) :
    Continues c₀ earlier m.before := by
  induction later generalizing c with
  | nil =>
    cases h
    assumption
  | cons m' later ih =>
    cases h
    exact ih ‹_›

/-- Some call was about the request. -/
def Asked (past : List (Moment α ε)) (q : Request α ε) : Prop :=
  ∃ m ∈ past, m.call.request? = some q

/-- A submission of the request issued a ticket with the number. -/
def Issued (past : List (Moment α ε)) (id : Nat) (q : Request α ε) : Prop :=
  ∃ before callback s told after t, ⟨before, .submit q callback⟩ ∈ past ∧
    before.submit q callback = .ok (s, told, after) ∧ s.ticket? = some t ∧ t.id = id

/-- A flight is for a request. -/
structure IsFor (f : Flight α ε) (q : Request α ε) : Prop where
  key : f.key = q.key
  policy : f.policy = q.policy
  parser : f.parser = q.parser

/-- A reply completed the ticket that a submission of the request had issued, and was parsed. -/
def Completed (past : List (Moment α ε)) (q : Request α ε) (reply : Reply) (received : Instant) :
    Prop :=
  ∃ later earlier before t f, past = later ++ ⟨before, .complete t reply⟩ :: earlier ∧
    Issued earlier t.id q ∧ before.flights.get? t.id = some f ∧ IsFor f q ∧
    before.now = received ∧ reply.isSuccess = true ∧ ∃ value, q.parser.parse reply.body = .ok value

variable {past : List (Moment α ε)} {m : Moment α ε} {q : Request α ε} {reply : Reply}
variable {received : Instant}

theorem Asked.cons (h : Asked past q) (m : Moment α ε) : Asked (m :: past) q := by
  obtain ⟨m', hm, hq⟩ := h
  exact ⟨m', List.mem_cons_of_mem m hm, hq⟩

@[simp] theorem asked_cons : Asked (m :: past) q ↔ m.call.request? = some q ∨ Asked past q := by
  simp only [Asked, List.mem_cons, exists_eq_or_imp]

theorem Issued.cons {id : Nat} (h : Issued past id q) (m : Moment α ε) :
    Issued (m :: past) id q := by
  obtain ⟨before, callback, s, told, after, t, hm, h⟩ := h
  exact ⟨before, callback, s, told, after, t, List.mem_cons_of_mem m hm, h⟩

theorem Issued.asked {id : Nat} (h : Issued past id q) : Asked past q := by
  obtain ⟨before, callback, s, told, after, t, hm, -⟩ := h
  exact ⟨_, hm, rfl⟩

theorem Completed.cons (h : Completed past q reply received) (m : Moment α ε) :
    Completed (m :: past) q reply received := by
  obtain ⟨later, earlier, before, t, f, rfl, h⟩ := h
  exact ⟨m :: later, earlier, before, t, f, rfl, h⟩

/-- What was completed was asked for. -/
theorem Completed.asked (h : Completed past q reply received) : Asked past q := by
  obtain ⟨later, earlier, before, t, f, rfl, hi, -⟩ := h
  obtain ⟨m, hm, hq⟩ := hi.asked
  exact ⟨m, List.mem_append_right later (List.mem_cons_of_mem _ hm), hq⟩

/-- A moment that is not the last one was there before it. -/
theorem split_of_cons {m' : Moment α ε} {later earlier : List (Moment α ε)}
    (h : m :: past = later ++ m' :: earlier) (hm : m ≠ m') :
    ∃ later', past = later' ++ m' :: earlier := by
  cases later with
  | nil => exact absurd (List.cons.inj h).1 hm
  | cons m'' later => exact ⟨later, (List.cons.inj h).2⟩

/-- A call that completes nothing adds no completion. -/
theorem Completed.of_cons (h : Completed (m :: past) q reply received)
    (hm : ∀ t reply, m.call ≠ .complete t reply) : Completed past q reply received := by
  obtain ⟨later, earlier, before, t, f, he, h⟩ := h
  obtain ⟨later', he⟩ := split_of_cons he fun hm' => hm t reply (congrArg Moment.call hm')
  exact ⟨later', earlier, before, t, f, he, h⟩

/-- Makes the calls of a list in turn; their moments come latest first. -/
def follow (past : List (Moment α ε)) (c : Dispatcher α ε) :
    List (Call α ε) → Except Fault (List (Moment α ε) × Dispatcher α ε)
  | [] => .ok (past, c)
  | x :: xs => do follow (⟨c, x⟩ :: past) (← c.call x) xs

variable {past' : List (Moment α ε)} {c c' : Dispatcher α ε} {xs : List (Call α ε)}

/-- What each of the calls keeps, all of them keep. -/
theorem follow_induction {P : List (Moment α ε) → Dispatcher α ε → Prop} (h : P past c)
    (hs : ∀ past c x c', x ∈ xs → P past c → c.call x = .ok c' → P (⟨c, x⟩ :: past) c')
    (hc : follow past c xs = .ok (past', c')) : P past' c' := by
  induction xs generalizing past c with
  | nil =>
    cases hc
    exact h
  | cons x xs ih =>
    obtain ⟨c₁, hcall, hc⟩ := bind_eq_ok_iff.mp hc
    exact ih (hs past c x c₁ List.mem_cons_self h hcall)
      (fun past c y c' hy => hs past c y c' (List.mem_cons_of_mem x hy)) hc

theorem continues_of_follow (hx : ∀ x ∈ xs, ∀ p now, x ≠ .reopen p now)
    (hc : follow [] c xs = .ok (past', c')) : Continues c past' c' :=
  follow_induction (P := Continues c) .nil (fun _ _ x _ hm h hc => h.step (hx x hm) hc) hc

/-- Makes a dispatcher and then the calls, and tells whether the end is as it should be. -/
def trial (p : Setup) (v : Volume) (now : Instant) (xs : List (Call α ε))
    (check : List (Moment α ε) → Dispatcher α ε → Bool) : Bool :=
  (p.start v now).toOption.any fun c => (follow [] c xs).toOption.any fun r => check r.1 r.2

theorem continues_of_trial (p : Setup) (v : Volume) (now : Instant) (xs : List (Call α ε))
    (check : List (Moment α ε) → Dispatcher α ε → Bool) (hx : ∀ x ∈ xs, ∀ p now, x ≠ .reopen p now)
    (h : trial p v now xs check = true) :
    ∃ c₀ past c, p.start v now = .ok c₀ ∧ Continues c₀ past c ∧ check past c = true := by
  obtain ⟨c₀, hstart, h⟩ := exists_of_any h
  obtain ⟨⟨past, c⟩, hfollow, h⟩ := exists_of_any h
  exact ⟨c₀, past, c, hstart, continues_of_follow hx hfollow, h⟩

theorem asked_follow (hc : follow past c xs = .ok (past', c')) :
    Asked past' q ↔ (∃ x ∈ xs, x.request? = some q) ∨ Asked past q := by
  induction xs generalizing past c with
  | nil =>
    cases hc
    simp
  | cons x xs ih =>
    obtain ⟨c₁, -, hc⟩ := bind_eq_ok_iff.mp hc
    rw [ih hc, asked_cons]
    simp only [List.mem_cons, exists_eq_or_imp]
    exact or_left_comm.trans or_assoc.symm

end Dispatcher

end TierCache
