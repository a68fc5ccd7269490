import TierCache.Proofs.Cache.Repeating
import TierCache.Proofs.Resident.Accepting

/-!
# The counters of a cache add up

A cache counts its look-ups by where they end, and its memory tier counts the same look-ups by
whether it has the key. The counters are kept in two places and are raised on many ways, some of
which put into memory what another tier had. But every move comes down to a row of calls of the
memory tier, to what the overflow tier does with what these calls drop, and to one look-up or one
write that is counted. So over a run of a new cache each counter is the number of the moves that
it is to count.
-/
namespace TierCache

variable {α : Type}

namespace TierCounts

/-- All look-ups that were counted. -/
def lookups (s : TierCounts) : Nat := s.memoryHits + s.overflowHits + s.diskHits + s.misses

def plus (s t : TierCounts) : TierCounts where
  memoryHits := s.memoryHits + t.memoryHits
  overflowHits := s.overflowHits + t.overflowHits
  diskHits := s.diskHits + t.diskHits
  misses := s.misses + t.misses
  decodeFailures := s.decodeFailures + t.decodeFailures
  diskWrites := s.diskWrites + t.diskWrites

@[simp] theorem lookups_plus (s t : TierCounts) : (s.plus t).lookups = s.lookups + t.lookups := by
  simp only [lookups, plus]
  omega

end TierCounts

namespace Cache

/-- Where a look-up ends. -/
inductive Source where
  | memory
  | overflow
  | disk
  | nowhere
  /-- The record cannot be decoded. -/
  | spoiled
  deriving DecidableEq, Repr

/-- What a look-up counts. -/
def Source.counted : Source → TierCounts
  | .memory => { memoryHits := 1 }
  | .overflow => { overflowHits := 1 }
  | .disk => { diskHits := 1 }
  | .nowhere => { misses := 1 }
  | .spoiled => { misses := 1, decodeFailures := 1 }

@[simp] theorem Source.lookups_counted (x : Source) : x.counted.lookups = 1 := by cases x <;> rfl

theorem Source.decodeFailures_counted_le (x : Source) :
    x.counted.decodeFailures ≤ x.counted.misses := by
  cases x <;> decide

/-- Where a look-up ends, and with what. -/
inductive Origin (α : Type) where
  | memory (v : Shared α)
  | overflow (v : Shared α)
  | disk (v : Shared α)
  | nowhere
  | spoiled

namespace Origin

def source : Origin α → Source
  | .memory _ => .memory
  | .overflow _ => .overflow
  | .disk _ => .disk
  | .nowhere => .nowhere
  | .spoiled => .spoiled

def found : Origin α → Option (Shared α)
  | .memory v | .overflow v | .disk v => some v
  | .nowhere | .spoiled => none

/-- What is found beyond memory is brought into memory. -/
def broughtIn : Origin α → Option (Shared α)
  | .overflow v | .disk v => some v
  | _ => none

end Origin

def origin (c : Cache α) (key : String) (f : Family) : Origin α :=
  match (c.memory.get key).1 with
  | some v => .memory v
  | none =>
    match (c.overflow.get c.inUse key).1 with
    | some v => .overflow v
    | none =>
      match ((c.archive.get f).get c.volume (.ofKey key)).1 with
      | none => .nowhere
      | some bytes =>
        match c.kind.decode bytes with
        | .ok value => .disk ⟨c.nextId, value⟩
        | .error _ => .spoiled

/-- The calls of the memory tier for a look-up. -/
def asked (c : Cache α) (key : String) (f : Family) : List (Resident.Call (Shared α)) :=
  .get key :: (c.origin key f).broughtIn.toList.map fun v => .put key v (c.kind.cost v.value)

/-- The overflow tier is asked for what memory does not have. -/
def sought (c : Cache α) (key : String) : Lingering α :=
  match (c.memory.get key).1 with
  | some _ => c.overflow
  | none => (c.overflow.get c.inUse key).2

/-- The calls of the memory tier that a move makes. -/
def calls (c : Cache α) : Move α → List (Resident.Call (Shared α))
  | .put key v _ =>
    if v.id ∈ c.held then [.put (Key.normalize key) v (c.kind.cost v.value)] else []
  | .putCosting key v cost _ => if v.id ∈ c.held then [.put (Key.normalize key) v cost] else []
  | .find key f => c.asked (Key.normalize key) f
  | .remove key => [.remove (Key.normalize key)]
  | .removeIf q => [.keepIf fun key => !q key]
  | .clear | .clearResident => [.clear]
  | .resizeMemory capacity => [.resize capacity]
  | _ => []

/-- What a move does to the overflow tier by itself. -/
def ownOverflow (c : Cache α) : Move α → Lingering α
  | .find key _ => c.sought (Key.normalize key)
  | .remove key => c.overflow.remove (Key.normalize key)
  | .removeIf q => c.overflow.keepIf fun key => !q key
  | .clear | .clearLingering => c.overflow.clear
  | .sweep => (c.overflow.forgetDead c.inUse).2
  | .dropWindow => c.overflow.dropWindow
  | _ => c.overflow

/-- A move of a run with its reply, and the cache before it and after it. -/
structure Step (α : Type) where
  before : Cache α
  move : Move α
  reply : Reply α
  after : Cache α

namespace Step

def isFind (s : Step α) : Bool :=
  match s.move with
  | .find _ _ => true
  | _ => false

/-- A look-up that is told that there is nothing. -/
def isVain (s : Step α) : Bool :=
  match s.reply with
  | .found none => true
  | _ => false

def source? (s : Step α) : Option Source :=
  match s.move with
  | .find key f => some (s.before.origin (Key.normalize key) f).source
  | _ => none

/-- A put whose value comes to be on disk. -/
def stores (s : Step α) : Bool :=
  match s.move with
  | .put key v placement | .putCosting key v _ placement =>
    v.id ∈ s.before.held && s.before.commits key v.value placement
  | _ => false

/-- What memory reports as removed. -/
def reports (s : Step α) : List (Removal (Shared α)) :=
  match Resident.kept.run s.before.memory (s.before.calls s.move) with
  | .ok (_, events) => events.flatMap Resident.Event.removed
  | .error _ => []

/-- The values that memory hands over to the overflow tier. -/
def handed (s : Step α) : List (Removal (Shared α)) :=
  s.reports.filter fun r => r.cause.isEviction

/-- What a step adds to the counters. -/
def counted (s : Step α) : TierCounts where
  memoryHits := if s.source? = some .memory then 1 else 0
  overflowHits := if s.source? = some .overflow then 1 else 0
  diskHits := if s.source? = some .disk then 1 else 0
  misses := if s.isVain then 1 else 0
  decodeFailures := if s.source? = some .spoiled then 1 else 0
  diskWrites := if s.stores then 1 else 0

/-- A step is counted once in the cache and once in its memory tier, and the tiers in memory change
by the calls that it comes down to, and by nothing else. -/
structure Counted (s : Step α) : Prop where
  once : s.counted.lookups = if s.isFind then 1 else 0
  spoiled : s.counted.decodeFailures ≤ s.counted.misses
  stats : s.after.stats = s.before.stats.plus s.counted
  lookups : s.after.memory.lookups = (s.before.memory.hits + s.counted.memoryHits,
    s.before.memory.misses + (s.counted.overflowHits + s.counted.diskHits + s.counted.misses))
  tiers : ∃ events,
    Resident.kept.run s.before.memory (s.before.calls s.move) = .ok (s.after.memory, events) ∧
    s.after.overflow = (s.before.ownOverflow s.move).receive
      (events.flatMap Resident.Event.removed)

end Step

variable {c c' : Cache α} {key : String} {v : Shared α}

/-- What a put into memory comes to, in memory and beyond. -/
theorem putResident_tiers {cost : Nat} (h : c.putResident key v cost = .ok c') :
    ∃ removed, c.memory.put key v cost = .ok (c'.memory, removed) ∧
      c' = { c with memory := c'.memory, overflow := c.overflow.receive removed } := by
  obtain ⟨out, hput, h⟩ := bind_eq_ok_iff.mp h
  cases h
  exact ⟨out.2, hput, rfl⟩

theorem stats_writeRecord (c : Cache α) (key : String) (x : α) (f : Family) (r : Retention) :
    (c.writeRecord (Key.normalize key) x f r).stats = { c.stats with
      diskWrites := c.stats.diskWrites + if c.commits key x (.disk f r) then 1 else 0 } := by
  cases henc : c.kind.encode x with
  | error problem =>
    have hcom : c.commits key x (.disk f r) = false := by rw [commits, henc]; rfl
    rw [writeRecord, henc, hcom]
    rfl
  | ok bytes =>
    have hcom : c.commits key x (.disk f r) = decide (((c.archive.get f).put c.volume
        (.ofKey (Key.normalize key)) bytes r).1 = .committed) := by rw [commits, henc]; rfl
    simp only [writeRecord, henc, hcom, decide_eq_true_eq]
    split
    · rename_i hout
      rw [if_pos hout]
    · rename_i hout
      rw [if_neg hout]
      rfl

/-- What a put comes to, wherever its value is placed. -/
theorem putCosting_tiers {cost : Nat} {placement : Placement}
    (h : c.putCosting key v cost placement = .ok c') :
    ∃ removed, c.memory.put (Key.normalize key) v cost = .ok (c'.memory, removed) ∧
      c'.overflow = c.overflow.receive removed ∧ c'.stats = { c.stats with
        diskWrites := c.stats.diskWrites + if c.commits key v.value placement then 1 else 0 } := by
  cases placement with
  | memory =>
    obtain ⟨removed, hput, he⟩ := putResident_tiers h
    exact ⟨removed, hput, by rw [he], by rw [he]; rfl⟩
  | disk f r =>
    obtain ⟨removed, hput, he⟩ := putResident_tiers h
    obtain ⟨-, hm, ho, -⟩ := c.tiers_writeRecord (Key.normalize key) v.value f r
    refine ⟨removed, hm ▸ hput, ?_, ?_⟩
    · rw [he, ho]
    · rw [he, stats_writeRecord]

theorem inUse_get (c : Cache α) (key : String) :
    Cache.inUse { c with memory := (c.memory.get key).2 } = c.inUse := by
  funext id
  simp only [inUse, Resident.entries_get]

/-- What a look-up comes to, by where it ends. -/
structure Looked (c : Cache α) (key : String) (f : Family) (found : Option (Shared α))
    (c' : Cache α) : Prop where
  found : found = (c.origin key f).found
  stats : c'.stats = c.stats.plus (c.origin key f).source.counted
  lookups : c'.memory.lookups = if (c.origin key f).source = .memory then
    (c.memory.hits + 1, c.memory.misses) else (c.memory.hits, c.memory.misses + 1)
  tiers : ∃ events, Resident.kept.run c.memory (c.asked key f) = .ok (c'.memory, events) ∧
    c'.overflow = (c.sought key).receive (events.flatMap Resident.Event.removed)

theorem Looked.of_bringIn {o : Lingering α} {a : Archive} {w : Volume} {n : Nat} {f : Family}
    {x : Origin α} (hm : (c.memory.get key).1 = none) (ho : c.sought key = o)
    (hx : c.origin key f = x) (hfound : x.found = some v) (hbrought : x.broughtIn = some v)
    (hc : Cache.bringIn { c with
      memory := (c.memory.get key).2, overflow := o, archive := a, volume := w, nextId := n }
      key v = .ok c') :
    Looked c key f (some v) { c' with stats := c'.stats.plus x.source.counted } := by
  obtain ⟨removed, hput, he⟩ := putResident_tiers hc
  obtain ⟨events, hrun, hremoved⟩ := Resident.run_put hput
  have hne : x.source ≠ .memory := by
    intro h
    cases x <;> cases h
    cases hbrought
  refine ⟨?_, ?_, ?_, ?_⟩
  · rw [hx, hfound]
  · rw [hx, he]
  · rw [hx, if_neg hne]
    exact (Resident.lookups_put hput).trans (by rw [Resident.get_of_none hm]; rfl)
  · rw [asked, hx, hbrought]
    refine ⟨_, Resident.run_cons rfl hrun, ?_⟩
    rw [List.flatMap_cons, hremoved, ho, he]
    rfl

theorem Looked.of_miss {x : Origin α} {f : Family} (hm : (c.memory.get key).1 = none)
    (hx : c.origin key f = x) (hfound : x.found = none)
    (hs : c'.stats = c.stats.plus x.source.counted)
    (hmem : c'.memory = (c.memory.get key).2) (hover : c'.overflow = c.sought key) :
    Looked c key f none c' := by
  have hbrought : x.broughtIn = none ∧ x.source ≠ .memory := by
    cases x with
    | memory v | overflow v | disk v => cases hfound
    | nowhere | spoiled => exact ⟨rfl, Source.noConfusion⟩
  refine ⟨?_, ?_, ?_, ?_⟩
  · rw [hx, hfound]
  · rw [hx, hs]
  · rw [hx, if_neg hbrought.2, hmem, Resident.get_of_none hm]
    rfl
  · rw [asked, hx, hbrought.1, hmem, hover]
    exact ⟨_, Resident.run_cons rfl rfl, rfl⟩

/-- A look-up comes to what its origin says, in both sets of counters. -/
theorem looked {f : Family} {found : Option (Shared α)} (hc : c.find key f = .ok (found, c')) :
    Looked c (Key.normalize key) f found c' := by
  -- the cases are those of `origin`, each with the branch of the look-up that it stands for
  simp only [find] at hc
  cases hm : (c.memory.get (Key.normalize key)).1 with
  | some v =>
    rw [hm] at hc
    cases hc
    have hx : c.origin (Key.normalize key) f = .memory v := by rw [origin, hm]
    refine ⟨?_, ?_, ?_, ?_⟩
    · rw [hx]
      rfl
    · rw [hx]
      rfl
    · rw [hx]
      exact Resident.lookups_of_some hm
    · rw [asked, sought, hm, hx]
      exact ⟨_, Resident.run_cons rfl rfl, rfl⟩
  | none =>
    rw [hm] at hc
    simp only [inUse_get] at hc
    have ho : c.sought (Key.normalize key) = (c.overflow.get c.inUse (Key.normalize key)).2 := by
      rw [sought, hm]
    cases hl : (c.overflow.get c.inUse (Key.normalize key)).1 with
    | some v =>
      rw [hl] at hc
      obtain ⟨c₁, hin, hc⟩ := bind_eq_ok_iff.mp hc
      cases hc
      have hx : c.origin (Key.normalize key) f = .overflow v := by rw [origin, hm, hl]
      exact .of_bringIn hm ho hx rfl rfl hin
    | none =>
      rw [hl] at hc
      simp only [getRecord] at hc
      split at hc
      · rename_i hrec
        cases hc
        have hx : c.origin (Key.normalize key) f = .nowhere := by rw [origin, hm, hl, hrec]
        exact .of_miss hm hx rfl rfl rfl ho.symm
      · rename_i bytes hrec
        split at hc
        · rename_i value hdec
          obtain ⟨c₁, hin, hc⟩ := bind_eq_ok_iff.mp hc
          cases hc
          have hx : c.origin (Key.normalize key) f = .disk ⟨c.nextId, value⟩ := by
            simp only [origin, hm, hl, hrec, hdec]
          exact .of_bringIn hm ho hx rfl rfl hin
        · rename_i problem hdec
          cases hc
          have hx : c.origin (Key.normalize key) f = .spoiled := by
            simp only [origin, hm, hl, hrec, hdec]
          exact .of_miss hm hx rfl rfl rfl ho.symm

namespace Step.Counted

/-- A move that looks nothing up and writes nothing. -/
theorem of_calls {m : Move α} {r : Reply α} (hz : (⟨c, m, r, c'⟩ : Step α).counted = {})
    (hf : (⟨c, m, r, c'⟩ : Step α).isFind = false) (hs : c'.stats = c.stats)
    (hl : c'.memory.lookups = c.memory.lookups)
    (ht : ∃ events, Resident.kept.run c.memory (c.calls m) = .ok (c'.memory, events) ∧
      c'.overflow = (c.ownOverflow m).receive (events.flatMap Resident.Event.removed)) :
    (⟨c, m, r, c'⟩ : Step α).Counted := by
  refine ⟨?_, ?_, ?_, ?_, ht⟩
  · rw [hz, hf]
    rfl
  · simp only [hz, Nat.le_refl]
  · rw [hz]
    exact hs
  · rw [hz]
    exact hl

theorem putCosting {cost : Nat} {placement : Placement} {r : Reply α}
    (hc : (if v.id ∈ c.held then (c.putCosting key v cost placement).map (.done, ·)
      else .ok (.done, c)) = .ok (r, c')) :
    (⟨c, .putCosting key v cost placement, r, c'⟩ : Step α).Counted := by
  split at hc
  · rename_i hid
    obtain ⟨c₁, hput, he⟩ := map_eq_ok_iff.mp hc
    cases he
    obtain ⟨removed, hmem, hover, hstats⟩ := putCosting_tiers hput
    obtain ⟨events, hrun, hremoved⟩ := Resident.run_put hmem
    have hcalls : c.calls (.putCosting key v cost placement) = [.put (Key.normalize key) v cost] :=
      if_pos hid
    have hcount : (⟨c, .putCosting key v cost placement, .done, c'⟩ : Step α).counted =
        { diskWrites := if c.commits key v.value placement then 1 else 0 } := by
      simp [Step.counted, Step.source?, Step.isVain, Step.stores, hid]
    refine ⟨?_, ?_, ?_, ?_, events, ?_, ?_⟩
    · rw [hcount]
      rfl
    · simp only [hcount, Nat.le_refl]
    · rw [hstats, hcount]
      rfl
    · rw [hcount]
      exact Resident.lookups_put hmem
    · rw [hcalls]
      exact hrun
    · rw [hremoved]
      exact hover
  · rename_i hid
    cases hc
    have hcalls : c.calls (.putCosting key v cost placement) = [] := if_neg hid
    refine of_calls ?_ rfl rfl rfl ⟨[], ?_, rfl⟩
    · simp [Step.counted, Step.source?, Step.isVain, Step.stores, hid]
    · rw [hcalls]
      rfl

/-- What one call of memory removes is not handed over. -/
theorem of_removal {m : Move α} {r : Reply α} {call : Resident.Call (Shared α)}
    {e : Resident.Event (Shared α)} (hz : (⟨c, m, r, c'⟩ : Step α).counted = {})
    (hf : (⟨c, m, r, c'⟩ : Step α).isFind = false) (hs : c'.stats = c.stats)
    (hl : c'.memory.lookups = c.memory.lookups)
    (hcalls : c.calls m = [call]) (hstep : Resident.kept.step c.memory call = .ok (c'.memory, e))
    (he : ∀ r ∈ e.removed, r.cause.isEviction = false) (ho : c'.overflow = c.ownOverflow m) :
    (⟨c, m, r, c'⟩ : Step α).Counted := by
  refine of_calls hz hf hs hl ⟨[e], ?_, ?_⟩
  · rw [hcalls]
    exact Resident.run_cons hstep rfl
  · rw [List.flatMap_singleton, Lingering.receive_eq_self _ he, ho]

theorem find {f : Family} {found : Option (Shared α)} {given : Cache α}
    (hc : c.find key f = .ok (found, c')) (hs : given.stats = c'.stats)
    (hm : given.memory = c'.memory) (ho : given.overflow = c'.overflow) :
    (⟨c, .find key f, .found found, given⟩ : Step α).Counted := by
  obtain ⟨rfl, hstats, hlookups, htiers⟩ := looked hc
  have hcount : (⟨c, .find key f, .found (c.origin (Key.normalize key) f).found, given⟩ :
      Step α).counted = (c.origin (Key.normalize key) f).source.counted := by
    cases hx : c.origin (Key.normalize key) f <;>
      simp [Step.counted, Step.source?, Step.isVain, Step.stores, Origin.source, Origin.found,
        Source.counted, hx]
  refine ⟨?_, ?_, ?_, ?_, ?_⟩
  · rw [hcount]
    exact Source.lookups_counted _
  · rw [hcount]
    exact Source.decodeFailures_counted_le _
  · rw [hs, hstats, hcount]
  · rw [hm, hlookups, hcount]
    cases c.origin (Key.normalize key) f <;> rfl
  · rw [hm, ho]
    exact htiers

end Step.Counted

/-- Every move is counted once in the cache and once in its memory tier. -/
theorem counted_move {p : Design α} {m : Move α} {r : Reply α} (hm : c.move p m = .ok (r, c'))
    (hne : m ≠ .reopen) : (⟨c, m, r, c'⟩ : Step α).Counted := by
  cases m with
  | find key f =>
    obtain ⟨⟨found, c₁⟩, hfind, he⟩ := map_eq_ok_iff.mp hm
    cases he
    cases found <;> exact .find hfind rfl rfl rfl
  | put key v placement =>
    -- the same as a put that is told the cost, but its step is another
    obtain ⟨honce, hspoiled, hstats, hlookups, htiers⟩ := Step.Counted.putCosting hm
    exact ⟨honce, hspoiled, hstats, hlookups, htiers⟩
  | putCosting key v cost placement => exact .putCosting hm
  | hold id =>
    cases hm
    split <;> exact .of_calls rfl rfl rfl rfl ⟨[], rfl, rfl⟩
  | remove key =>
    cases hm
    refine .of_removal rfl rfl rfl ?_ rfl rfl ?_ rfl
    · exact (congrArg Resident.lookups (c.memory.fst_remove _)).trans (c.memory.lookups_displaced _)
    · exact c.memory.not_isEviction_remove _
  | removeIf q =>
    cases hm
    exact .of_removal rfl rfl rfl (c.memory.lookups_keepIf _) rfl rfl
      (c.memory.not_isEviction_keepIf _) rfl
  | clear | clearResident =>
    cases hm
    exact .of_removal rfl rfl rfl rfl rfl rfl (List.forall_mem_map.mpr fun _ _ => rfl) rfl
  | resizeMemory capacity =>
    cases hm
    refine .of_calls rfl rfl rfl (Resident.lookups_shrinkRounds _ _)
      ⟨_, Resident.run_cons rfl rfl, ?_⟩
    rw [List.flatMap_singleton]
    rfl
  | make _ | release _ | sweep | dropWindow | clearLingering | meddle _ =>
    cases hm
    exact .of_calls rfl rfl rfl rfl ⟨[], rfl, rfl⟩
  | reopen => exact absurd rfl hne

/-- What becomes of a new cache, with the steps so far, latest first. -/
inductive Logged (p : Design α) : List (Step α) → Cache α → Prop where
  | new (kind : ValueKind α) (memoryCapacity overflowWindow : Nat) (a : Archive) (v : Volume) :
    Logged p [] (.new kind memoryCapacity overflowWindow a v)
  | moved {steps : List (Step α)} {c c' : Cache α} {m : Move α} {r : Reply α}
    (h : Logged p steps c) (hm : c.move p m = .ok (r, c')) (hne : m ≠ .reopen) :
    Logged p (⟨c, m, r, c'⟩ :: steps) c'

/-- What the steps of a run are to be counted as. -/
def Step.counts (steps : List (Step α)) : TierCounts where
  memoryHits := steps.countP fun s => s.source? = some .memory
  overflowHits := steps.countP fun s => s.source? = some .overflow
  diskHits := steps.countP fun s => s.source? = some .disk
  misses := steps.countP Step.isVain
  decodeFailures := steps.countP fun s => s.source? = some .spoiled
  diskWrites := steps.countP Step.stores

/-- The counters of a cache and those of its memory tier, after the steps of a run. -/
structure Balanced (steps : List (Step α)) (c : Cache α) : Prop where
  stats : c.stats = Step.counts steps
  lookups : c.stats.memoryHits + c.stats.overflowHits + c.stats.diskHits + c.stats.misses =
    steps.countP Step.isFind
  decodeFailures : c.stats.decodeFailures ≤ c.stats.misses
  residentHits : c.memory.hits = c.stats.memoryHits
  residentMisses : c.memory.misses = c.stats.overflowHits + c.stats.diskHits + c.stats.misses
  evictions : c.memory.evictions = (steps.flatMap Step.handed).length
  /-- What memory hands over is put into the overflow tier, and nothing else is. -/
  handover : ∀ s ∈ steps, s.after.overflow =
    s.handed.foldl (fun o r => o.put r.key r.value) (s.before.ownOverflow s.move)
  totalEntries : c.snapshot.memory.totalEntries = c.memory.entries.keys.length
  totalCost : c.snapshot.memory.totalCost = c.memory.residentCost

namespace Step

@[simp] theorem counts_cons (s : Step α) (steps : List (Step α)) :
    counts (s :: steps) = (counts steps).plus s.counted := by
  simp [counts, counted, TierCounts.plus, List.countP_cons]

theorem lookups_counts {steps : List (Step α)} (h : ∀ s ∈ steps, s.Counted) :
    (counts steps).lookups = steps.countP isFind := by
  induction steps with
  | nil => rfl
  | cons s steps ih =>
    obtain ⟨hs, hsteps⟩ := List.forall_mem_cons.mp h
    rw [counts_cons, TierCounts.lookups_plus, ih hsteps, hs.once, List.countP_cons]

theorem decodeFailures_counts_le {steps : List (Step α)} (h : ∀ s ∈ steps, s.Counted) :
    (counts steps).decodeFailures ≤ (counts steps).misses := by
  induction steps with
  | nil => exact Nat.le_refl 0
  | cons s steps ih =>
    obtain ⟨hs, hsteps⟩ := List.forall_mem_cons.mp h
    rw [counts_cons]
    exact Nat.add_le_add (ih hsteps) hs.spoiled

theorem Counted.handover {s : Step α} (h : s.Counted) : s.after.overflow =
    s.handed.foldl (fun o r => o.put r.key r.value) (s.before.ownOverflow s.move) := by
  obtain ⟨events, hrun, hover⟩ := h.tiers
  rw [hover, Lingering.receive_eq_foldl, handed, reports, hrun]

/-- The values that are handed over are those that are counted as evicted. -/
theorem Counted.mirrors {s : Step α} (h : s.Counted) {l : Ranking (Shared α)}
    (hl : l.Mirrors s.before.memory) : (∃ l' : Ranking (Shared α), l'.Mirrors s.after.memory) ∧
      s.after.memory.evictions = s.before.memory.evictions + s.handed.length := by
  obtain ⟨events, hrun, -⟩ := h.tiers
  obtain ⟨-, hevictions, hl'⟩ := Resident.run_whole hl hrun
  refine ⟨hl', ?_⟩
  rw [hevictions, Resident.drops_eq_length, handed, reports, hrun]

end Step

namespace Logged

variable {p : Design α} {steps : List (Step α)}

theorem counted (h : Logged p steps c) : ∀ s ∈ steps, s.Counted := by
  induction h with
  | new => exact List.forall_mem_nil _
  | moved _ hm hne ih => exact List.forall_mem_cons.mpr ⟨counted_move hm hne, ih⟩

theorem stats (h : Logged p steps c) : c.stats = Step.counts steps := by
  induction h with
  | new => rfl
  | moved _ hm hne ih => rw [Step.counts_cons, ← ih, (counted_move hm hne).stats]

/-- The two sets of counters agree. -/
theorem lookups (h : Logged p steps c) : c.memory.lookups =
    (c.stats.memoryHits, c.stats.overflowHits + c.stats.diskHits + c.stats.misses) := by
  induction h with
  | new => rfl
  | @moved steps c c' m r _ hm hne ih =>
    obtain ⟨hhits, hmisses⟩ := Prod.mk.inj ih
    have hs := counted_move hm hne
    rw [hs.lookups, hs.stats]
    refine Prod.ext ?_ ?_
    · exact congrArg (· + _) hhits
    · simp only [TierCounts.plus, hmisses]
      omega

/-- Memory ranks its entries after every step, which is what its evictions are followed by. -/
theorem mirrors (h : Logged p steps c) : (∃ l : Ranking (Shared α), l.Mirrors c.memory) ∧
    c.memory.evictions = (steps.flatMap Step.handed).length := by
  induction h with
  | new => exact ⟨⟨_, .empty _⟩, rfl⟩
  | moved _ hm hne ih =>
    obtain ⟨⟨l, hl⟩, hevictions⟩ := ih
    obtain ⟨hl', hmore⟩ := (counted_move hm hne).mirrors hl
    refine ⟨hl', ?_⟩
    rw [hmore, hevictions, List.flatMap_cons, List.length_append, Nat.add_comm]

/-- In every run of a new cache the counters add up: each look-up is counted once by the cache and
once by its memory tier, each value that is handed over once as evicted, each committed write once,
and the snapshot shows what is in memory. -/
theorem balanced (h : Logged p steps c) : Balanced steps c := by
  obtain ⟨hhits, hmisses⟩ := Prod.mk.inj h.lookups
  obtain ⟨⟨l, hl⟩, hevictions⟩ := h.mirrors
  refine ⟨h.stats, ?_, ?_, hhits, hmisses, hevictions,
    fun s hs => (h.counted s hs).handover, ?_, ?_⟩
  · rw [h.stats]
    exact Step.lookups_counts h.counted
  · rw [h.stats]
    exact Step.decodeFailures_counts_le h.counted
  · exact (List.length_map _).symm
  · exact hl.ranks.cost.trans hl.ranks.residentCost.symm

theorem run (h : Logged p steps c) {moves : List (Move α)} (hr : c.run p moves = .ok c')
    (hne : ∀ m ∈ moves, m ≠ .reopen) : ∃ steps', Logged p steps' c' := by
  induction moves generalizing c steps with
  | nil =>
    cases hr
    exact ⟨steps, h⟩
  | cons m moves ih =>
    obtain ⟨⟨r, c₁⟩, hm, hr⟩ := bind_eq_ok_iff.mp hr
    obtain ⟨hfirst, hrest⟩ := List.forall_mem_cons.mp hne
    exact ih (h.moved hm hfirst) hr hrest

end Logged

/-- One look-up for each place where it can end, and two values on disk, one of them broken. -/
def varied : List (Move (List UInt8)) := [
  .make [1], .put "a" ⟨0, [1]⟩ (.disk .general .normal), .find "a" .general,
  .make [2], .put "b" ⟨1, [2]⟩ .memory, .find "a" .general,
  .clearResident, .clearLingering, .find "a" .general, .find "c" .general,
  .make [0], .put "d" ⟨3, [0]⟩ (.disk .general .normal),
  .clearResident, .clearLingering, .find "d" .general]

theorem balanced_varied : ∃ steps c, Logged pickyDesign steps c ∧ Balanced steps c ∧
    c.stats = ⟨1, 1, 1, 2, 1, 2⟩ ∧ c.memory.hits = 1 ∧ c.memory.misses = 4 ∧
    (steps.flatMap Step.handed).length = 3 := by
  obtain ⟨c₀, c, hbuild, hrun, hf⟩ := exists_run pickyDesign .empty varied
    (fun c => (c.stats, c.memory.hits, c.memory.misses, c.memory.evictions))
    (b := (⟨1, 1, 1, 2, 1, 2⟩, 1, 4, 3)) (by decide +kernel)
  obtain ⟨a, w, -, rfl⟩ := build_ok hbuild
  obtain ⟨steps, h⟩ := Logged.run (.new _ _ _ a w) hrun (by simp [varied])
  simp only [Prod.mk.injEq] at hf
  obtain ⟨hstats, hhits, hmisses, hevictions⟩ := hf
  exact ⟨steps, c, h, h.balanced, hstats, hhits, hmisses, h.balanced.evictions ▸ hevictions⟩

end Cache

end TierCache
