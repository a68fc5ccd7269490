import TierCache.Proofs.Resident.Refinement

/-!
# What leaves the memory tier leaves it once

A call reports what it takes out of the tier, and takes nothing out that it does not report. So over
a run the values that were put are those that were reported and those that are still there. Values
that are all different can then be followed one by one, from the call that put them to the one call
that reported them.
-/
namespace TierCache

variable {α : Type}

open Ranked (others shed)

def Removal.item (r : Removal α) : String × α := (r.key, r.value)

def Ranked.item (row : Ranked α) : String × α := (row.key, row.value)

def Ranking.items (l : Ranking α) : List (String × α) := l.rows.map Ranked.item

/-- The values in the tier, under their keys. -/
def Resident.items (m : Resident α) : List (String × α) :=
  m.entries.pairs.map fun p => (p.1, p.2.value)

theorem Ranked.map_item_removal (cause : Cause) (rows : List (Ranked α)) :
    (rows.map (removal cause)).map Removal.item = rows.map item := by
  rw [List.map_map]
  rfl

theorem Ranking.Mirrors.items {l : Ranking α} {m : Resident α} (h : l.Mirrors m) :
    m.items.Perm l.items := by
  have hp := h.ranks.perm.map Ranked.item
  rwa [List.map_map] at hp

theorem Ranking.perm_row? (l : Ranking α) (key : String) :
    l.rows.Perm ((l.row? key).toList ++ others l.rows key) := by
  cases hr : l.row? key with
  | none =>
    rw [Ranked.others_eq_self (row?_eq_none_iff.mp hr)]
    exact .refl _
  | some row =>
    obtain ⟨hmem, rfl⟩ := row?_eq_some_iff.mp hr
    exact Ranked.perm_others l.nodup hmem

theorem Ranking.put_ok {l l' : Ranking α} {key : String} {value : α} {cost : Nat}
    {removed : List (Removal α)} (h : l.put key value cost = .ok (l', removed)) :
    l'.rows = (shed l.capacity (others l.rows key ++ [⟨key, value, cost⟩])).2 ∧
      removed = (l.row? key).toList.map (Ranked.removal .replaced) ++
        (shed l.capacity (others l.rows key ++ [⟨key, value, cost⟩])).1.map
          (Ranked.removal .capacity) := by
  rw [Ranking.put] at h
  obtain ⟨sum, -, h⟩ := bind_eq_ok_iff.mp h
  cases h
  exact ⟨rfl, rfl⟩

theorem Ranking.capacity_put {l l' : Ranking α} {key : String} {value : α} {cost : Nat}
    {removed : List (Removal α)} (h : l.put key value cost = .ok (l', removed)) :
    l'.capacity = l.capacity := by
  rw [Ranking.put] at h
  obtain ⟨sum, -, h⟩ := bind_eq_ok_iff.mp h
  cases h
  rfl

/-- A put of a tier comes to what the put of its plain form comes to. -/
theorem Ranking.Mirrors.put_ok {l : Ranking α} {m m' : Resident α} (hl : l.Mirrors m) {key : String}
    {value : α} {cost : Nat} {removed : List (Removal α)}
    (h : m.put key value cost = .ok (m', removed)) :
    ∃ l', l.put key value cost = .ok (l', removed) ∧ l'.Mirrors m' := by
  have hput := hl.put key value cost
  rw [h] at hput
  cases hlist : l.put key value cost with
  | error fault =>
    rw [hlist] at hput
    exact hput.elim
  | ok out =>
    rw [hlist] at hput
    obtain ⟨hm, rfl⟩ := hput
    exact ⟨out.1, rfl, hm⟩

/-- A value is in memory once it was put there, or memory is empty and the value was the last to be
dropped. -/
theorem Resident.put_resident_or_dropped {l : Ranking α} {m m' : Resident α} {key : String}
    {value : α} {cost : Nat} {removed : List (Removal α)} (hl : l.Mirrors m)
    (h : m.put key value cost = .ok (m', removed)) :
    m'.entries.get? key = some ⟨value, cost⟩ ∨
      m'.entries.get? key = none ∧ m'.totalCost = 0 ∧
        ∃ before, removed = before ++ [⟨key, value, .capacity⟩] := by
  obtain ⟨l', hlist, hm⟩ := hl.put_ok h
  obtain ⟨hrows, hremoved⟩ := Ranking.put_ok hlist
  rcases Ranked.mem_shed_append l.capacity (others l.rows key) ⟨key, value, cost⟩ with
    hnone | hmem
  · rw [hnone] at hrows
    have hall := Ranked.shed_append l.capacity (others l.rows key ++ [⟨key, value, cost⟩])
    rw [hnone, List.append_nil] at hall
    refine .inr ⟨hm.ranks.entry_none.mpr (by simp [hrows]), ?_, ?_⟩
    · rw [hm.ranks.cost, hrows, total_nil]
    · rw [hall, List.map_append, ← List.append_assoc] at hremoved
      exact ⟨_, hremoved⟩
  · rw [← hrows] at hmem
    exact .inl (hm.ranks.entry hmem)

theorem Ranking.perm_get (l : Ranking α) (key : String) : (l.get key).2.rows.Perm l.rows := by
  cases hr : l.row? key with
  | none => rw [get_of_none hr]
  | some row =>
    obtain ⟨hmem, rfl⟩ := row?_eq_some_iff.mp hr
    rw [get_of_some hr]
    exact (List.perm_append_singleton row _).trans (Ranked.perm_others l.nodup hmem).symm

namespace Resident

/-- What the tier has under a key is what a look-up there finds. -/
theorem mem_items {m : Resident α} {key : String} {value : α} :
    (key, value) ∈ m.items ↔ (m.get key).1 = some value := by
  rw [items, List.mem_map, get]
  constructor
  · rintro ⟨⟨k, e⟩, hp, ⟨⟩⟩
    rw [Table.get?_eq_some_iff.mpr hp]
  · intro h
    split at h
    · rename_i e he
      cases h
      exact ⟨(key, e), Table.get?_eq_some_iff.mp he, rfl⟩
    · cases h

/-- The value that a call puts, under its key. -/
def Call.item? : Call α → Option (String × α)
  | .put key value _ => some (key, value)
  | _ => none

/-- The calls that take entries out because they are told to. -/
def Call.isRemoval : Call α → Bool
  | .remove _ | .keepIf _ | .clear => true
  | _ => false

/-- Why a call reports a value, where these were there before it. -/
structure Call.Explains (call : Call α) (before : List (String × α)) (r : Removal α) : Prop where
  explicit : r.cause = .explicit ↔ call.isRemoval
  replaced : r.cause = .replaced → r.item ∈ before ∧ ∃ value cost, call = .put r.key value cost
  /-- Of the values under its own key, a put reports as dropped only the one it has put. -/
  own : ∀ value cost, call = .put r.key value cost → r.cause ≠ .replaced → r.value = value

/-- Nothing is lost by a call and nothing is made up, and each report has its cause. -/
structure Accounted (call : Call α) (before after : List (String × α))
    (removed : List (Removal α)) : Prop where
  whole : (removed.map Removal.item ++ after).Perm (call.item?.toList ++ before)
  explained : ∀ r ∈ removed, call.Explains before r

namespace Accounted

variable {call : Call α} {l l' : Ranking α}

theorem put {key : String} {value : α} {cost : Nat} {removed : List (Removal α)}
    (h : l.put key value cost = .ok (l', removed)) :
    Accounted (.put key value cost) l.items l'.items removed := by
  obtain ⟨hrows, rfl⟩ := Ranking.put_ok h
  have hshed := Ranked.shed_append l.capacity (others l.rows key ++ [⟨key, value, cost⟩])
  constructor
  · have hold := (l.perm_row? key).map Ranked.item
    rw [List.map_append] at hold
    rw [Ranking.items, hrows, List.map_append, Ranked.map_item_removal, Ranked.map_item_removal,
      List.append_assoc, ← List.map_append, hshed, List.map_append, ← List.append_assoc]
    exact List.perm_append_comm.trans (hold.symm.append_left [(key, value)])
  · intro r hr
    rcases List.mem_append.mp hr with hr | hr
    · obtain ⟨row, hrow, rfl⟩ := List.mem_map.mp hr
      rw [Option.mem_toList] at hrow
      obtain ⟨hmem, rfl⟩ := Ranking.row?_eq_some_iff.mp hrow
      exact ⟨by simp [Ranked.removal, Call.isRemoval],
        fun _ => ⟨List.mem_map.mpr ⟨row, hmem, rfl⟩, value, cost, rfl⟩,
        fun _ _ _ hne => absurd rfl hne⟩
    · obtain ⟨row, hrow, rfl⟩ := List.mem_map.mp hr
      have hcause : (row.removal .capacity).cause ≠ .replaced := Cause.noConfusion
      refine ⟨by simp [Ranked.removal, Call.isRemoval], fun h => absurd h hcause, ?_⟩
      -- a dropped row of the key is the new one, as the old one was taken out before
      intro value' cost' hcall _
      have hmem : row ∈ others l.rows key ++ [⟨key, value, cost⟩] := by
        rw [← hshed]
        exact List.mem_append_left _ hrow
      injection hcall with hkey hvalue
      rcases List.mem_append.mp hmem with hother | hnew
      · exact absurd hkey.symm (Ranked.mem_others.mp hother).2
      · rw [← hvalue, List.mem_singleton.mp hnew]
        rfl

/-- Rows that a call takes out for one cause, and the rows that stay. -/
theorem of_rows {cause : Cause} {gone : List (Ranked α)} (h : (gone ++ l'.rows).Perm l.rows)
    (hcall : call.item? = none) (hne : cause ≠ .replaced)
    (hc : cause = .explicit ↔ call.isRemoval) :
    Accounted call l.items l'.items (gone.map (Ranked.removal cause)) := by
  constructor
  · rw [Ranked.map_item_removal, Ranking.items, ← List.map_append, hcall]
    exact h.map _
  · intro r hr
    obtain ⟨row, -, rfl⟩ := List.mem_map.mp hr
    refine ⟨hc, fun h => absurd h hne, fun value cost hput _ => ?_⟩
    rw [hput] at hcall
    cases hcall

theorem of_removal {gone : List (Ranked α)} (h : (gone ++ l'.rows).Perm l.rows)
    (hcall : call.isRemoval = true) :
    Accounted call l.items l'.items (gone.map (Ranked.removal .explicit)) := by
  refine of_rows h ?_ Cause.noConfusion (iff_of_true rfl hcall)
  cases call <;> first | rfl | cases hcall

/-- A call that reports nothing and leaves the rows as they are, in whatever order. -/
theorem of_perm (h : l'.rows.Perm l.rows) (hcall : call.item? = none) :
    Accounted call l.items l'.items [] := by
  constructor
  · rw [hcall]
    exact h.map _
  · intro r hr
    cases hr

theorem listed {e : Event α} (h : listed.step l call = .ok (l', e)) :
    Accounted call l.items l'.items e.removed := by
  cases call with
  | put key value cost =>
    obtain ⟨⟨l₁, removed⟩, hput, h⟩ := map_eq_ok_iff.mp h
    cases h
    exact .put hput
  | get key =>
    cases h
    exact of_perm (l.perm_get key) rfl
  | contains key =>
    cases h
    exact of_perm (.refl _) rfl
  | remove key =>
    cases h
    exact of_removal (l.perm_row? key).symm rfl
  | keepIf keep =>
    cases h
    have hp := List.filter_append_perm (fun row : Ranked α => keep row.key) l.rows
    exact of_removal (List.perm_append_comm.trans hp) rfl
  | clear =>
    cases h
    exact of_removal (.of_eq (List.append_nil _)) rfl
  | resize capacity =>
    cases h
    refine of_rows (.of_eq (Ranked.shed_append capacity l.rows)) rfl Cause.noConfusion ?_
    simp [Call.isRemoval]

/-- The order of the entries and that of the reports do not matter. -/
theorem congr {before before' after after' : List (String × α)}
    {removed removed' : List (Removal α)} (h : Accounted call before after removed)
    (hb : before'.Perm before) (ha : after'.Perm after) (hr : removed'.Perm removed) :
    Accounted call before' after' removed' := by
  constructor
  · refine ((hr.map _).append ha).trans (h.whole.trans ?_)
    exact hb.symm.append_left _
  · intro r hmem
    obtain ⟨hexplicit, hreplaced, hown⟩ := h.explained r (hr.mem_iff.mp hmem)
    exact ⟨hexplicit, fun hc => (hreplaced hc).imp_left hb.mem_iff.mpr, hown⟩

end Accounted

/-- A call of a tier that ranks rows accounts for what it takes out. -/
theorem accounted {l : Ranking α} {m m' : Resident α} (hl : l.Mirrors m) {call : Call α}
    {e : Event α} (h : kept.step m call = .ok (m', e)) :
    Accounted call m.items m'.items e.removed ∧ ∃ l' : Ranking α, l'.Mirrors m' := by
  have ha := step_agrees hl call
  rw [h] at ha
  cases hstep : listed.step l call with
  | error fault =>
    rw [hstep] at ha
    exact ha.elim
  | ok out =>
    rw [hstep] at ha
    obtain ⟨hm, he⟩ := ha
    exact ⟨(Accounted.listed hstep).congr hl.items hm.items he.removed, out.1, hm⟩

/-- The values among them that were dropped for the capacity. -/
def drops (removed : List (Removal α)) : Nat := removed.countP fun r => r.cause = .capacity

theorem evictions_shrinkRounds (m : Resident α) (n : Nat) :
    (m.shrinkRounds n).1.evictions = m.evictions + drops (m.shrinkRounds n).2 := by
  induction n generalizing m with
  | zero => rfl
  | succ n ih =>
    rw [shrinkRounds]
    split
    · rfl
    · split
      · rfl
      · rename_i key recency _
        split
        · exact ih { m with recency }
        · simp only [ih, drops, List.countP_cons]
          simp
          omega

theorem evictions_displaced (m : Resident α) (key : String) :
    (m.displaced key).1.evictions = m.evictions + drops (m.displaced key).2 := by
  rw [displaced, take]
  cases m.entries.get? key with
  | none => rfl
  | some e => rfl

theorem evictions_remove (m : Resident α) (key : String) :
    (m.remove key).1.evictions = m.evictions + drops (m.remove key).2 := by
  rw [remove, take]
  cases m.entries.get? key with
  | none => rfl
  | some e => rfl

theorem drops_eq_length (rs : List (Removal α)) :
    drops rs = (rs.filter fun r => r.cause.isEviction).length := by
  rw [drops, List.countP_eq_length_filter]
  congr 2
  funext r
  cases r.cause <;> rfl

@[simp] theorem drops_append (rs rs' : List (Removal α)) :
    drops (rs ++ rs') = drops rs + drops rs' :=
  List.countP_append

theorem evictions_removeEach (m : Resident α) (keys : List String) :
    (m.removeEach keys).1.evictions = m.evictions + drops (m.removeEach keys).2 := by
  induction keys generalizing m with
  | nil => rfl
  | cons key keys ih => rw [removeEach, ih, evictions_remove, drops_append, Nat.add_assoc]

/-- Each value that is dropped for the capacity is counted, and nothing else is. -/
theorem evictions_step {m m' : Resident α} {call : Call α} {e : Event α}
    (h : kept.step m call = .ok (m', e)) : m'.evictions = m.evictions + drops e.removed := by
  cases call with
  | put key value cost =>
    obtain ⟨⟨m₁, removed⟩, hput, h⟩ := map_eq_ok_iff.mp h
    cases h
    obtain ⟨rfl, rfl⟩ := put_ok hput
    have hshrink : ((m.displaced key).1.placed key value cost).shrink.1.evictions =
        (m.displaced key).1.evictions +
          drops ((m.displaced key).1.placed key value cost).shrink.2 := evictions_shrinkRounds _ _
    rw [hshrink, evictions_displaced, Nat.add_assoc, ← drops_append]
  | get key =>
    cases h
    change (m.get key).2.evictions = m.evictions
    rw [get]
    split
    · rfl
    · rfl
  | contains key =>
    cases h
    rfl
  | remove key =>
    cases h
    exact m.evictions_remove key
  | keepIf keep =>
    cases h
    change (m.keepIf keep).1.evictions = m.evictions + drops (m.keepIf keep).2
    rw [keepIf_eq]
    exact m.evictions_removeEach _
  | clear =>
    cases h
    have hnone : drops m.clear.2 = 0 := by simp [drops, clear, List.countP_eq_zero]
    exact congrArg (m.evictions + ·) hnone.symm
  | resize capacity =>
    cases h
    exact evictions_shrinkRounds { m with capacity } _

/-- The values that were put, under their keys. -/
def putIn (calls : List (Call α)) : List (String × α) := calls.filterMap Call.item?

@[simp] theorem putIn_cons (call : Call α) (calls : List (Call α)) :
    putIn (call :: calls) = call.item?.toList ++ putIn calls := by
  rw [putIn, List.filterMap_cons]
  cases call.item? <;> rfl

theorem run_cons {m m₁ m' : Resident α} {call : Call α} {calls : List (Call α)} {e : Event α}
    {es : List (Event α)} (hstep : kept.step m call = .ok (m₁, e))
    (hrun : kept.run m₁ calls = .ok (m', es)) : kept.run m (call :: calls) = .ok (m', e :: es) :=
  bind_eq_ok_iff.mpr ⟨_, hstep, bind_eq_ok_iff.mpr ⟨_, hrun, rfl⟩⟩

theorem run_put {m m' : Resident α} {key : String} {value : α} {cost : Nat}
    {removed : List (Removal α)} (h : m.put key value cost = .ok (m', removed)) :
    ∃ events, kept.run m [.put key value cost] = .ok (m', events) ∧
      events.flatMap Event.removed = removed :=
  ⟨_, run_cons (map_eq_ok_iff.mpr ⟨_, h, rfl⟩) rfl, List.append_nil removed⟩

/-- Over a run too nothing is lost and nothing is made up, and all evictions are counted. -/
theorem run_whole {l : Ranking α} {m m' : Resident α} (hl : l.Mirrors m) {calls : List (Call α)}
    {events : List (Event α)} (h : kept.run m calls = .ok (m', events)) :
    ((events.flatMap Event.removed).map Removal.item ++ m'.items).Perm (putIn calls ++ m.items) ∧
      m'.evictions = m.evictions + drops (events.flatMap Event.removed) ∧
      ∃ l' : Ranking α, l'.Mirrors m' := by
  induction calls generalizing l m events with
  | nil =>
    cases h
    exact ⟨.refl _, rfl, l, hl⟩
  | cons call calls ih =>
    obtain ⟨⟨m₁, e⟩, hstep, h⟩ := bind_eq_ok_iff.mp h
    obtain ⟨⟨m₂, es⟩, hrun, h⟩ := bind_eq_ok_iff.mp h
    cases h
    obtain ⟨hacc, l₁, hl₁⟩ := accounted hl hstep
    obtain ⟨hwhole, hevict, hmirrors⟩ := ih hl₁ hrun
    refine ⟨?_, ?_, hmirrors⟩
    · rw [List.flatMap_cons, List.map_append, List.append_assoc, putIn_cons, List.append_assoc]
      refine (hwhole.append_left _).trans (List.perm_append_comm_assoc _ _ _ |>.trans ?_)
      exact (hacc.whole.append_left _).trans (List.perm_append_comm_assoc _ _ _)
    · rw [hevict, evictions_step hstep, List.flatMap_cons, drops_append, Nat.add_assoc]

/-- A run that comes to an end came through all that went before. -/
theorem run_take {m m' : Resident α} {calls : List (Call α)} {events : List (Event α)}
    (h : kept.run m calls = .ok (m', events)) (n : Nat) :
    ∃ m₀ es, kept.run m (calls.take n) = .ok (m₀, es) := by
  induction calls generalizing m m' events n with
  | nil => exact ⟨m, [], by rw [List.take_nil]; rfl⟩
  | cons call calls ih =>
    obtain ⟨⟨m₁, e⟩, hstep, h⟩ := bind_eq_ok_iff.mp h
    obtain ⟨⟨m₂, es⟩, hrun, h⟩ := bind_eq_ok_iff.mp h
    cases n with
    | zero => exact ⟨m, [], rfl⟩
    | succ n =>
      obtain ⟨m₀, es₀, hpast⟩ := ih hrun n
      exact ⟨m₀, e :: es₀, run_cons hstep hpast⟩

/-- An event is that of one call, made in what had become of the tier until then. -/
theorem run_at {m m' : Resident α} {calls : List (Call α)} {events : List (Event α)} {j : Nat}
    {e : Event α} (h : kept.run m calls = .ok (m', events)) (he : events[j]? = some e) :
    ∃ call m₀ es m₁, calls[j]? = some call ∧ kept.run m (calls.take j) = .ok (m₀, es) ∧
      kept.step m₀ call = .ok (m₁, e) := by
  induction calls generalizing m events j with
  | nil =>
    cases h
    cases he
  | cons call calls ih =>
    obtain ⟨⟨m₁, e₁⟩, hstep, h⟩ := bind_eq_ok_iff.mp h
    obtain ⟨⟨m₂, es⟩, hrun, h⟩ := bind_eq_ok_iff.mp h
    cases h
    cases j with
    | zero =>
      cases he
      exact ⟨call, m, [], m₁, rfl, rfl, hstep⟩
    | succ j =>
      obtain ⟨call', m₀, es₀, m₃, hcall, hpast, hstep'⟩ := ih hrun he
      exact ⟨call', m₀, e₁ :: es₀, m₃, hcall, run_cons hstep hpast, hstep'⟩

/-- All reports of a run, each with the number of the call that made it. -/
def reports (events : List (Event α)) : List (Nat × Removal α) :=
  events.zipIdx.flatMap fun p => p.1.removed.map fun r => (p.2, r)

theorem mem_reports {events : List (Event α)} {j : Nat} {r : Removal α} :
    (j, r) ∈ reports events ↔ ∃ e, events[j]? = some e ∧ r ∈ e.removed := by
  simp only [reports, List.mem_flatMap, List.mem_map, Prod.mk.injEq]
  constructor
  · rintro ⟨⟨e, i⟩, he, r', hr, rfl, rfl⟩
    exact ⟨e, List.mem_zipIdx_iff_getElem?.mp he, hr⟩
  · rintro ⟨e, he, hr⟩
    exact ⟨(e, j), List.mem_zipIdx_iff_getElem?.mpr he, r, hr, rfl, rfl⟩

theorem map_snd_reports (events : List (Event α)) :
    (reports events).map Prod.snd = events.flatMap Event.removed := by
  rw [reports, List.map_flatMap]
  simp only [List.map_map, Function.comp_def, List.map_id']
  rw [← List.flatMap_map Prod.fst, List.zipIdx_map_fst]

/-- The tier has a value under a key once these calls have been made. -/
def HasAfter (capacity : Nat) (calls : List (Call α)) (key : String) (value : α) : Prop :=
  ∃ m events, kept.run (.empty capacity) calls = .ok (m, events) ∧ (m.get key).1 = some value

/-- What has become of the values that were put into an empty tier. -/
structure HandedOver (capacity : Nat) (calls : List (Call α)) (m : Resident α)
    (events : List (Event α)) : Prop where
  /-- Each is in the tier, under its own key, or was reported after it was put. -/
  place : ∀ i key value cost, calls[i]? = some (.put key value cost) →
    (∀ k, (m.get k).1 = some value ↔ k = key) ∧ (∀ p ∈ reports events, p.2.value ≠ value) ∨
    (∀ k, (m.get k).1 ≠ some value) ∧
      ∃ j cause, i ≤ j ∧ (j, ⟨key, value, cause⟩) ∈ reports events
  /-- None was reported twice. -/
  once : ((reports events).map fun p => p.2.value).Nodup
  /-- None was reported that a look-up still finds. -/
  unreported : ∀ key value, (m.get key).1 = some value → ∀ p ∈ reports events, p.2.value ≠ value
  /-- Each was put before it was reported, and the call that reported it is its cause. -/
  cause : ∀ j r, (j, r) ∈ reports events → ∃ i cost call, i ≤ j ∧
    calls[i]? = some (.put r.key r.value cost) ∧ calls[j]? = some call ∧
    (r.cause = .replaced ↔ i < j ∧ (∃ value cost, call = .put r.key value cost) ∧
      HasAfter capacity (calls.take j) r.key r.value) ∧
    (r.cause = .explicit ↔ call.isRemoval)
  evictions : m.evictions = (reports events).countP fun p => p.2.cause = .capacity

theorem mem_putIn {calls : List (Call α)} {key : String} {value : α} :
    (key, value) ∈ putIn calls ↔ ∃ (i cost : Nat), calls[i]? = some (.put key value cost) := by
  rw [putIn, List.mem_filterMap]
  constructor
  · rintro ⟨call, hmem, hitem⟩
    obtain ⟨i, hi⟩ := List.mem_iff_getElem?.mp hmem
    cases call with
    | put key' value' cost =>
      cases hitem
      exact ⟨i, cost, hi⟩
    | _ => cases hitem
  · rintro ⟨i, cost, hi⟩
    exact ⟨_, List.mem_of_getElem? hi, rfl⟩

/-- A value that is put once is put by one call. -/
theorem put_unique {calls : List (Call α)} (h : ((putIn calls).map Prod.snd).Nodup)
    {i j cost cost' : Nat} {key key' : String} {value : α}
    (hi : calls[i]? = some (.put key value cost)) (hj : calls[j]? = some (.put key' value cost')) :
    i = j := by
  have apart : ∀ {i j cost cost' : Nat} {key key' : String}, i < j →
      calls[i]? = some (.put key value cost) → calls[j]? ≠ some (.put key' value cost') := by
    intro i j cost cost' key key' hlt hi hj
    rw [putIn, List.map_filterMap, List.Nodup, List.pairwise_filterMap,
      List.pairwise_iff_getElem] at h
    obtain ⟨hi', hci⟩ := List.getElem?_eq_some_iff.mp hi
    obtain ⟨hj', hcj⟩ := List.getElem?_eq_some_iff.mp hj
    exact h i j hi' hj' hlt value (by rw [hci]; rfl) value (by rw [hcj]; rfl) rfl
  rcases Nat.lt_trichotomy i j with hlt | heq | hlt
  · exact absurd hj (apart hlt hi)
  · exact heq
  · exact absurd hi (apart hlt hj)

/-- A report has its cause in the call that made it, and in what was there before that call. -/
theorem report_explained {capacity : Nat} {calls : List (Call α)} {m : Resident α}
    {events : List (Event α)} (h : kept.run (.empty capacity) calls = .ok (m, events)) {j : Nat}
    {r : Removal α} (hr : (j, r) ∈ reports events) :
    ∃ call m₀ es, calls[j]? = some call ∧ kept.run (.empty capacity) (calls.take j) = .ok (m₀, es) ∧
      call.Explains m₀.items r ∧ r.item ∈ call.item?.toList ++ m₀.items := by
  obtain ⟨e, he, hmem⟩ := mem_reports.mp hr
  obtain ⟨call, m₀, es, m₁, hcall, hpast, hstep⟩ := run_at h he
  obtain ⟨-, -, l, hl⟩ := run_whole (.empty capacity) hpast
  obtain ⟨hacc, -⟩ := accounted hl hstep
  refine ⟨call, m₀, es, hcall, hpast, hacc.explained r hmem, hacc.whole.mem_iff.mp ?_⟩
  exact List.mem_append_left _ (List.mem_map.mpr ⟨r, hmem, rfl⟩)

/-- What the tier has was put by one of the calls so far. -/
theorem put_of_get {capacity j : Nat} {calls : List (Call α)} {m₀ : Resident α}
    {es : List (Event α)} {key : String} {value : α}
    (h : kept.run (.empty capacity) (calls.take j) = .ok (m₀, es)) (hm : (key, value) ∈ m₀.items) :
    ∃ i cost, i < j ∧ calls[i]? = some (.put key value cost) := by
  obtain ⟨hwhole, -, -⟩ := run_whole (.empty capacity) h
  have hput := hwhole.mem_iff.mp (List.mem_append_right _ hm)
  rw [show (Resident.empty capacity : Resident α).items = [] from rfl, List.append_nil] at hput
  obtain ⟨i, cost, hi⟩ := mem_putIn.mp hput
  rw [List.getElem?_take, Option.ite_none_right_eq_some] at hi
  exact ⟨i, cost, hi.1, hi.2⟩

theorem cause_of_report {capacity : Nat} {calls : List (Call α)} {m : Resident α}
    {events : List (Event α)} (h : kept.run (.empty capacity) calls = .ok (m, events))
    (hdistinct : ((putIn calls).map Prod.snd).Nodup) {j : Nat} {r : Removal α}
    (hr : (j, r) ∈ reports events) : ∃ i cost call, i ≤ j ∧
      calls[i]? = some (.put r.key r.value cost) ∧ calls[j]? = some call ∧
      (r.cause = .replaced ↔ i < j ∧ (∃ value cost, call = .put r.key value cost) ∧
        HasAfter capacity (calls.take j) r.key r.value) ∧
      (r.cause = .explicit ↔ call.isRemoval) := by
  obtain ⟨call, m₀, es, hcall, hpast, hexplains, hmem⟩ := report_explained h hr
  have older : r.item ∈ m₀.items → ∃ i cost, i < j ∧ calls[i]? = some (.put r.key r.value cost) :=
    put_of_get hpast
  have hput : ∃ i cost, i ≤ j ∧ calls[i]? = some (.put r.key r.value cost) := by
    rcases List.mem_append.mp hmem with hnew | hold
    · cases call with
      | put key value cost =>
        rw [Option.mem_toList] at hnew
        cases hnew
        exact ⟨j, cost, Nat.le_refl j, hcall⟩
      | _ => cases hnew
    · obtain ⟨i, cost, hlt, hi⟩ := older hold
      exact ⟨i, cost, Nat.le_of_lt hlt, hi⟩
  obtain ⟨i, cost, hle, hi⟩ := hput
  refine ⟨i, cost, call, hle, hi, hcall, ⟨fun hc => ?_, ?_⟩, hexplains.explicit⟩
  · obtain ⟨hold, hover⟩ := hexplains.replaced hc
    obtain ⟨i', cost', hlt, hi'⟩ := older hold
    exact ⟨put_unique hdistinct hi hi' ▸ hlt, hover, m₀, es, hpast, mem_items.mp hold⟩
  · rintro ⟨hlt, ⟨value, cost', rfl⟩, -⟩
    refine Decidable.byContradiction fun hne => ?_
    -- what this call drops of its own key is the value it has put, but the value was put earlier
    have hown := hexplains.own value cost' rfl hne
    rw [← hown] at hcall
    exact absurd (put_unique hdistinct hi hcall) (Nat.ne_of_lt hlt)

/-- Values that are all different are each in the tier or were reported once, never both. -/
theorem handed_over {capacity : Nat} {calls : List (Call α)} {m : Resident α}
    {events : List (Event α)} (h : kept.run (.empty capacity) calls = .ok (m, events))
    (hdistinct : ((putIn calls).map Prod.snd).Nodup) : HandedOver capacity calls m events := by
  obtain ⟨hwhole, hevict, -⟩ := run_whole (.empty capacity) h
  rw [show (Resident.empty capacity : Resident α).items = [] from rfl, List.append_nil,
    ← map_snd_reports] at hwhole
  have hvalues := (hwhole.map Prod.snd).nodup_iff.mpr hdistinct
  rw [List.map_append, List.nodup_append, List.map_map, List.map_map] at hvalues
  obtain ⟨honce, hthere, happart⟩ := hvalues
  have unreported : ∀ key value, (m.get key).1 = some value →
      ∀ p ∈ reports events, p.2.value ≠ value := by
    intro key value hget p hp
    exact happart _ (List.mem_map.mpr ⟨p, hp, rfl⟩) _
      (List.mem_map.mpr ⟨_, mem_items.mpr hget, rfl⟩)
  refine ⟨fun i key value cost hi => ?_, honce, unreported, fun j r => cause_of_report h hdistinct,
    ?_⟩
  · have hput := hwhole.mem_iff.mpr (mem_putIn.mpr ⟨i, cost, hi⟩)
    rcases List.mem_append.mp hput with hgone | hstays
    · rw [List.map_map] at hgone
      obtain ⟨⟨j, r⟩, hr, hitem⟩ := List.mem_map.mp hgone
      cases hitem
      obtain ⟨i', cost', call, hle, hi', -⟩ := cause_of_report h hdistinct hr
      refine .inr ⟨fun k hk => unreported k _ hk _ hr rfl, j, r.cause, ?_, hr⟩
      exact put_unique hdistinct hi hi' ▸ hle
    · refine .inl ⟨fun k => ⟨fun hk => ?_, ?_⟩, unreported key value (mem_items.mp hstays)⟩
      · exact congrArg Prod.fst (eq_of_nodup_map hthere (mem_items.mpr hk) hstays rfl)
      · rintro rfl
        exact mem_items.mp hstays
  · rw [hevict, ← map_snd_reports, drops, List.countP_map]
    exact Nat.zero_add _

/-- After every call of a run in which no sum of costs overflows, and in which all values that are
put are different, each is in the tier under its key or was reported once, never both, and the call
that reported it tells why. -/
theorem handed_over_once {capacity : Nat} {calls : List (Call α)} {m : Resident α}
    {events : List (Event α)} (h : kept.run (.empty capacity) calls = .ok (m, events))
    (hdistinct : ((putIn calls).map Prod.snd).Nodup) (n : Nat) :
    ∃ m₀ es, kept.run (.empty capacity) (calls.take n) = .ok (m₀, es) ∧
      HandedOver capacity (calls.take n) m₀ es := by
  obtain ⟨m₀, es, hpast⟩ := run_take h n
  have hsub : (putIn (calls.take n)).Sublist (putIn calls) :=
    (List.take_sublist n calls).filterMap _
  exact ⟨m₀, es, hpast, handed_over hpast (hdistinct.sublist (hsub.map _))⟩

/-- A value that is replaced, one that is dropped together with a value above the capacity, one that
is removed, and one that stays. -/
theorem handed_over_once_four : ∃ m events,
    kept.run (.empty 2) [.put "a" 0 1, .put "a" 1 1, .put "b" 2 9, .put "c" 3 2, .remove "c",
      .put "d" 4 0] = .ok (m, events) ∧
    reports events = [(1, ⟨"a", 0, .replaced⟩), (2, ⟨"a", 1, .capacity⟩), (2, ⟨"b", 2, .capacity⟩),
      (4, ⟨"c", 3, .explicit⟩)] ∧
    ∃ m₀ es, kept.run (.empty 2) [.put "a" 0 1, .put "a" 1 1, .put "b" 2 9] = .ok (m₀, es) ∧
      HandedOver 2 [.put "a" 0 1, .put "a" 1 1, .put "b" 2 9] m₀ es :=
  ⟨_, _, rfl, rfl, @handed_over_once _ _ [.put "a" 0 1, .put "a" 1 1, .put "b" 2 9, .put "c" 3 2,
    .remove "c", .put "d" 4 0] _ _ rfl (by decide) 3⟩

end Resident

end TierCache
