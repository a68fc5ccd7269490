import TierCache.Proofs.Lingering.Window

/-!
# What the overflow tier finds

Around the tier there are users of values. They make values, use them, let go of them, and hand them
to the tier; what a look-up finds they use as well. A value lives while a user or the window refers
to it, and once it is dead no one can refer to it again. So a look-up finds what was last put under
its key for as long as that lives, and forgetting the dead is seen by no one.
-/
namespace TierCache.Lingering

variable {α : Type}

/-- One call of the tier, with what it was given and what it gave. -/
inductive Deed (α : Type) where
  | put (key : String) (v : Shared α)
  | get (key : String) (found : Option (Shared α))
  | remove (key : String)
  | keepIf (keep : String → Bool)
  | dropWindow
  | forgetDead (count : Nat)
  | clear

/-- The queue after these deeds, of which the last one comes first. -/
def queue (n : Nat) : List (Deed α) → List (String × Shared α)
  | [] => []
  | .put key v :: past => enqueue n (queue n past) key v
  | .remove key :: past => restrict (· ≠ key) (queue n past)
  | .keepIf keep :: past => restrict keep (queue n past)
  | .dropWindow :: _ => []
  | .clear :: _ => []
  | .get _ _ :: past => queue n past
  | .forgetDead _ :: past => queue n past

/-- The value last put under a key, if the key was not taken out since. -/
def lastPut (key : String) : List (Deed α) → Option (Shared α)
  | [] => none
  | .put k v :: past => if key = k then some v else lastPut key past
  | .remove k :: past => if key = k then none else lastPut key past
  | .keepIf keep :: past => if keep key then lastPut key past else none
  | .clear :: _ => none
  | .get _ _ :: past => lastPut key past
  | .dropWindow :: past => lastPut key past
  | .forgetDead _ :: past => lastPut key past

/-- What the look-ups gave. -/
def answers (past : List (Deed α)) : List (String × Option (Shared α)) :=
  past.filterMap fun
    | .get key found => some (key, found)
    | _ => none

theorem length_queue_le (n : Nat) (past : List (Deed α)) : (queue n past).length ≤ n := by
  induction past with
  | nil => exact Nat.zero_le n
  | cons deed past ih =>
    cases deed with
    | put key v => exact length_newest_le n _
    | remove key => exact Nat.le_trans (restrict_sublist _ _).length_le ih
    | keepIf keep => exact Nat.le_trans (restrict_sublist _ _).length_le ih
    | get key found => exact ih
    | forgetDead count => exact ih
    | dropWindow => exact Nat.zero_le n
    | clear => exact Nat.zero_le n

/-- Of a key the queue has what was last put. -/
theorem lastPut_of_mem_queue {n : Nat} {past : List (Deed α)} {key : String} {v : Shared α}
    (h : (key, v) ∈ queue n past) : lastPut key past = some v := by
  induction past with
  | nil => cases h
  | cons deed past ih =>
    cases deed with
    | put k w =>
      rcases mem_enqueue h with ⟨hold, hne⟩ | ⟨rfl, rfl⟩
      · exact (if_neg hne).trans (ih hold)
      · exact if_pos rfl
    | remove k =>
      obtain ⟨hold, hne⟩ := mem_restrict.mp h
      exact (if_neg (of_decide_eq_true hne)).trans (ih hold)
    | keepIf keep =>
      obtain ⟨hold, hkeep⟩ := mem_restrict.mp h
      exact (if_pos hkeep).trans (ih hold)
    | get k found => exact ih h
    | forgetDead count => exact ih h
    | dropWindow => cases h
    | clear => cases h

structure Scene (α : Type) where
  tier : Lingering α
  /-- The values that are used outside the tier, once for each use. -/
  held : List (Shared α)
  next : Nat
  /-- What was done to the tier, the last first. -/
  past : List (Deed α)

inductive Move (α : Type) where
  | make (value : α)
  | use (id : Nat)
  | release (id : Nat)
  | put (key : String) (id : Nat)
  | get (key : String)
  | remove (key : String)
  | keepIf (keep : String → Bool)
  | dropWindow
  | forgetDead
  | clear

namespace Scene

def start (n : Nat) : Scene α := ⟨.empty n, [], 0, []⟩

def inUse (s : Scene α) (id : Nat) : Bool := s.held.any fun w => w.id = id

/-- All references that keep their values alive. -/
def strong (s : Scene α) : List (Shared α) := s.held ++ s.tier.window.values

/-- What is alive can be put to one more use. What is used is handed to the tier by a put. -/
def step (s : Scene α) : Move α → Scene α
  | .make value => { s with held := ⟨s.next, value⟩ :: s.held, next := s.next + 1 }
  | .use id => { s with held := (s.strong.find? fun w => w.id = id).toList ++ s.held }
  | .release id => { s with held := s.held.eraseP fun w => w.id = id }
  | .put key id =>
    match s.held.find? fun w => w.id = id with
    | none => s
    | some v =>
      { s with
        tier := s.tier.put key v
        held := s.held.eraseP fun w => w.id = id
        past := .put key v :: s.past }
  | .get key =>
    let (found, tier) := s.tier.get s.inUse key
    { s with tier, held := found.toList ++ s.held, past := .get key found :: s.past }
  | .remove key => { s with tier := s.tier.remove key, past := .remove key :: s.past }
  | .keepIf keep => { s with tier := s.tier.keepIf keep, past := .keepIf keep :: s.past }
  | .dropWindow => { s with tier := s.tier.dropWindow, past := .dropWindow :: s.past }
  | .forgetDead =>
    let (count, tier) := s.tier.forgetDead s.inUse
    { s with tier, past := .forgetDead count :: s.past }
  | .clear => { s with tier := s.tier.clear, past := .clear :: s.past }

def run (s : Scene α) (moves : List (Move α)) : Scene α := moves.foldl step s

/-- A user or the window, under whatever key, still refers to the value. -/
def Alive (s : Scene α) (v : Shared α) : Prop :=
  (∃ w ∈ s.held, w.id = v.id) ∨ ∃ k w, s.tier.window.get? k = some w ∧ w.id = v.id

theorem mem_strong {s : Scene α} {w : Shared α} :
    w ∈ s.strong ↔ w ∈ s.held ∨ ∃ k, s.tier.window.get? k = some w := by
  rw [strong, List.mem_append, Table.values, List.mem_map]
  refine or_congr_right ⟨?_, ?_⟩
  · rintro ⟨⟨k, w'⟩, hp, rfl⟩
    exact ⟨k, Table.get?_eq_some_iff.mpr hp⟩
  · rintro ⟨k, hk⟩
    exact ⟨(k, w), Table.get?_eq_some_iff.mp hk, rfl⟩

theorem alive_iff {s : Scene α} {v : Shared α} : s.Alive v ↔ ∃ w ∈ s.strong, w.id = v.id := by
  constructor
  · rintro (⟨w, hw, hid⟩ | ⟨k, w, hw, hid⟩)
    · exact ⟨w, mem_strong.mpr (.inl hw), hid⟩
    · exact ⟨w, mem_strong.mpr (.inr ⟨k, hw⟩), hid⟩
  · rintro ⟨w, hw, hid⟩
    rcases mem_strong.mp hw with hw | ⟨k, hw⟩
    · exact .inl ⟨w, hw, hid⟩
    · exact .inr ⟨k, w, hw, hid⟩

/-- The tier tells which values are alive. -/
theorem isAlive_iff {s : Scene α} {v : Shared α} : s.tier.isAlive s.inUse v = true ↔ s.Alive v := by
  rw [alive_iff, isAlive, inUse, ← List.any_append, List.any_eq_true]
  simp only [decide_eq_true_eq]
  rfl

end Scene

@[simp] theorem fst_get (o : Lingering α) (inUse : Nat → Bool) (key : String) :
    (o.get inUse key).1 = (o.refs.get? key).filter (o.isAlive inUse) := by
  rw [get]
  split
  · rename_i hnone
    rw [hnone]
    rfl
  · rename_i v hv
    rw [hv, Option.filter_some]
    split <;> rfl

theorem isAlive_of_get {o : Lingering α} {inUse : Nat → Bool} {key : String} {v : Shared α}
    (h : (o.get inUse key).1 = some v) : o.isAlive inUse v = true := by
  rw [fst_get, Option.filter_eq_some_iff] at h
  exact h.2

@[simp] theorem refs_get_eq (o : Lingering α) (inUse : Nat → Bool) (key k : String) :
    (o.get inUse key).2.refs.get? k =
      if k = key then (o.refs.get? k).filter (o.isAlive inUse) else o.refs.get? k := by
  rw [get]
  split
  · rename_i hnone
    split
    · rename_i hk
      rw [hk, hnone]
      rfl
    · rfl
  · rename_i v hv
    split
    · rename_i halive
      split
      · rename_i hk
        rw [hk, hv, Option.filter_some, if_pos halive]
      · rfl
    · rename_i hdead
      rw [Table.get?_erase]
      split
      · rename_i hk
        rw [hk, hv, Option.filter_some, if_neg hdead]
      · rfl

theorem window_get (o : Lingering α) (inUse : Nat → Bool) (key : String) :
    (o.get inUse key).2.window = o.window ∧ (o.get inUse key).2.order = o.order ∧
      (o.get inUse key).2.windowSize = o.windowSize := by
  rw [get]
  split
  · exact ⟨rfl, rfl, rfl⟩
  · split <;> exact ⟨rfl, rfl, rfl⟩

/-- Forgetting counts what it forgets. -/
theorem fst_forgetDead (o : Lingering α) {inUse : Nat → Bool} : (o.forgetDead inUse).1 =
    (o.refs.pairs.filter fun p => !o.isAlive inUse p.2).length := by
  have hsum := (List.filter_append_perm (fun p => o.isAlive inUse p.2) o.refs.pairs).length_eq
  rw [List.length_append] at hsum
  exact Nat.sub_eq_of_eq_add' hsum.symm

/-- Nothing is tracked but what was last put, and of that all that is alive. -/
structure Tracks (last : String → Option (Shared α)) (alive : Shared α → Prop) (o : Lingering α) :
    Prop where
  known : ∀ k v, o.refs.get? k = some v → last k = some v
  found : ∀ k v, last k = some v → alive v → o.refs.get? k = some v

namespace Tracks

variable {last : String → Option (Shared α)} {alive alive' : Shared α → Prop} {o o' : Lingering α}

theorem congr (h : Tracks last alive o) (hrefs : o'.refs = o.refs) : Tracks last alive o' :=
  ⟨hrefs ▸ h.known, hrefs ▸ h.found⟩

theorem mono (h : Tracks last alive o) (ha : ∀ k v, last k = some v → alive' v → alive v) :
    Tracks last alive' o :=
  ⟨h.known, fun k v hv hl => h.found k v hv (ha k v hv hl)⟩

/-- Values that are dead may be forgotten. -/
theorem forget (h : Tracks last alive o)
    (hrefs : ∀ k, o'.refs.get? k = o.refs.get? k ∨
      ∃ p : Shared α → Bool, (∀ v, alive v → p v) ∧ o'.refs.get? k = (o.refs.get? k).filter p) :
    Tracks last alive o' := by
  refine ⟨fun k v hv => ?_, fun k v hv hl => ?_⟩
  · rcases hrefs k with heq | ⟨p, -, heq⟩
    · exact h.known k v (heq ▸ hv)
    · rw [heq, Option.filter_eq_some_iff] at hv
      exact h.known k v hv.1
  · rcases hrefs k with heq | ⟨p, hp, heq⟩
    · exact heq ▸ h.found k v hv hl
    · rw [heq, Option.filter_eq_some_iff]
      exact ⟨h.found k v hv hl, hp v hl⟩

/-- A key is given something else, in the tier as in what was last put. -/
theorem update (h : Tracks last alive o) {last' : String → Option (Shared α)}
    (hsame : ∀ k, last' k = last k ∧ o'.refs.get? k = o.refs.get? k ∨
      o'.refs.get? k = last' k) : Tracks last' alive o' := by
  refine ⟨fun k v hv => ?_, fun k v hv hl => ?_⟩
  · rcases hsame k with ⟨hlast, hrefs⟩ | heq
    · rw [hlast]
      exact h.known k v (hrefs ▸ hv)
    · exact heq ▸ hv
  · rcases hsame k with ⟨hlast, hrefs⟩ | heq
    · rw [hrefs]
      exact h.found k v (hlast ▸ hv) hl
    · exact heq ▸ hv

end Tracks

@[simp] theorem windowSize_narrowRounds (n : Nat) (o : Lingering α) :
    (narrowRounds n o).windowSize = o.windowSize := by
  induction n generalizing o with
  | zero => rfl
  | succ n ih =>
    rw [narrowRounds]
    split
    · rfl
    · split
      · rfl
      · rw [ih]

@[simp] theorem windowSize_put (o : Lingering α) (key : String) (v : Shared α) :
    (o.put key v).windowSize = o.windowSize := by
  rw [put]
  simp only
  split
  · rfl
  · rw [narrow, windowSize_narrowRounds]

@[simp] theorem windowSize_keepIf (o : Lingering α) (keep : String → Bool) :
    (o.keepIf keep).windowSize = o.windowSize := by
  rw [keepIf]
  induction o.refs.keys.filter fun k => !keep k generalizing o with
  | nil => rfl
  | cons key keys ih => exact ih (o.remove key)

namespace Scene

variable {s : Scene α} {move : Move α} {v w : Shared α}

/-- Only a new value comes to be referred to that was not referred to before. -/
theorem strong_step (h : w ∈ (s.step move).strong) :
    w ∈ s.strong ∨ (s.Alive w ∧ ∃ k, s.tier.refs.get? k = some w) ∨
      ∃ value, move = .make value ∧ w = ⟨s.next, value⟩ := by
  have window : ∀ {k : String}, s.tier.window.get? k = some w → w ∈ s.strong :=
    fun hw => mem_strong.mpr (.inr ⟨_, hw⟩)
  have held : w ∈ s.held → w ∈ s.strong := fun hw => mem_strong.mpr (.inl hw)
  rcases mem_strong.mp h with hw | ⟨k, hw⟩
  · cases move with
    | make value =>
      rcases List.mem_cons.mp hw with rfl | hw
      · exact .inr (.inr ⟨value, rfl, rfl⟩)
      · exact .inl (held hw)
    | use id =>
      rcases List.mem_append.mp hw with hw | hw
      · exact .inl (List.mem_of_find?_eq_some (Option.mem_toList.mp hw))
      · exact .inl (held hw)
    | release id => exact .inl (held (List.mem_of_mem_eraseP hw))
    | put key id =>
      simp only [step] at hw
      split at hw
      · exact .inl (held hw)
      · exact .inl (held (List.mem_of_mem_eraseP hw))
    | get key =>
      rcases List.mem_append.mp hw with hw | hw
      · have hfound : (s.tier.get s.inUse key).1 = some w := Option.mem_toList.mp hw
        rw [fst_get, Option.filter_eq_some_iff] at hfound
        exact .inr (.inl ⟨isAlive_iff.mp hfound.2, key, hfound.1⟩)
      · exact .inl (held hw)
    | _ => exact .inl (held hw)
  · cases move with
    | put key id =>
      simp only [step] at hw
      split at hw
      · exact .inl (window hw)
      · rename_i v hv
        rcases window_put hw with ⟨-, rfl⟩ | hw
        · exact .inl (held (List.mem_of_find?_eq_some hv))
        · exact .inl (window hw)
    | get key =>
      have hsame := (window_get s.tier s.inUse key).1
      exact .inl (window (hsame ▸ hw))
    | remove key =>
      simp only [step, Lingering.remove, Table.get?_erase, Option.ite_none_left_eq_some] at hw
      exact .inl (window hw.2)
    | keepIf keep => exact .inl (window (window_of_keepIf hw))
    | dropWindow => cases hw
    | clear => cases hw
    | _ => exact .inl (window hw)

/-- What is dead stays dead. -/
theorem alive_step (h : (s.step move).Alive v) : s.Alive v ∨ v.id = s.next := by
  obtain ⟨w, hw, hid⟩ := alive_iff.mp h
  rcases strong_step hw with hw | ⟨halive, -⟩ | ⟨value, -, rfl⟩
  · exact .inl (alive_iff.mpr ⟨w, hw, hid⟩)
  · obtain ⟨u, hu, hu'⟩ := alive_iff.mp halive
    exact .inl (alive_iff.mpr ⟨u, hu, hu'.trans hid⟩)
  · exact .inr hid.symm

theorem lastPut_step {k : String} (h : lastPut k (s.step move).past = some v) :
    lastPut k s.past = some v ∨ v ∈ s.held := by
  cases move with
  | put key id =>
    simp only [step] at h
    split at h
    · exact .inl h
    · rename_i w hw
      simp only [lastPut] at h
      split at h
      · cases h
        exact .inr (List.mem_of_find?_eq_some hw)
      · exact .inl h
  | remove key =>
    simp only [step, lastPut, Option.ite_none_left_eq_some] at h
    exact .inl h.2
  | keepIf keep =>
    simp only [step, lastPut, Option.ite_none_right_eq_some] at h
    exact .inl h.2
  | clear => cases h
  | _ => exact .inl h

/-- The value is referred to, or it was put. -/
def Seen (s : Scene α) (v : Shared α) : Prop := v ∈ s.strong ∨ ∃ k, lastPut k s.past = some v

end Scene

/-- What was done to the tier explains what is in it. -/
structure Traced (n : Nat) (s : Scene α) : Prop where
  size : s.tier.windowSize = n
  queued : Queued (queue n s.past) s.tier
  tracks : Tracks (lastPut · s.past) s.Alive s.tier
  below : ∀ v, s.Seen v → v.id < s.next
  distinct : ∀ v w, s.Seen v → s.Seen w → v.id = w.id → v = w

namespace Traced

variable {n : Nat} {s : Scene α} {move : Move α} {v w : Shared α}

theorem start (n : Nat) : Traced n (Scene.start n : Scene α) := by
  have hnone : ∀ v, ¬ (Scene.start n : Scene α).Seen v := by
    rintro v (hv | ⟨k, hk⟩)
    · cases hv
    · cases hk
  refine ⟨rfl, .empty n, ⟨fun k v hv => ?_, fun k v hv => ?_⟩, ?_, ?_⟩
  · cases hv
  · cases hv
  · exact fun v hv => absurd hv (hnone v)
  · exact fun v w hv => absurd hv (hnone v)

theorem tracked_of_mem (h : Traced n s) {k : String} (hk : (k, v) ∈ queue n s.past) :
    s.tier.refs.get? k = some v :=
  h.tracks.found k v (lastPut_of_mem_queue hk) (.inr ⟨k, v, (h.queued.found k v).mpr hk, rfl⟩)

theorem seen_step (h : Traced n s) (hv : (s.step move).Seen v) :
    s.Seen v ∨ ∃ value, move = .make value ∧ v = ⟨s.next, value⟩ := by
  rcases hv with hv | ⟨k, hv⟩
  · rcases Scene.strong_step hv with hv | ⟨-, k, hk⟩ | hnew
    · exact .inl (.inl hv)
    · exact .inl (.inr ⟨k, h.tracks.known k v hk⟩)
    · exact .inr hnew
  · rcases Scene.lastPut_step hv with hv | hv
    · exact .inl (.inr ⟨k, hv⟩)
    · exact .inl (.inl (Scene.mem_strong.mpr (.inl hv)))

theorem queued_step (h : Traced n s) (move : Move α) :
    (s.step move).tier.windowSize = n ∧ Queued (queue n (s.step move).past) (s.step move).tier := by
  cases move with
  | put key id =>
    simp only [Scene.step]
    split
    · exact ⟨h.size, h.queued⟩
    · rename_i v _
      have hput := h.queued.put (h.size ▸ length_queue_le n s.past) key v
      exact ⟨(windowSize_put s.tier key v).trans h.size, h.size ▸ hput⟩
  | get key =>
    obtain ⟨hwindow, horder, hsize⟩ := window_get s.tier s.inUse key
    exact ⟨hsize.trans h.size, h.queued.congr hwindow horder⟩
  | remove key => exact ⟨h.size, h.queued.remove key⟩
  | keepIf keep =>
    refine ⟨(windowSize_keepIf s.tier keep).trans h.size, h.queued.keepIf (fun p hp => ?_) keep⟩
    exact Table.mem_keys_iff.mpr ⟨p.2, h.tracked_of_mem hp⟩
  | dropWindow => exact ⟨h.size, .dropWindow s.tier⟩
  | clear => exact ⟨h.size, .clear s.tier⟩
  | forgetDead => exact ⟨h.size, h.queued.congr rfl rfl⟩
  | _ => exact ⟨h.size, h.queued⟩

theorem tracks_step (h : Traced n s) (move : Move α) :
    Tracks (lastPut · (s.step move).past) s.Alive (s.step move).tier := by
  cases move with
  | put key id =>
    simp only [Scene.step]
    split
    · exact h.tracks
    · rename_i v _
      refine h.tracks.update fun k => ?_
      rw [refs_put, Table.get?_set, lastPut]
      by_cases hk : k = key
      · exact .inr (by rw [if_pos hk, if_pos hk])
      · exact .inl ⟨if_neg hk, if_neg hk⟩
  | get key =>
    refine h.tracks.forget fun k => ?_
    simp only [Scene.step, refs_get_eq]
    split
    · exact .inr ⟨_, fun v hv => Scene.isAlive_iff.mpr hv, rfl⟩
    · exact .inl rfl
  | remove key =>
    refine h.tracks.update fun k => ?_
    simp only [Scene.step, refs_remove, lastPut]
    by_cases hk : k = key
    · exact .inr (by rw [if_pos hk, if_pos hk])
    · exact .inl ⟨if_neg hk, if_neg hk⟩
  | keepIf keep =>
    refine h.tracks.update fun k => ?_
    simp only [Scene.step, refs_keepIf, lastPut]
    by_cases hk : keep k
    · exact .inl ⟨if_pos hk, if_pos hk⟩
    · exact .inr (by rw [if_neg hk, if_neg hk])
  | forgetDead =>
    refine h.tracks.forget fun k => .inr ⟨_, fun v hv => Scene.isAlive_iff.mpr hv, ?_⟩
    exact Table.get?_filter _ k
  | clear => exact h.tracks.update fun k => .inr rfl
  | dropWindow => exact h.tracks.congr rfl
  | _ => exact h.tracks

theorem step (h : Traced n s) (move : Move α) : Traced n (s.step move) := by
  obtain ⟨hsize, hqueued⟩ := h.queued_step move
  refine ⟨hsize, hqueued, (h.tracks_step move).mono fun k v hv halive => ?_, fun v hv => ?_, ?_⟩
  · -- what was put has a number already, so it is not the new value
    rcases Scene.alive_step halive with halive | hid
    · exact halive
    · have hseen : s.Seen v := by
        rcases Scene.lastPut_step hv with hv | hv
        · exact .inr ⟨k, hv⟩
        · exact .inl (Scene.mem_strong.mpr (.inl hv))
      exact absurd hid (Nat.ne_of_lt (h.below v hseen))
  · rcases h.seen_step hv with hv | ⟨value, rfl, rfl⟩
    · refine Nat.lt_of_lt_of_le (h.below v hv) ?_
      cases move with
      | make value => exact Nat.le_succ _
      | put key id =>
        simp only [Scene.step]
        split <;> exact Nat.le_refl _
      | _ => exact Nat.le_refl _
    · exact Nat.lt_succ_self _
  · intro v w hv hw hid
    rcases h.seen_step hv with hv' | ⟨value, rfl, rfl⟩
    · rcases h.seen_step hw with hw | ⟨value, rfl, rfl⟩
      · exact h.distinct v w hv' hw hid
      · exact absurd hid (Nat.ne_of_lt (h.below v hv'))
    · rcases h.seen_step hw with hw | ⟨value', heq, rfl⟩
      · exact absurd hid.symm (Nat.ne_of_lt (h.below w hw))
      · cases heq
        rfl

theorem run (h : Traced n s) (moves : List (Move α)) : Traced n (s.run moves) := by
  induction moves generalizing s with
  | nil => exact h
  | cons move moves ih => exact ih (h.step move)

end Traced

end TierCache.Lingering
