import TierCache.Fault
import TierCache.Proofs.Recency

/-!
# An order of use is a list without duplicates

An order of use keeps the ticks of its keys and the keys of its ticks in two maps. In every run the
maps stay inverse to each other, and every use is answered as by the list of the keys: a touched key
goes to its end, and the oldest key is its head.
-/
namespace TierCache.Recency

variable {κ : Type}

def keyAt? (order : List (Nat × κ)) (tick : Nat) : Option κ :=
  (order.find? fun e => e.1 = tick).map Prod.snd

/-- The order with a key at its tick; a key that has the tick gives way. -/
def insertTick (tick : Nat) (k : κ) : List (Nat × κ) → List (Nat × κ)
  | [] => [(tick, k)]
  | e :: order =>
    if e.1 < tick then e :: insertTick tick k order
    else if tick < e.1 then (tick, k) :: e :: order
    else (tick, k) :: order

theorem keyAt?_eq_some_iff {order : List (Nat × κ)} (h : order.Pairwise fun a b => a.1 < b.1)
    {tick : Nat} {k : κ} : keyAt? order tick = some k ↔ (tick, k) ∈ order := by
  have hticks : (order.map Prod.fst).Nodup := List.pairwise_map.mpr (h.imp Nat.ne_of_lt)
  exact Table.get?_eq_some_iff (t := ⟨order, hticks⟩)

theorem insertTick_of_above {order : List (Nat × κ)} {tick : Nat} (h : ∀ e ∈ order, e.1 < tick)
    (k : κ) : insertTick tick k order = order ++ [(tick, k)] := by
  induction order with
  | nil => rfl
  | cons e order ih =>
    rw [insertTick, if_pos (h e List.mem_cons_self),
      ih fun e he => h e (List.mem_cons_of_mem _ he), List.cons_append]

variable [DecidableEq κ]

/-- A touch that takes neither map for granted: the key that the order has at the old tick, if any,
is moved to the next one, and takes its place there among the ticks. -/
def restamp (r : Recency κ) (k : κ) : Recency κ where
  ticks := r.ticks.set k r.nextTick
  order := match r.ticks.get? k with
    | none => insertTick r.nextTick k r.order
    | some old => match keyAt? r.order old with
      | none => r.order
      | some moved => insertTick r.nextTick moved (dropTick r.order (some old))
  nextTick := r.nextTick + 1

/-- The order stands for a list of keys. -/
structure Lists (r : Recency κ) (keys : List κ) : Prop where
  inverse : ∀ k tick, r.ticks.get? k = some tick ↔ keyAt? r.order tick = some k
  ascending : r.order.Pairwise fun a b => a.1 < b.1
  below : ∀ k tick, r.ticks.get? k = some tick → tick < r.nextTick
  restamp : ∀ k, r.restamp k = r.touch k
  nodup : keys.Nodup
  toList : r.toList = keys
  size : r.size = keys.length
  isEmpty : r.isEmpty = keys.isEmpty
  contains : ∀ k, r.contains k = decide (k ∈ keys)
  oldest? : r.oldest? = keys.head?

namespace Valid

variable {r : Recency κ}

theorem restamp_eq (h : r.Valid) (k : κ) : r.restamp k = r.touch k := by
  have hdrop : ∀ tick, ∀ e ∈ dropTick r.order tick, e.1 < r.nextTick := by
    intro tick e he
    cases tick with
    | none => exact h.below e he
    | some tick => exact h.below e (List.mem_filter.mp he).1
  rw [restamp, Recency.touch]
  congr 1
  cases hk : r.ticks.get? k with
  | none => exact insertTick_of_above (hdrop none) k
  | some old =>
    have hkey : keyAt? r.order old = some k :=
      (keyAt?_eq_some_iff h.ascending).mpr ((h.stamped k old).mp hk)
    simp only [hkey]
    exact insertTick_of_above (hdrop (some old)) k

theorem popOldest (h : r.Valid) : r.popOldest.2.Valid := by
  cases ho : r.order with
  | nil =>
    have hsame : r.popOldest.2 = r := by simp only [Recency.popOldest, ho]
    rwa [hsame]
  | cons e order =>
    have hfirst : r.popOldest.1 = some e.2 := by simp only [Recency.popOldest, ho]
    exact (h.popOldest_eq hfirst).1

theorem keys_perm (h : r.Valid) : r.ticks.keys.Perm r.toList := by
  refine (List.perm_ext_iff_of_nodup r.ticks.nodup h.nodup).mpr fun k => ?_
  rw [h.mem_toList, ← Table.mem_keys_iff, Table.keys]

theorem lists (h : r.Valid) : r.Lists r.toList where
  inverse k tick := by rw [h.stamped, keyAt?_eq_some_iff h.ascending]
  ascending := h.ascending
  below k tick hk := h.below _ ((h.stamped k tick).mp hk)
  restamp := h.restamp_eq
  nodup := h.nodup
  toList := rfl
  size := by
    rw [← h.keys_perm.length_eq, Table.keys, List.length_map]
    rfl
  isEmpty := by
    rw [← h.keys_perm.isEmpty_eq, Table.keys, List.isEmpty_map]
    rfl
  contains k := by
    rw [Recency.contains, Bool.eq_iff_iff, Table.contains_iff, Table.mem_keys_iff,
      decide_eq_true_eq, h.mem_toList]
  oldest? := oldest?_eq_head? r

end Valid

inductive Use (κ : Type) where
  | touch (k : κ)
  | erase (k : κ)
  | popOldest
  | oldest
  | contains (k : κ)
  | clear

inductive Answer (κ : Type) where
  | done
  | truth (b : Bool)
  | key (k : Option κ)

/-- A tick has 64 bits. -/
def use (r : Recency κ) : Use κ → Except Fault (Recency κ × Answer κ)
  | .touch k => (addCounts r.nextTick 1).map fun _ => (r.touch k, .done)
  | .erase k => .ok (r.erase k, .truth (r.contains k))
  | .popOldest => .ok (r.popOldest.2, .key r.popOldest.1)
  | .oldest => .ok (r, .key r.oldest?)
  | .contains k => .ok (r, .truth (r.contains k))
  | .clear => .ok (r.clear, .done)

def run (r : Recency κ) : List (Use κ) → Except Fault (Recency κ × List (Answer κ))
  | [] => .ok (r, [])
  | u :: uses => do
    let (r, answer) ← r.use u
    let (r, answers) ← r.run uses
    return (r, answer :: answers)

/-- The same on a list of keys, the oldest first. -/
def useListed (keys : List κ) : Use κ → List κ × Answer κ
  | .touch k => (keys.erase k ++ [k], .done)
  | .erase k => (keys.erase k, .truth (k ∈ keys))
  | .popOldest => (keys.tail, .key keys.head?)
  | .oldest => (keys, .key keys.head?)
  | .contains k => (keys, .truth (k ∈ keys))
  | .clear => ([], .done)

def runListed (keys : List κ) : List (Use κ) → List κ × List (Answer κ)
  | [] => (keys, [])
  | u :: uses =>
    let (keys, answer) := useListed keys u
    let (keys, answers) := runListed keys uses
    (keys, answer :: answers)

def Use.isTouch : Use κ → Bool
  | .touch _ => true
  | _ => false

/-- How often keys are touched. -/
def touches (uses : List (Use κ)) : Nat := uses.countP Use.isTouch

variable {r : Recency κ}

/-- One use of a valid order is answered as by its list, and leaves a valid order. -/
theorem use_eq (h : r.Valid) {u : Use κ} (hroom : r.nextTick + touches [u] < UInt64.size) :
    ∃ r' : Recency κ, r.use u = .ok (r', (useListed r.toList u).2) ∧ r'.Valid ∧
      r'.toList = (useListed r.toList u).1 ∧ r'.nextTick = r.nextTick + touches [u] := by
  have hcontains := h.lists.contains
  have herase : ∀ k, r.toList.erase k = r.toList.filter (· ≠ k) := by
    intro k
    rw [h.nodup.erase_eq_filter]
    exact List.filter_congr fun k' _ => (decide_not (p := k' = k)).symm
  cases u with
  | touch k =>
    have hadd : addCounts r.nextTick 1 = .ok (r.nextTick + 1) :=
      addCounts_eq_ok_iff.mpr ⟨hroom, rfl⟩
    refine ⟨r.touch k, ?_, h.touch k, ?_, rfl⟩
    · rw [use, hadd]
      rfl
    · rw [h.toList_touch, useListed, herase]
  | erase k =>
    refine ⟨r.erase k, ?_, h.erase k, ?_, rfl⟩
    · rw [use, useListed, hcontains]
    · rw [h.toList_erase, useListed, herase]
  | popOldest =>
    refine ⟨r.popOldest.2, ?_, h.popOldest, r.toList_popOldest, ?_⟩
    · rw [use, useListed, fst_popOldest]
    · rw [popOldest]
      split <;> rfl
  | oldest =>
    refine ⟨r, ?_, h, rfl, rfl⟩
    rw [use, useListed, oldest?_eq_head?]
  | contains k =>
    refine ⟨r, ?_, h, rfl, rfl⟩
    rw [use, useListed, hcontains]
  | clear => exact ⟨r.clear, rfl, .clear r, rfl, rfl⟩

/-- So is any run that has ticks enough. -/
theorem run_eq (h : r.Valid) {uses : List (Use κ)}
    (hroom : r.nextTick + touches uses < UInt64.size) :
    ∃ r' : Recency κ, r.run uses = .ok (r', (runListed r.toList uses).2) ∧ r'.Valid ∧
      r'.toList = (runListed r.toList uses).1 ∧ r'.nextTick = r.nextTick + touches uses := by
  induction uses generalizing r with
  | nil => exact ⟨r, rfl, h, rfl, rfl⟩
  | cons u uses ih =>
    have hsplit : touches (u :: uses) = touches [u] + touches uses := by
      rw [← List.singleton_append, touches, List.countP_append]
      rfl
    obtain ⟨r₁, huse, hvalid, hlist, hnext⟩ := use_eq h (u := u) (by omega)
    obtain ⟨r₂, hrun, hvalid', hlist', hnext'⟩ := ih hvalid (by omega)
    refine ⟨r₂, ?_, hvalid', ?_, by omega⟩
    · rw [run, huse]
      simp only [bind, Except.bind, hrun, runListed, hlist]
      rfl
    · rw [hlist', hlist, runListed]

/-- In every run that touches keys less than 2 ^ 64 times, every use is answered as by a list
without duplicates, and the order that is left stands for the list that is left. -/
theorem run_as_list {uses : List (Use κ)} (h : touches uses < UInt64.size) :
    ∃ r : Recency κ, (empty : Recency κ).run uses = .ok (r, (runListed [] uses).2) ∧
      r.Lists (runListed [] uses).1 ∧ r.nextTick = touches uses := by
  have hroom : (empty : Recency κ).nextTick + touches uses < UInt64.size := by
    rwa [empty, Nat.zero_add]
  obtain ⟨r, hrun, hvalid, hlist, hnext⟩ := run_eq .empty hroom
  refine ⟨r, hrun, ?_, ?_⟩
  · have hlists := hvalid.lists
    rwa [hlist] at hlists
  · rwa [empty, Nat.zero_add] at hnext

/-- A key that is touched again is no longer the oldest, and ticks go on after a clearing. -/
theorem run_as_list_retouched :
    ∃ r : Recency String, (empty : Recency String).run [.touch "a", .touch "b", .touch "a",
        .erase "c", .popOldest, .clear, .touch "b", .oldest] =
          .ok (r, [.done, .done, .done, .truth false, .key (some "b"), .done, .done,
            .key (some "b")]) ∧
      r.Lists ["b"] ∧ r.nextTick = 4 := by
  have hfew : touches [Use.touch "a", .touch "b", .touch "a", .erase "c", .popOldest, .clear,
      .touch "b", .oldest] < UInt64.size := by decide
  exact run_as_list hfew

end TierCache.Recency
