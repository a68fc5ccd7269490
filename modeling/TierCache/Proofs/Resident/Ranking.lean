import TierCache.Proofs.Table
import TierCache.Resident

/-!
# The memory tier as a list

The plain form of the memory tier is a capacity and one list of rows, least recently used first. No
key has two rows, and what the rows cost together is within the capacity. Rows are dropped from the
least recent end, one at a time, and no longer than the rest is above the capacity.
-/
namespace TierCache

structure Ranked (α : Type) where
  key : String
  value : α
  cost : Nat

@[ext]
structure Ranking (α : Type) where
  capacity : Nat
  rows : List (Ranked α)
  nodup : (rows.map Ranked.key).Nodup
  fits : total Ranked.cost rows ≤ capacity

variable {α : Type}

namespace Ranked

def removal (cause : Cause) (row : Ranked α) : Removal α := ⟨row.key, row.value, cause⟩

def others (rows : List (Ranked α)) (key : String) : List (Ranked α) :=
  rows.filter fun row => row.key ≠ key

/-- The rows to drop, in the order of dropping, and the rows that stay. -/
def shed (capacity : Nat) : List (Ranked α) → List (Ranked α) × List (Ranked α)
  | [] => ([], [])
  | row :: rows =>
    if total Ranked.cost (row :: rows) ≤ capacity then ([], row :: rows)
    else (row :: (shed capacity rows).1, (shed capacity rows).2)

variable {rows : List (Ranked α)} {row : Ranked α} {key : String} {capacity : Nat}

theorem mem_others : row ∈ others rows key ↔ row ∈ rows ∧ row.key ≠ key := by
  rw [others, List.mem_filter, decide_eq_true_eq]

theorem nodup_of_keys (h : (rows.map Ranked.key).Nodup) : rows.Nodup :=
  List.Pairwise.of_map Ranked.key (fun _ _ hne he => hne (congrArg Ranked.key he)) h

theorem others_sublist (rows : List (Ranked α)) (key : String) :
    (others rows key).Sublist rows := List.filter_sublist

theorem map_key_others (rows : List (Ranked α)) (key : String) :
    (others rows key).map Ranked.key = (rows.map Ranked.key).filter (· ≠ key) := by
  rw [others, List.filter_map]
  rfl

theorem others_eq_self (h : ∀ row ∈ rows, row.key ≠ key) : others rows key = rows :=
  List.filter_eq_self.mpr fun row hr => decide_eq_true (h row hr)

theorem others_cons_self (h : ((row :: rows).map Ranked.key).Nodup) :
    others (row :: rows) row.key = rows := by
  rw [List.map_cons, List.nodup_cons] at h
  rw [others, List.filter_cons_of_neg (by simp)]
  exact others_eq_self fun row' hr he => h.1 (List.mem_map.mpr ⟨row', hr, he⟩)

theorem nodup_others_append (h : (rows.map Ranked.key).Nodup) (row : Ranked α) :
    ((others rows row.key ++ [row]).map Ranked.key).Nodup := by
  rw [List.map_append, map_key_others, List.map_singleton, List.nodup_append]
  refine ⟨h.filter _, by simp, ?_⟩
  intro k hk k' hk' he
  rw [List.mem_filter, decide_eq_true_eq] at hk
  exact hk.2 (he.trans (List.mem_singleton.mp hk'))

/-- A row that is there stands beside the others. -/
theorem perm_others (h : (rows.map Ranked.key).Nodup) (hr : row ∈ rows) :
    rows.Perm (row :: others rows row.key) := by
  induction rows with
  | nil => cases hr
  | cons first rows ih =>
    rcases List.mem_cons.mp hr with rfl | hmem
    · rw [others_cons_self h]
    · rw [List.map_cons, List.nodup_cons] at h
      have hne : first.key ≠ row.key := fun he => h.1 (List.mem_map.mpr ⟨row, hmem, he.symm⟩)
      rw [others, List.filter_cons_of_pos (by simpa using hne)]
      exact ((ih h.2 hmem).cons first).trans (List.Perm.swap row first _)

theorem shed_append (capacity : Nat) (rows : List (Ranked α)) :
    (shed capacity rows).1 ++ (shed capacity rows).2 = rows := by
  induction rows with
  | nil => rfl
  | cons row rows ih =>
    rw [shed]
    split
    · rfl
    · rw [List.cons_append, ih]

theorem shed_fits (capacity : Nat) (rows : List (Ranked α)) :
    total Ranked.cost (shed capacity rows).2 ≤ capacity := by
  induction rows with
  | nil => exact Nat.zero_le _
  | cons row rows ih =>
    rw [shed]
    split
    · assumption
    · exact ih

/-- Rows dropped from the front so that the rest fits, and no fewer rows would do. -/
structure Shedding (capacity : Nat) (rows dropped kept : List (Ranked α)) : Prop where
  whole : dropped ++ kept = rows
  fits : total Ranked.cost kept ≤ capacity
  least : ∀ dropped' kept', dropped' ++ kept' = rows → total Ranked.cost kept' ≤ capacity →
    dropped.length ≤ dropped'.length

theorem shed_least {dropped kept : List (Ranked α)} (h : dropped ++ kept = rows)
    (hfits : total Ranked.cost kept ≤ capacity) :
    (shed capacity rows).1.length ≤ dropped.length := by
  induction rows generalizing dropped with
  | nil => exact Nat.zero_le _
  | cons row rows ih =>
    rw [shed]
    split
    · exact Nat.zero_le _
    · rename_i habove
      cases dropped with
      | nil =>
        rw [← h] at habove
        exact absurd hfits habove
      | cons first dropped =>
        rw [List.cons_append, List.cons.injEq] at h
        exact Nat.succ_le_succ (ih h.2)

theorem shed_shedding (capacity : Nat) (rows : List (Ranked α)) :
    Shedding capacity rows (shed capacity rows).1 (shed capacity rows).2 :=
  ⟨shed_append capacity rows, shed_fits capacity rows, fun _ _ => shed_least⟩

/-- A row above the capacity takes all rows before it along. -/
example : shed 1 [⟨"a", (), 0⟩, ⟨"b", (), 2⟩] = ([⟨"a", (), 0⟩, ⟨"b", (), 2⟩], []) := rfl

theorem shed_sublist (capacity : Nat) (rows : List (Ranked α)) :
    (shed capacity rows).2.Sublist rows := by
  have hs := List.sublist_append_right (shed capacity rows).1 (shed capacity rows).2
  rwa [shed_append] at hs

/-- The last row is dropped only after all others. -/
theorem mem_shed_append (capacity : Nat) (rows : List (Ranked α)) (row : Ranked α) :
    (shed capacity (rows ++ [row])).2 = [] ∨ row ∈ (shed capacity (rows ++ [row])).2 := by
  induction rows with
  | nil => by_cases h : row.cost ≤ capacity <;> simp [shed, h]
  | cons first rows ih =>
    rw [List.cons_append, shed]
    split
    · simp
    · exact ih

/-- The last row alone is not dropped if it fits. -/
theorem mem_shed_of_le {capacity : Nat} (rows : List (Ranked α)) (row : Ranked α)
    (h : row.cost ≤ capacity) : row ∈ (shed capacity (rows ++ [row])).2 := by
  rcases mem_shed_append capacity rows row with hnone | hmem
  · -- all rows would be dropped, one more than are needed
    have hall := shed_append capacity (rows ++ [row])
    rw [hnone, List.append_nil] at hall
    have hleast := shed_least (show rows ++ [row] = rows ++ [row] from rfl)
      (show total cost [row] ≤ capacity from h)
    rw [hall, List.length_append, List.length_singleton] at hleast
    omega
  · exact hmem

/-- Nothing stays before a row that is above the capacity, nor does the row. -/
theorem shed_of_lt {capacity : Nat} (rows : List (Ranked α)) (row : Ranked α)
    (h : capacity < row.cost) : (shed capacity (rows ++ [row])).2 = [] := by
  rcases mem_shed_append capacity rows row with hnone | hmem
  · exact hnone
  · have hle := total_sublist cost (List.singleton_sublist.mpr hmem)
    exact absurd (Nat.le_trans hle (shed_fits capacity (rows ++ [row]))) (Nat.not_le_of_lt h)

end Ranked

namespace Ranking

open Ranked (others shed)

def empty (capacity : Nat) : Ranking α := ⟨capacity, [], List.nodup_nil, Nat.zero_le _⟩

def row? (l : Ranking α) (key : String) : Option (Ranked α) := l.rows.find? fun row => row.key = key

/-- Drops what is above the capacity, and reports it in the order of dropping. -/
def settle (capacity : Nat) (rows : List (Ranked α)) (h : (rows.map Ranked.key).Nodup) :
    Ranking α × List (Removal α) :=
  (⟨capacity, (shed capacity rows).2, h.sublist ((Ranked.shed_sublist capacity rows).map _),
    Ranked.shed_fits capacity rows⟩,
    (shed capacity rows).1.map (Ranked.removal .capacity))

def filter (l : Ranking α) (keep : String → Bool) : Ranking α where
  capacity := l.capacity
  rows := l.rows.filter fun row => keep row.key
  nodup := l.nodup.sublist (List.filter_sublist.map _)
  fits := Nat.le_trans (total_sublist _ List.filter_sublist) l.fits

/-- A row of the key is replaced first, and the new row is the most recent one. -/
def put (l : Ranking α) (key : String) (value : α) (cost : Nat) :
    Except Fault (Ranking α × List (Removal α)) := do
  let _ ← addCounts (total Ranked.cost (others l.rows key)) cost
  let (settled, dropped) := settle l.capacity (others l.rows key ++ [⟨key, value, cost⟩])
    (Ranked.nodup_others_append l.nodup ⟨key, value, cost⟩)
  return (settled, (l.row? key).toList.map (Ranked.removal .replaced) ++ dropped)

/-- Makes a row the most recent one. -/
def promote (l : Ranking α) (row : Ranked α) (h : row ∈ l.rows) : Ranking α where
  capacity := l.capacity
  rows := others l.rows row.key ++ [row]
  nodup := Ranked.nodup_others_append l.nodup row
  fits := by
    rw [total_perm _ (List.perm_append_singleton row _),
      ← total_perm _ (Ranked.perm_others l.nodup h)]
    exact l.fits

def get (l : Ranking α) (key : String) : Option α × Ranking α :=
  match h : l.row? key with
  | none => (none, l)
  | some row => (some row.value, l.promote row (List.mem_of_find?_eq_some h))

def contains (l : Ranking α) (key : String) : Bool := (l.row? key).isSome

def remove (l : Ranking α) (key : String) : Ranking α × List (Removal α) :=
  (l.filter (· ≠ key), (l.row? key).toList.map (Ranked.removal .explicit))

def keepIf (l : Ranking α) (keep : String → Bool) : Ranking α × List (Removal α) :=
  (l.filter keep,
    (l.rows.filter fun row => !keep row.key).map (Ranked.removal .explicit))

def clear (l : Ranking α) : Ranking α × List (Removal α) :=
  (empty l.capacity, l.rows.map (Ranked.removal .explicit))

def resize (l : Ranking α) (capacity : Nat) : Ranking α × List (Removal α) :=
  settle capacity l.rows l.nodup

theorem row?_eq_some_iff {l : Ranking α} {key : String} {row : Ranked α} :
    l.row? key = some row ↔ row ∈ l.rows ∧ row.key = key := by
  constructor
  · intro h
    exact ⟨List.mem_of_find?_eq_some h, by simpa using List.find?_some h⟩
  · rintro ⟨hr, rfl⟩
    have hs : (l.row? row.key).isSome := List.find?_isSome.mpr ⟨row, hr, by simp⟩
    obtain ⟨row', hr'⟩ := Option.isSome_iff_exists.mp hs
    have hk : row'.key = row.key := by simpa using List.find?_some hr'
    rw [hr', eq_of_nodup_map l.nodup (List.mem_of_find?_eq_some hr') hr hk]

theorem row?_eq_none_iff {l : Ranking α} {key : String} :
    l.row? key = none ↔ ∀ row ∈ l.rows, row.key ≠ key := by
  simp [row?, List.find?_eq_none]

theorem get_of_none {l : Ranking α} {key : String} (h : l.row? key = none) :
    l.get key = (none, l) := by
  rw [get]
  split
  · rfl
  · rename_i row hr
    rw [h] at hr
    cases hr

theorem get_of_some {l : Ranking α} {key : String} {row : Ranked α} (h : l.row? key = some row) :
    l.get key = (some row.value, l.promote row (row?_eq_some_iff.mp h).1) := by
  rw [get]
  split
  · rename_i hr
    rw [h] at hr
    cases hr
  · rename_i row' hr
    cases h.symm.trans hr
    rfl

theorem filter_filter (l : Ranking α) (p q : String → Bool) :
    (l.filter p).filter q = l.filter fun k => q k && p k := by
  refine Ranking.ext rfl ?_
  exact List.filter_filter

end Ranking

end TierCache
