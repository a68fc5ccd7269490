import TierCache.Counters
import TierCache.Recency

/-!
# The memory tier

Entries with a cost each, bounded by their total cost. What leaves the tier is reported: a value
that a later one replaced, values dropped for the capacity, least recently used first, and values
removed by a call.
-/
namespace TierCache

inductive Cause where
  | capacity
  | replaced
  | explicit
  deriving DecidableEq, Repr

def Cause.isEviction : Cause → Bool
  | .capacity => true
  | _ => false

structure Removal (α : Type) where
  key : String
  value : α
  cause : Cause
  deriving DecidableEq, Repr

namespace Resident

structure Entry (α : Type) where
  value : α
  cost : Nat
  deriving DecidableEq, Repr

end Resident

structure Resident (α : Type) where
  entries : Table String (Resident.Entry α)
  recency : Recency String
  totalCost : Nat
  capacity : Nat
  hits : Nat
  misses : Nat
  evictions : Nat

namespace Resident

variable {α : Type}

def empty (capacity : Nat) : Resident α := ⟨.empty, .empty, 0, capacity, 0, 0, 0⟩

/-- Takes an entry out, without a report. -/
def take (m : Resident α) (key : String) : Option (Entry α × Resident α) :=
  (m.entries.get? key).map fun e =>
    (e, { m with
      entries := m.entries.erase key
      recency := m.recency.erase key
      totalCost := m.totalCost - e.cost })

/-- Drops entries from the least recent end while the total cost is above the capacity. Each drop
shortens the order, so as many rounds as there are keys are enough. -/
def shrinkRounds : Nat → Resident α → Resident α × List (Removal α)
  | 0, m => (m, [])
  | n + 1, m =>
    if m.totalCost ≤ m.capacity then (m, [])
    else
      match m.recency.popOldest with
      | (none, _) => (m, [])
      | (some key, recency) =>
        match m.entries.get? key with
        | none => shrinkRounds n { m with recency }
        | some e =>
          let (m, removed) := shrinkRounds n { m with
            entries := m.entries.erase key
            recency
            totalCost := m.totalCost - e.cost
            evictions := m.evictions + 1 }
          (m, ⟨key, e.value, .capacity⟩ :: removed)

def shrink (m : Resident α) : Resident α × List (Removal α) := shrinkRounds m.recency.order.length m

/-- A value of its key is replaced first; the new entry may be dropped at once. -/
def put (m : Resident α) (key : String) (value : α) (cost : Nat) :
    Except Fault (Resident α × List (Removal α)) := do
  let (m, replaced) := match m.take key with
    | some (old, m) => (m, [Removal.mk key old.value .replaced])
    | none => (m, [])
  let totalCost ← addCounts m.totalCost cost
  let (m, dropped) := shrink { m with
    entries := m.entries.set key ⟨value, cost⟩
    recency := m.recency.touch key
    totalCost }
  return (m, replaced ++ dropped)

def get (m : Resident α) (key : String) : Option α × Resident α :=
  match m.entries.get? key with
  | some e => (some e.value, { m with recency := m.recency.touch key, hits := m.hits + 1 })
  | none => (none, { m with misses := m.misses + 1 })

def contains (m : Resident α) (key : String) : Bool := m.entries.contains key

def remove (m : Resident α) (key : String) : Resident α × List (Removal α) :=
  match m.take key with
  | some (e, m) => (m, [⟨key, e.value, .explicit⟩])
  | none => (m, [])

/-- Removes the entries of all keys that `keep` rejects. -/
def keepIf (m : Resident α) (keep : String → Bool) : Resident α × List (Removal α) :=
  (m.entries.keys.filter fun k => !keep k).foldl
    (fun (m, removed) key =>
      let (m, now) := m.remove key
      (m, removed ++ now))
    (m, [])

def clear (m : Resident α) : Resident α × List (Removal α) :=
  ({ m with entries := .empty, recency := m.recency.clear, totalCost := 0 },
    m.entries.pairs.map fun (key, e) => ⟨key, e.value, .explicit⟩)

def resize (m : Resident α) (capacity : Nat) : Resident α × List (Removal α) :=
  shrink { m with capacity }

def size (m : Resident α) : Nat := m.entries.size

def isEmpty (m : Resident α) : Bool := m.size = 0

def stats (m : Resident α) : EntryCounts where
  hits := m.hits
  misses := m.misses
  evictions := m.evictions
  totalEntries := m.size
  totalCost := m.totalCost

end Resident

end TierCache
