import TierCache.Proofs.Resident.Handover

/-!
# Which puts the memory tier accepts

The cost of a new entry is added before anything is dropped. So a put needs room for the sum in 64
bits, beside all entries of other keys, and it needs nothing else: an entry above the capacity is
accepted too, takes everything else along and is dropped last.
-/
namespace TierCache

variable {α : Type}

open Ranked (others shed)

namespace Resident

def Entry.costs (ps : List (String × Entry α)) : Nat := total (fun p => p.2.cost) ps

/-- What all entries cost together. -/
def residentCost (m : Resident α) : Nat := Entry.costs m.entries.pairs

/-- What the entries of other keys cost. -/
def costBeside (m : Resident α) (key : String) : Nat := Entry.costs (m.entries.erase key).pairs

end Resident

namespace Ranks

variable {rows : List (Ranked α)} {m : Resident α}

theorem residentCost (h : Ranks rows m) : m.residentCost = total Ranked.cost rows := by
  have hp := total_perm Ranked.cost h.perm
  rwa [total_map] at hp

theorem costBeside (h : Ranks rows m) (key : String) :
    m.costBeside key = total Ranked.cost (others rows key) := by
  have hp := total_perm Ranked.cost (h.perm.filter fun row => row.key ≠ key)
  rwa [List.filter_map, total_map] at hp

end Ranks

namespace Resident

variable {m m' : Resident α} {l : Ranking α} {key : String} {value : α} {cost : Nat}
  {removed : List (Removal α)}

/-- What a put that is accepted comes to. -/
structure Accepted (m : Resident α) (key : String) (value : α) (cost : Nat) (m' : Resident α)
    (removed : List (Removal α)) : Prop where
  sum : m'.totalCost = m'.residentCost
  fits : m'.totalCost ≤ m'.capacity
  capacity : m'.capacity = m.capacity
  causes : ∀ r ∈ removed, r.cause = .capacity ∨ r.cause = .replaced ∧ r.key = key
  stays : cost ≤ m.capacity → (m'.get key).1 = some value
  /-- An entry above the capacity is the last to be dropped, and nothing is left. -/
  oversized : m.capacity < cost →
    m'.isEmpty = true ∧ removed.getLast? = some ⟨key, value, .capacity⟩

theorem accepted (hl : l.Mirrors m) (h : m.put key value cost = .ok (m', removed)) :
    Accepted m key value cost m' removed := by
  obtain ⟨l', hlist, hm⟩ := hl.put_ok h
  obtain ⟨hrows, hremoved⟩ := Ranking.put_ok hlist
  have hcapacity := Ranking.capacity_put hlist
  refine ⟨?_, ?_, ?_, ?_, fun hle => ?_, fun hlt => ?_⟩
  · rw [hm.ranks.cost, hm.ranks.residentCost]
  · rw [hm.ranks.cost, hm.capacity]
    exact l'.fits
  · rw [hm.capacity, hcapacity, hl.capacity]
  · intro r hr
    rw [hremoved, List.mem_append] at hr
    rcases hr with hr | hr
    · obtain ⟨row, hrow, rfl⟩ := List.mem_map.mp hr
      exact .inr ⟨rfl, (Ranking.row?_eq_some_iff.mp (Option.mem_toList.mp hrow)).2⟩
    · obtain ⟨row, -, rfl⟩ := List.mem_map.mp hr
      exact .inl rfl
  · rw [hl.capacity] at hle
    have hmem := Ranked.mem_shed_of_le (others l.rows key) ⟨key, value, cost⟩ hle
    rw [← hrows] at hmem
    rw [get, hm.ranks.entry hmem]
  · rw [hl.capacity] at hlt
    have hnone := Ranked.shed_of_lt (others l.rows key) ⟨key, value, cost⟩ hlt
    have hall := Ranked.shed_append l.capacity (others l.rows key ++ [⟨key, value, cost⟩])
    rw [hnone, List.append_nil] at hall
    constructor
    · rw [isEmpty, hm.ranks.size, hrows, hnone]
      rfl
    · rw [hremoved, hall, List.map_append, ← List.append_assoc]
      exact List.getLast?_concat

theorem totalCost_displaced (hl : l.Mirrors m) (key : String) :
    (m.displaced key).1.totalCost = m.costBeside key :=
  (hl.displaced key).1.cost.trans (hl.ranks.costBeside key).symm

theorem put_of_fits (hl : l.Mirrors m) (value : α) (h : m.costBeside key + cost < UInt64.size) :
    ∃ m' removed, m.put key value cost = .ok (m', removed) := by
  rw [put_eq, totalCost_displaced hl, addCounts, if_pos h]
  exact ⟨_, _, rfl⟩

/-- A put fails for the sum of the costs and for nothing else. -/
theorem put_eq_error_iff (hl : l.Mirrors m) {fault : Fault} : m.put key value cost = .error fault ↔
    fault = .addOverflow ∧ UInt64.size ≤ m.costBeside key + cost := by
  constructor
  · intro h
    rw [put_eq, totalCost_displaced hl, addCounts] at h
    split at h
    · cases h
    · rename_i hge
      cases h
      exact ⟨rfl, Nat.le_of_not_lt hge⟩
  · rintro ⟨rfl, hge⟩
    rw [put_eq, totalCost_displaced hl, addCounts, if_neg (Nat.not_lt_of_le hge)]
    rfl

/-- In any tier that calls lead to, a put is accepted exactly if its cost and the costs of the other
keys add up in 64 bits. Then it leaves the tier within its capacity and the total with its entries,
and an entry above the capacity is handed over. -/
theorem put_accepted {capacity : Nat} {calls : List (Call α)} {events : List (Event α)}
    (h : kept.run (.empty capacity) calls = .ok (m, events)) (key : String) (value : α)
    (cost : Nat) :
    m.costBeside key ≤ m.capacity ∧
    (∀ fault, m.put key value cost = .error fault ↔
      fault = .addOverflow ∧ UInt64.size ≤ m.costBeside key + cost) ∧
    (m.costBeside key + cost < UInt64.size →
      ∃ m' removed, m.put key value cost = .ok (m', removed) ∧
        Accepted m key value cost m' removed) := by
  obtain ⟨-, -, l, hl⟩ := run_whole (.empty capacity) h
  refine ⟨?_, fun fault => put_eq_error_iff hl, fun hlt => ?_⟩
  · rw [hl.ranks.costBeside, hl.capacity]
    exact Nat.le_trans (total_sublist _ (Ranked.others_sublist l.rows key)) l.fits
  · obtain ⟨m', removed, hput⟩ := put_of_fits hl value hlt
    exact ⟨m', removed, hput, accepted hl hput⟩

/-- The dearest entry that a tier with one small entry accepts. -/
theorem put_accepted_dearest : ∃ m events m' removed,
    kept.run (.empty 5) [.put "a" 0 1] = .ok (m, events) ∧
    m.costBeside "b" + (UInt64.size - 2) < UInt64.size ∧
    m.put "b" 1 (UInt64.size - 2) = .ok (m', removed) ∧
    m'.isEmpty = true ∧ removed.getLast? = some ⟨"b", 1, .capacity⟩ := by
  obtain ⟨-, -, accepts⟩ := @put_accepted Nat _ 5 [.put "a" 0 1] _ rfl "b" 1
    (UInt64.size - 2)
  obtain ⟨m', removed, hput, hacc⟩ := accepts (by decide)
  obtain ⟨hempty, hlast⟩ := hacc.oversized (by decide)
  exact ⟨_, _, m', removed, rfl, by decide, hput, hempty, hlast⟩

/-- An entry above the capacity that is refused, as there is another one. -/
theorem put_refused : ∃ m events, kept.run (.empty 5) [.put "a" 0 1] = .ok (m, events) ∧
    m.put "b" 1 (UInt64.size - 1) = .error .addOverflow := by
  obtain ⟨-, -, l, hl⟩ := @run_whole Nat _ _ _ (.empty 5) [.put "a" 0 1] _ rfl
  exact ⟨_, _, rfl, (put_eq_error_iff hl).mpr ⟨rfl, by decide⟩⟩

end Resident

end TierCache
