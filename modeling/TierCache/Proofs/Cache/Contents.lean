import TierCache.Proofs.Cache.Tiers

/-!
# What is said of all values in memory

A property of keys and values that all entries of the memory tier have, and all that the overflow
tier remembers, is kept by every operation that brings in nothing without it: the two tiers only
pass values on under their keys.
-/
namespace TierCache

variable {α : Type}

namespace Resident

variable {P Q : String → α → Prop} {m m' : Resident α} {key : String}

/-- All entries have the property, those that would not be found first too. -/
def All (P : String → α → Prop) (m : Resident α) : Prop :=
  ∀ k e, m.entries.get? k = some e → P k e.value

theorem all_of_empty (h : m.entries = .empty) : m.All P := by
  intro k e he
  rw [h] at he
  cases he

theorem All.mono (h : m.All P) (hpq : ∀ k a, P k a → Q k a) : m.All Q :=
  fun k e he => hpq k e.value (h k e he)

/-- Only the entries matter. -/
theorem All.congr (h : m.All P) (he : m'.entries = m.entries) : m'.All P := by
  intro k e hk
  rw [he] at hk
  exact h k e hk

theorem All.of_get (h : m.All P) {a : α} (ha : (m.get key).1 = some a) : P key a := by
  obtain ⟨e, he, rfl⟩ := entry_of_get ha
  exact h key e he

theorem All.get (h : m.All P) (key : String) : (m.get key).2.All P :=
  h.congr (m.entries_get key)

theorem All.erase (h : m.All P) (hm : m'.entries = m.entries.erase key) : m'.All P := by
  intro k e hk
  rw [hm, Table.get?_erase, Option.ite_none_left_eq_some] at hk
  exact h k e hk.2

theorem All.set (h : m.All P) {e : Entry α} (he : P key e.value)
    (hm : m'.entries = m.entries.set key e) : m'.All P := by
  intro k e' hk
  rw [hm, Table.get?_set] at hk
  split at hk
  · rename_i hkey
    cases hk
    exact hkey ▸ he
  · exact h k e' hk

/-- What is dropped had the property under its key. -/
theorem All.shrinkRounds (h : m.All P) (n : Nat) :
    (m.shrinkRounds n).1.All P ∧ ∀ r ∈ (m.shrinkRounds n).2, P r.key r.value := by
  induction n generalizing m with
  | zero => exact ⟨h, fun r hr => absurd hr List.not_mem_nil⟩
  | succ n ih =>
    rw [Resident.shrinkRounds]
    split
    · exact ⟨h, fun r hr => absurd hr List.not_mem_nil⟩
    · split
      · exact ⟨h, fun r hr => absurd hr List.not_mem_nil⟩
      · rename_i key recency _
        split
        · exact ih (m := { m with recency }) h
        · rename_i e he
          obtain ⟨hall, hrs⟩ := ih (m := { m with
            entries := m.entries.erase key
            recency
            totalCost := m.totalCost - e.cost
            evictions := m.evictions + 1 }) (h.erase rfl)
          refine ⟨hall, fun r hr => ?_⟩
          rcases List.mem_cons.mp hr with rfl | hr
          · exact h key e he
          · exact hrs r hr

/-- A put asks nothing of what its key had before. -/
theorem All.put_replacing (h : m.All fun k a => k ≠ key → P k a) {a : α} {cost : Nat}
    {removed : List (Removal α)} (ha : P key a) (hm : m.put key a cost = .ok (m', removed)) :
    m'.All P ∧ ∀ r ∈ ((m.displaced key).1.placed key a cost).shrink.2, P r.key r.value := by
  obtain ⟨rfl, -⟩ := put_ok hm
  have hdisplaced : (m.displaced key).1.All P := by
    intro k e hk
    rw [entries_displaced, Option.ite_none_left_eq_some] at hk
    exact h k e hk.2 hk.1
  have hplaced : ((m.displaced key).1.placed key a cost).All P :=
    hdisplaced.set (e := ⟨a, cost⟩) ha rfl
  exact hplaced.shrinkRounds _

theorem All.put (h : m.All P) {a : α} {cost : Nat} {removed : List (Removal α)} (ha : P key a)
    (hm : m.put key a cost = .ok (m', removed)) :
    m'.All P ∧ ∀ r ∈ removed, P r.key r.value := by
  obtain ⟨hall, hdropped⟩ := (h.mono (Q := fun k a => k ≠ key → P k a)
    fun _ _ hp _ => hp).put_replacing ha hm
  obtain ⟨-, rfl⟩ := put_ok hm
  refine ⟨hall, fun r hr => ?_⟩
  cases List.mem_append.mp hr with
  | inl hr =>
    obtain ⟨hk, -, e, he, hv⟩ := mem_displaced hr
    rw [hk, ← hv]
    exact h key e he
  | inr hr => exact hdropped r hr

theorem All.resize (h : m.All P) (capacity : Nat) :
    (m.resize capacity).1.All P ∧ ∀ r ∈ (m.resize capacity).2, P r.key r.value :=
  All.shrinkRounds (m := { m with capacity }) h _

theorem All.remove (h : m.All P) (key : String) : (m.remove key).1.All P := by
  intro k e hk
  rw [entries_remove, Option.ite_none_left_eq_some] at hk
  exact h k e hk.2

theorem All.keepIf (h : m.All P) (keep : String → Bool) : (m.keepIf keep).1.All P := by
  intro k e hk
  rw [entries_keepIf, Option.ite_none_right_eq_some] at hk
  exact h k e hk.2

end Resident

namespace Lingering

variable {P Q : String → Shared α → Prop} {o o' : Lingering α} {key : String}

/-- All remembered values have the property, dead ones too. -/
def All (P : String → Shared α → Prop) (o : Lingering α) : Prop :=
  ∀ k v, o.refs.get? k = some v → P k v

theorem all_of_empty (h : o.refs = .empty) : o.All P := by
  intro k v hv
  rw [h] at hv
  cases hv

theorem All.mono (h : o.All P) (hpq : ∀ k v, P k v → Q k v) : o.All Q :=
  fun k v hv => hpq k v (h k v hv)

/-- The tier may forget. -/
theorem All.of_refs (h : o.All P) (ho : ∀ {k v}, o'.refs.get? k = some v → o.refs.get? k = some v) :
    o'.All P := fun k v hv => h k v (ho hv)

theorem All.put (h : o.All P) {v : Shared α} (hv : P key v) : (o.put key v).All P := by
  intro k w hw
  rw [refs_put, Table.get?_set] at hw
  split at hw
  · rename_i hk
    cases hw
    exact hk ▸ hv
  · exact h k w hw

theorem All.receive (h : o.All P) {rs : List (Removal (Shared α))}
    (hrs : ∀ r ∈ rs, P r.key r.value) : (o.receive rs).All P := by
  induction rs generalizing o with
  | nil => exact h
  | cons r rs ih =>
    rw [receive_cons]
    refine ih ?_ fun r' hr' => hrs r' (List.mem_cons_of_mem r hr')
    split
    · exact h.put (hrs r List.mem_cons_self)
    · exact h

theorem All.remove (h : o.All P) (key : String) : (o.remove key).All P := by
  intro k v hv
  rw [refs_remove, Option.ite_none_left_eq_some] at hv
  exact h k v hv.2

theorem All.keepIf (h : o.All P) (keep : String → Bool) : (o.keepIf keep).All P := by
  intro k v hv
  rw [refs_keepIf, Option.ite_none_right_eq_some] at hv
  exact h k v hv.2

end Lingering

end TierCache
