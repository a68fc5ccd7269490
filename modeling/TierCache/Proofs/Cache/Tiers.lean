import TierCache.Cache
import TierCache.Proofs.Resident.Entries

/-!
# What the two tiers in memory show

The overflow tier may still know an old value of a key whose new value is in memory. A look-up sees
the value in memory, and that of the overflow tier only where memory has none. Seen this way the
two tiers are one map: a put sets its key and no other, whatever memory drops for it, because what
memory drops takes the place of what the overflow tier knew.
-/
namespace TierCache

variable {α : Type} {m m' : Resident (Shared α)} {o : Lingering α}

/-- The value that a look-up in memory, and then in the overflow tier, comes upon. -/
def shown (m : Resident (Shared α)) (o : Lingering α) (k : String) : Option α :=
  match m.entries.get? k with
  | some e => some e.value.value
  | none => (o.refs.get? k).map Shared.value

theorem shown_of_entry {k : String} {e : Resident.Entry (Shared α)}
    (h : m.entries.get? k = some e) : shown m o k = some e.value.value := by
  rw [shown, h]

theorem shown_of_none {k : String} (h : m.entries.get? k = none) :
    shown m o k = (o.refs.get? k).map Shared.value := by
  rw [shown, h]

theorem shown_congr {o' : Lingering α} {k : String}
    (hm : m'.entries.get? k = m.entries.get? k) (ho : o'.refs.get? k = o.refs.get? k) :
    shown m' o' k = shown m o k := by
  rw [shown, hm, ho, shown]

namespace Lingering

theorem refs_narrowRounds (n : Nat) (o : Lingering α) : (narrowRounds n o).refs = o.refs := by
  induction n generalizing o with
  | zero => rfl
  | succ n ih =>
    rw [narrowRounds]
    split
    · rfl
    · split
      · rfl
      · rw [ih]

@[simp] theorem refs_put (o : Lingering α) (key : String) (v : Shared α) :
    (o.put key v).refs = o.refs.set key v := by
  rw [put]
  simp only
  split
  · rfl
  · rw [narrow, refs_narrowRounds]

@[simp] theorem receive_cons (o : Lingering α) (r : Removal (Shared α))
    (rs : List (Removal (Shared α))) :
    o.receive (r :: rs) = (if r.cause.isEviction then o.put r.key r.value else o).receive rs := rfl

theorem receive_append (o : Lingering α) (rs rs' : List (Removal (Shared α))) :
    o.receive (rs ++ rs') = (o.receive rs).receive rs' := by
  rw [receive, List.foldl_append]
  rfl

/-- What the tier takes over is put into it, one value after the other. -/
theorem receive_eq_foldl (o : Lingering α) (rs : List (Removal (Shared α))) :
    o.receive rs =
      (rs.filter fun r => r.cause.isEviction).foldl (fun o r => o.put r.key r.value) o :=
  List.foldl_filter.symm

/-- What was replaced or removed is not taken in. -/
theorem receive_eq_self (o : Lingering α) {rs : List (Removal (Shared α))}
    (h : ∀ r ∈ rs, r.cause.isEviction = false) : o.receive rs = o := by
  induction rs with
  | nil => rfl
  | cons r rs ih =>
    rw [receive_cons, h r List.mem_cons_self]
    exact ih fun r' hr' => h r' (List.mem_cons_of_mem r hr')

theorem refs_of_get {inUse : Nat → Bool} {key : String} {v : Shared α}
    (h : (o.get inUse key).1 = some v) : o.refs.get? key = some v := by
  rw [get] at h
  split at h
  · cases h
  · rename_i w hw
    split at h
    · cases h
      exact hw
    · cases h

theorem refs_get {inUse : Nat → Bool} {key k : String} {v : Shared α}
    (h : (o.get inUse key).2.refs.get? k = some v) : o.refs.get? k = some v := by
  rw [get] at h
  split at h
  · exact h
  · split at h
    · exact h
    · rw [Table.get?_erase, Option.ite_none_left_eq_some] at h
      exact h.2

theorem refs_forgetDead {inUse : Nat → Bool} {k : String} {v : Shared α}
    (h : (o.forgetDead inUse).2.refs.get? k = some v) : o.refs.get? k = some v := by
  simp only [forgetDead, Table.get?_filter, Option.filter_eq_some_iff] at h
  exact h.1

@[simp] theorem refs_remove (o : Lingering α) (key k : String) :
    (o.remove key).refs.get? k = if k = key then none else o.refs.get? k := by
  rw [remove, Table.get?_erase]

@[simp] theorem refs_keepIf (o : Lingering α) (keep : String → Bool) (k : String) :
    (o.keepIf keep).refs.get? k = if keep k then o.refs.get? k else none := by
  have removed : ∀ (keys : List String) (o : Lingering α),
      (keys.foldl remove o).refs.get? k = if k ∈ keys then none else o.refs.get? k := by
    intro keys
    induction keys with
    | nil => exact fun o => rfl
    | cons key keys ih =>
      intro o
      rw [List.foldl_cons, ih, refs_remove]
      by_cases hk : k = key
      · simp [hk]
      · simp [hk]
  rw [keepIf, removed]
  simp only [List.mem_filter, Bool.not_eq_true']
  cases hk : keep k with
  | true => simp
  | false =>
    simp only [and_true, Bool.false_eq_true, if_false, ite_eq_left_iff]
    exact Table.not_mem_keys_iff.mp

end Lingering

theorem shown_shrinkRounds (n : Nat) (m : Resident (Shared α)) (o : Lingering α) (k : String) :
    shown (m.shrinkRounds n).1 (o.receive (m.shrinkRounds n).2) k = shown m o k := by
  induction n generalizing m o with
  | zero => rfl
  | succ n ih =>
    rw [Resident.shrinkRounds]
    split
    · rfl
    · split
      · rfl
      · rename_i key recency _
        split
        · exact ih { m with recency } o
        · rename_i e he
          simp only
          rw [Lingering.receive_cons, ih]
          -- the entry that goes is what the overflow tier is told
          by_cases hk : k = key
          · subst hk
            rw [shown_of_entry he, shown_of_none (by simp)]
            simp [Cause.isEviction]
          · exact shown_congr (by simp [hk]) (by simp [Cause.isEviction, hk])

theorem shown_resize (m : Resident (Shared α)) (o : Lingering α) (capacity : Nat) (k : String) :
    shown (m.resize capacity).1 (o.receive (m.resize capacity).2) k = shown m o k :=
  shown_shrinkRounds _ { m with capacity } o k

/-- A put sets its key, and shows all others as before. -/
theorem shown_put {key : String} {v : Shared α} {cost : Nat} {removed : List (Removal (Shared α))}
    (h : m.put key v cost = .ok (m', removed)) (o : Lingering α) (k : String) :
    shown m' (o.receive removed) k = if k = key then some v.value else shown m o k := by
  obtain ⟨rfl, rfl⟩ := Resident.put_ok h
  have hdisplaced : o.receive (m.displaced key).2 = o :=
    o.receive_eq_self fun r hr => by simp [(Resident.mem_displaced hr).2.1, Cause.isEviction]
  rw [Lingering.receive_append, hdisplaced, Resident.shrink, shown_shrinkRounds]
  split
  · rename_i hk
    rw [hk, shown_of_entry (e := ⟨v, cost⟩) (by simp)]
  · rename_i hk
    exact shown_congr (by simp [hk]) rfl

theorem shown_remove (m : Resident (Shared α)) (o : Lingering α) (key k : String) :
    shown (m.remove key).1 (o.remove key) k = if k = key then none else shown m o k := by
  rw [shown, m.entries_remove, o.refs_remove]
  by_cases hk : k = key
  · simp only [if_pos hk, Option.map_none]
  · simp only [if_neg hk]
    rfl

theorem shown_keepIf (m : Resident (Shared α)) (o : Lingering α) (keep : String → Bool)
    (k : String) :
    shown (m.keepIf keep).1 (o.keepIf keep) k = if keep k then shown m o k else none := by
  rw [shown, m.entries_keepIf, o.refs_keepIf]
  by_cases hk : keep k = true
  · simp only [if_pos hk]
    rfl
  · simp only [if_neg hk, Option.map_none]

@[simp] theorem shown_clear (m : Resident (Shared α)) (o : Lingering α) (k : String) :
    shown m.clear.1 o.clear k = none := rfl

/-- A write leaves memory alone. -/
theorem Cache.tiers_writeRecord (c : Cache α) (key : String) (x : α) (f : Family) (r : Retention) :
    (c.writeRecord key x f r).kind = c.kind ∧ (c.writeRecord key x f r).memory = c.memory ∧
      (c.writeRecord key x f r).overflow = c.overflow ∧
      (c.writeRecord key x f r).nextId = c.nextId := by
  rw [writeRecord]
  split
  · exact ⟨rfl, rfl, rfl, rfl⟩
  · simp only
    split
    · exact ⟨rfl, rfl, rfl, rfl⟩
    · exact ⟨rfl, rfl, rfl, rfl⟩

/-- A put does not fail while the costs in memory add up. -/
theorem Cache.put_of_lt (c : Cache α) (key : String) (v : Shared α) (placement : Placement)
    (h : c.memory.totalCost + c.kind.cost v.value < UInt64.size) :
    ∃ c', c.put key v placement = .ok c' := by
  have resident : ∀ c₁ : Cache α, c₁.memory = c.memory →
      ∃ c', c₁.putResident (Key.normalize key) v (c.kind.cost v.value) = .ok c' := by
    intro c₁ hm
    obtain ⟨out, hout⟩ := c.memory.put_of_lt (Key.normalize key) v h
    rw [← hm] at hout
    exact ⟨_, bind_eq_ok_iff.mpr ⟨out, hout, rfl⟩⟩
  cases placement with
  | memory => exact resident c rfl
  | disk family retention =>
    exact resident _ (c.tiers_writeRecord _ v.value family retention).2.1

/-- The overflow tier may forget. -/
theorem shown_of_refs {o' : Lingering α} {k : String} {x : α}
    (ho : ∀ v, o'.refs.get? k = some v → o.refs.get? k = some v)
    (h : shown m o' k = some x) : shown m o k = some x := by
  cases hm : m.entries.get? k with
  | some e =>
    rw [shown_of_entry hm] at h ⊢
    exact h
  | none =>
    rw [shown_of_none hm, Option.map_eq_some_iff] at h ⊢
    obtain ⟨v, hv, rfl⟩ := h
    exact ⟨v, ho v hv, rfl⟩

end TierCache
