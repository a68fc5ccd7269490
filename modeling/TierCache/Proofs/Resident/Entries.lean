import TierCache.Proofs.Table
import TierCache.Resident

/-!
# What the memory tier holds after each operation

A put is in three parts: the old entry of the key goes, the new one is placed, and then the tier
shrinks to its capacity. All other operations are told by what they leave in the table.
-/
namespace TierCache.Resident

variable {α : Type} {m m' : Resident α}

/-- The tier without its entry of a key, and the report of a replaced value. -/
def displaced (m : Resident α) (key : String) : Resident α × List (Removal α) :=
  match m.take key with
  | some (old, m) => (m, [⟨key, old.value, .replaced⟩])
  | none => (m, [])

/-- The tier with a new entry, before it shrinks. -/
def placed (m : Resident α) (key : String) (value : α) (cost : Nat) : Resident α :=
  { m with
    entries := m.entries.set key ⟨value, cost⟩
    recency := m.recency.touch key
    totalCost := m.totalCost + cost }

theorem put_eq (m : Resident α) (key : String) (value : α) (cost : Nat) :
    m.put key value cost = (addCounts (m.displaced key).1.totalCost cost).map fun _ =>
      (((m.displaced key).1.placed key value cost).shrink.1,
        (m.displaced key).2 ++ ((m.displaced key).1.placed key value cost).shrink.2) := by
  have hp : m.put key value cost = (addCounts (m.displaced key).1.totalCost cost).map fun total =>
      ((shrink { (m.displaced key).1.placed key value cost with totalCost := total }).1,
        (m.displaced key).2 ++
          (shrink { (m.displaced key).1.placed key value cost with totalCost := total }).2) := rfl
  rw [hp, addCounts]
  split
  · rfl
  · rfl

theorem put_ok {key : String} {value : α} {cost : Nat} {removed : List (Removal α)}
    (h : m.put key value cost = .ok (m', removed)) :
    m' = ((m.displaced key).1.placed key value cost).shrink.1 ∧
      removed = (m.displaced key).2 ++ ((m.displaced key).1.placed key value cost).shrink.2 := by
  rw [put_eq] at h
  cases hc : addCounts (m.displaced key).1.totalCost cost with
  | error fault =>
    rw [hc] at h
    cases h
  | ok total =>
    rw [hc] at h
    cases h
    exact ⟨rfl, rfl⟩

@[simp] theorem entries_displaced (m : Resident α) (key k : String) :
    (m.displaced key).1.entries.get? k = if k = key then none else m.entries.get? k := by
  unfold displaced take
  cases hm : m.entries.get? key with
  | some e => exact Table.get?_erase m.entries key k
  | none =>
    simp only [Option.map_none]
    split
    · rename_i hk
      rw [hk, hm]
    · rfl

theorem mem_displaced {key : String} {r : Removal α} (h : r ∈ (m.displaced key).2) :
    r.key = key ∧ r.cause = .replaced ∧ ∃ e, m.entries.get? key = some e ∧ e.value = r.value := by
  unfold displaced take at h
  cases hm : m.entries.get? key with
  | some e =>
    rw [hm] at h
    rw [List.mem_singleton.mp h]
    exact ⟨rfl, rfl, e, rfl, rfl⟩
  | none =>
    rw [hm] at h
    cases h

@[simp] theorem entries_placed (m : Resident α) (key : String) (value : α) (cost : Nat) :
    (m.placed key value cost).entries = m.entries.set key ⟨value, cost⟩ := rfl

@[simp] theorem entries_get (m : Resident α) (key : String) :
    (m.get key).2.entries = m.entries := by
  rw [get]
  split
  · rfl
  · rfl

theorem entry_of_get {key : String} {a : α} (h : (m.get key).1 = some a) :
    ∃ e, m.entries.get? key = some e ∧ e.value = a := by
  rw [get] at h
  split at h
  · rename_i e he
    cases h
    exact ⟨e, he, rfl⟩
  · cases h

theorem none_of_get {key : String} (h : (m.get key).1 = none) : m.entries.get? key = none := by
  rw [get] at h
  split at h
  · cases h
  · assumption

theorem fst_remove (m : Resident α) (key : String) : (m.remove key).1 = (m.displaced key).1 := by
  unfold remove displaced
  cases m.take key <;> rfl

@[simp] theorem entries_remove (m : Resident α) (key k : String) :
    (m.remove key).1.entries.get? k = if k = key then none else m.entries.get? k := by
  rw [fst_remove, entries_displaced]

/-- Removes keys one after the other. -/
def removeEach (m : Resident α) : List String → Resident α × List (Removal α)
  | [] => (m, [])
  | key :: keys =>
    (((m.remove key).1.removeEach keys).1, (m.remove key).2 ++ ((m.remove key).1.removeEach keys).2)

theorem keepIf_eq (m : Resident α) (keep : String → Bool) :
    m.keepIf keep = m.removeEach (m.entries.keys.filter fun k => !keep k) := by
  have folded : ∀ (keys : List String) (m : Resident α) (rs : List (Removal α)),
      keys.foldl (fun p key => ((p.1.remove key).1, p.2 ++ (p.1.remove key).2)) (m, rs) =
        ((m.removeEach keys).1, rs ++ (m.removeEach keys).2) := by
    intro keys
    induction keys with
    | nil => exact fun m rs => by rw [List.foldl_nil, removeEach, List.append_nil]
    | cons key keys ih =>
      intro m rs
      rw [List.foldl_cons, ih, removeEach, List.append_assoc]
  exact (folded _ m []).trans (by rw [List.nil_append])

@[simp] theorem entries_removeEach (m : Resident α) (keys : List String) (k : String) :
    (m.removeEach keys).1.entries.get? k = if k ∈ keys then none else m.entries.get? k := by
  induction keys generalizing m with
  | nil => rfl
  | cons key keys ih =>
    rw [removeEach, ih, entries_remove]
    by_cases hk : k = key
    · simp [hk]
    · simp [hk]

@[simp] theorem entries_keepIf (m : Resident α) (keep : String → Bool) (k : String) :
    (m.keepIf keep).1.entries.get? k = if keep k then m.entries.get? k else none := by
  rw [keepIf_eq, entries_removeEach]
  simp only [List.mem_filter, Bool.not_eq_true']
  cases hk : keep k with
  | true => simp
  | false =>
    simp only [and_true, Bool.false_eq_true, if_false, ite_eq_left_iff]
    exact Table.not_mem_keys_iff.mp

/-- What is removed by a call is not counted as evicted. -/
theorem counters_keepIf (m : Resident α) (keep : String → Bool) :
    (m.keepIf keep).1.hits = m.hits ∧ (m.keepIf keep).1.misses = m.misses ∧
      (m.keepIf keep).1.evictions = m.evictions := by
  have each : ∀ (keys : List String) (m : Resident α), (m.removeEach keys).1.hits = m.hits ∧
      (m.removeEach keys).1.misses = m.misses ∧ (m.removeEach keys).1.evictions = m.evictions := by
    intro keys
    induction keys with
    | nil => exact fun m => ⟨rfl, rfl, rfl⟩
    | cons key keys ih =>
      intro m
      have hone : (m.remove key).1.hits = m.hits ∧ (m.remove key).1.misses = m.misses ∧
          (m.remove key).1.evictions = m.evictions := by
        unfold remove take
        cases m.entries.get? key <;> exact ⟨rfl, rfl, rfl⟩
      obtain ⟨hhits, hmisses, hevictions⟩ := ih (m.remove key).1
      exact ⟨hhits.trans hone.1, hmisses.trans hone.2.1, hevictions.trans hone.2.2⟩
  rw [keepIf_eq]
  exact each _ m

/-- What is removed by a call is not an eviction. -/
theorem not_isEviction_remove (m : Resident α) (key : String) :
    ∀ r ∈ (m.remove key).2, r.cause.isEviction = false := by
  unfold remove take
  cases m.entries.get? key with
  | none => exact List.forall_mem_nil _
  | some e => exact List.forall_mem_singleton.mpr rfl

theorem not_isEviction_keepIf (m : Resident α) (keep : String → Bool) :
    ∀ r ∈ (m.keepIf keep).2, r.cause.isEviction = false := by
  have each : ∀ (keys : List String) (m : Resident α),
      ∀ r ∈ (m.removeEach keys).2, r.cause.isEviction = false := by
    intro keys
    induction keys with
    | nil => exact fun m => List.forall_mem_nil _
    | cons key keys ih =>
      exact fun m => List.forall_mem_append.mpr ⟨m.not_isEviction_remove key, ih _⟩
  rw [keepIf_eq]
  exact each _ m

/-- What was removed once is not there to be removed again. -/
theorem keepIf_again (m : Resident α) (keep : String → Bool) :
    (m.keepIf keep).1.keepIf keep = ((m.keepIf keep).1, []) := by
  have hnone : ((m.keepIf keep).1.entries.keys.filter fun k => !keep k) = [] := by
    refine List.filter_eq_nil_iff.mpr fun k hk => ?_
    obtain ⟨e, he⟩ := Table.mem_keys_iff.mp hk
    rw [entries_keepIf, Option.ite_none_right_eq_some] at he
    rw [he.1]
    decide
  rw [keepIf, hnone]
  rfl

/-- The look-ups that the tier has counted, with and without success. -/
def lookups (m : Resident α) : Nat × Nat := (m.hits, m.misses)

@[simp] theorem lookups_shrinkRounds (n : Nat) (m : Resident α) :
    (m.shrinkRounds n).1.lookups = m.lookups := by
  induction n generalizing m with
  | zero => rfl
  | succ n ih =>
    rw [shrinkRounds]
    split
    · rfl
    · split
      · rfl
      · rename_i key recency _
        split
        · exact ih { m with recency }
        · exact ih _

@[simp] theorem lookups_displaced (m : Resident α) (key : String) :
    (m.displaced key).1.lookups = m.lookups := by
  unfold displaced take
  cases m.entries.get? key <;> rfl

theorem lookups_put {key : String} {value : α} {cost : Nat} {removed : List (Removal α)}
    (h : m.put key value cost = .ok (m', removed)) : m'.lookups = m.lookups := by
  rw [(put_ok h).1, shrink, lookups_shrinkRounds]
  exact m.lookups_displaced key

@[simp] theorem lookups_keepIf (m : Resident α) (keep : String → Bool) :
    (m.keepIf keep).1.lookups = m.lookups := by
  obtain ⟨hhits, hmisses, -⟩ := m.counters_keepIf keep
  exact Prod.ext hhits hmisses

theorem lookups_of_some {key : String} {value : α} (h : (m.get key).1 = some value) :
    (m.get key).2.lookups = (m.hits + 1, m.misses) := by
  obtain ⟨e, he, -⟩ := entry_of_get h
  rw [get, he]
  rfl

theorem get_of_none {key : String} (h : (m.get key).1 = none) :
    (m.get key).2 = { m with misses := m.misses + 1 } := by
  rw [get, none_of_get h]

@[simp] theorem totalCost_get (m : Resident α) (key : String) :
    (m.get key).2.totalCost = m.totalCost := by
  rw [get]
  split
  · rfl
  · rfl

theorem totalCost_displaced_le (m : Resident α) (key : String) :
    (m.displaced key).1.totalCost ≤ m.totalCost := by
  unfold displaced take
  cases m.entries.get? key with
  | some e => exact Nat.sub_le _ _
  | none => exact Nat.le_refl _

theorem totalCost_keepIf_le (m : Resident α) (keep : String → Bool) :
    (m.keepIf keep).1.totalCost ≤ m.totalCost := by
  have each : ∀ (keys : List String) (m : Resident α),
      (m.removeEach keys).1.totalCost ≤ m.totalCost := by
    intro keys
    induction keys with
    | nil => exact fun m => Nat.le_refl _
    | cons key keys ih =>
      intro m
      rw [removeEach, fst_remove]
      exact Nat.le_trans (ih _) (m.totalCost_displaced_le key)
  rw [keepIf_eq]
  exact each _ m

/-- A put does not fail while the costs add up. -/
theorem put_of_lt (m : Resident α) (key : String) (value : α) {cost : Nat}
    (h : m.totalCost + cost < UInt64.size) : ∃ r, m.put key value cost = .ok r := by
  have hfits : (m.displaced key).1.totalCost + cost < UInt64.size :=
    Nat.lt_of_le_of_lt (Nat.add_le_add_right (m.totalCost_displaced_le key) cost) h
  rw [put_eq, addCounts_eq_ok_iff.mpr ⟨hfits, rfl⟩]
  exact ⟨_, rfl⟩

/-- A put that adds up under a total cost adds up under a lower one. -/
theorem put_of_le {n : Resident α} {key : String} {value : α} {cost : Nat}
    {removed : List (Removal α)} (h : m.put key value cost = .ok (m', removed))
    (hm : m.entries.get? key = none) (hle : n.totalCost ≤ m.totalCost) :
    ∃ r, n.put key value cost = .ok r := by
  have unheld : (m.displaced key).1 = m := by
    rw [displaced, take, hm]
    rfl
  rw [put_eq, unheld] at h
  cases hc : addCounts m.totalCost cost with
  | error fault =>
    rw [hc] at h
    cases h
  | ok total =>
    exact n.put_of_lt key value
      (Nat.lt_of_le_of_lt (Nat.add_le_add_right hle _) (addCounts_eq_ok_iff.mp hc).1)

end TierCache.Resident
