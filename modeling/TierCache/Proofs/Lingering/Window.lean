import TierCache.Proofs.Cache.Ownership
import TierCache.Proofs.Recency

/-!
# The window of the overflow tier as a queue

The window and its order of use stand for one queue of values under their keys, oldest first, in
which no key occurs twice. A put takes the value of its key out of the queue, appends the new one
and drops from the front what is beyond the size of the window. A removal takes its keys out, and
nothing else changes the queue.
-/
namespace TierCache

variable {α : Type}

/-- The newest `n` of a queue. -/
def newest {β : Type} (n : Nat) (q : List β) : List β := q.drop (q.length - n)

theorem newest_of_le {β : Type} {n : Nat} {q : List β} (h : q.length ≤ n) : newest n q = q := by
  rw [newest, Nat.sub_eq_zero_of_le h, List.drop_zero]

theorem newest_cons {β : Type} {n : Nat} {b : β} {q : List β} (h : n < (b :: q).length) :
    newest n (b :: q) = newest n q := by
  rw [List.length_cons] at h
  rw [newest, newest, List.length_cons, Nat.succ_sub (Nat.le_of_lt_succ h), List.drop_succ_cons]

theorem length_newest_le {β : Type} (n : Nat) (q : List β) : (newest n q).length ≤ n := by
  rw [newest, List.length_drop]
  omega

theorem newest_sublist {β : Type} (n : Nat) (q : List β) : (newest n q).Sublist q :=
  List.drop_sublist _ _

namespace Lingering

/-- The queue without the keys that are rejected. -/
def restrict (keep : String → Bool) (q : List (String × Shared α)) : List (String × Shared α) :=
  q.filter fun p => keep p.1

/-- The queue after a put into a window of size `n`. -/
def enqueue (n : Nat) (q : List (String × Shared α)) (key : String) (v : Shared α) :
    List (String × Shared α) :=
  newest n (restrict (· ≠ key) q ++ [(key, v)])

@[simp] theorem map_fst_restrict (keep : String → Bool) (q : List (String × Shared α)) :
    (restrict keep q).map Prod.fst = (q.map Prod.fst).filter keep := by
  rw [restrict, List.filter_map]
  rfl

@[simp] theorem mem_restrict {keep : String → Bool} {q : List (String × Shared α)} {key : String}
    {v : Shared α} : (key, v) ∈ restrict keep q ↔ (key, v) ∈ q ∧ keep key := List.mem_filter

theorem restrict_sublist (keep : String → Bool) (q : List (String × Shared α)) :
    (restrict keep q).Sublist q := List.filter_sublist

theorem mem_enqueue {n : Nat} {q : List (String × Shared α)} {key k : String} {v w : Shared α}
    (h : (k, w) ∈ enqueue n q key v) : (k, w) ∈ q ∧ k ≠ key ∨ k = key ∧ w = v := by
  rcases List.mem_append.mp ((newest_sublist n _).subset h) with hold | hnew
  · obtain ⟨hmem, hne⟩ := mem_restrict.mp hold
    exact .inl ⟨hmem, of_decide_eq_true hne⟩
  · cases List.mem_singleton.mp hnew
    exact .inr ⟨rfl, rfl⟩

/-- The queue that the window and its order stand for. -/
structure Queued (q : List (String × Shared α)) (o : Lingering α) : Prop where
  nodup : (q.map Prod.fst).Nodup
  valid : o.order.Valid
  order : o.order.toList = q.map Prod.fst
  found : ∀ k v, o.window.get? k = some v ↔ (k, v) ∈ q

namespace Queued

variable {q : List (String × Shared α)} {o o' : Lingering α} {key : String} {v : Shared α}

theorem empty (n : Nat) : Queued [] (Lingering.empty n : Lingering α) :=
  ⟨List.nodup_nil, .empty, rfl, by simp [Lingering.empty]⟩

theorem congr (h : Queued q o) (hw : o'.window = o.window) (ho : o'.order = o.order) :
    Queued q o' :=
  ⟨h.nodup, ho ▸ h.valid, ho ▸ h.order, hw ▸ h.found⟩

theorem perm (h : Queued q o) : o.window.pairs.Perm q := by
  have hq : q.Nodup := List.Pairwise.of_map Prod.fst (fun _ _ hne he => hne (congrArg _ he)) h.nodup
  refine (List.perm_ext_iff_of_nodup o.window.nodup_pairs hq).mpr fun p => ?_
  exact Table.get?_eq_some_iff.symm.trans (h.found p.1 p.2)

theorem size (h : Queued q o) : o.window.size = q.length := h.perm.length_eq

theorem mem_keys (h : Queued q o) {k : String} : k ∈ o.window.keys ↔ k ∈ o.order.toList := by
  rw [h.order]
  exact (h.perm.map Prod.fst).mem_iff

theorem length_order (h : Queued q o) : o.order.order.length = q.length := by
  have hlen := congrArg List.length h.order
  rwa [List.length_map, Recency.toList, List.length_map] at hlen

/-- A key is taken out of the window and out of the order, in whatever way. -/
theorem without (h : Queued q o) (hw : o'.window = o.window.erase key) (hv : o'.order.Valid)
    (ho : o'.order.toList = o.order.toList.filter (· ≠ key)) :
    Queued (restrict (· ≠ key) q) o' := by
  refine ⟨h.nodup.sublist ((restrict_sublist _ q).map _), hv, ?_, fun k w => ?_⟩
  · rw [ho, h.order, map_fst_restrict]
  · rw [hw, Table.get?_erase, mem_restrict, Option.ite_none_left_eq_some, h.found,
      decide_eq_true_eq]
    exact And.comm

theorem remove (h : Queued q o) (key : String) : Queued (restrict (· ≠ key) q) (o.remove key) :=
  h.without rfl (h.valid.erase key) (h.valid.toList_erase key)

theorem removeEach (h : Queued q o) (keys : List String) :
    Queued (restrict (· ∉ keys) q) (keys.foldl Lingering.remove o) := by
  induction keys generalizing q o with
  | nil =>
    rw [restrict, List.filter_eq_self.mpr fun p _ => decide_eq_true List.not_mem_nil]
    exact h
  | cons key keys ih =>
    have hrest := ih (h.remove key)
    have heq : restrict (· ∉ keys) (restrict (· ≠ key) q) = restrict (· ∉ key :: keys) q := by
      rw [restrict, restrict, restrict, List.filter_filter]
      refine List.filter_congr fun p _ => ?_
      simp only [List.mem_cons, not_or, Bool.decide_and]
      exact Bool.and_comm _ _
    rwa [heq] at hrest

/-- The window has no keys that are not tracked, so none is passed over. -/
theorem keepIf (h : Queued q o) (hrefs : ∀ p ∈ q, p.1 ∈ o.refs.keys) (keep : String → Bool) :
    Queued (restrict keep q) (o.keepIf keep) := by
  have hall := h.removeEach (o.refs.keys.filter fun k => !keep k)
  have heq : restrict (· ∉ o.refs.keys.filter fun k => !keep k) q = restrict keep q := by
    refine List.filter_congr fun p hp => ?_
    rw [Bool.eq_iff_iff]
    simp [hrefs p hp]
  rwa [heq] at hall

theorem dropWindow (o : Lingering α) : Queued [] o.dropWindow :=
  ⟨List.nodup_nil, .clear _, rfl, by simp [Lingering.dropWindow]⟩

theorem clear (o : Lingering α) : Queued [] o.clear :=
  ⟨List.nodup_nil, .clear _, rfl, by simp [Lingering.clear]⟩

theorem narrowRounds (h : Queued q o) {n : Nat} (hn : q.length ≤ n) :
    Queued (newest o.windowSize q) (narrowRounds n o) := by
  induction n generalizing q o with
  | zero =>
    rw [newest_of_le (Nat.le_trans hn (Nat.zero_le _))]
    exact h
  | succ n ih =>
    rw [Lingering.narrowRounds]
    split
    · rename_i hfits
      rw [newest_of_le (h.size ▸ hfits)]
      exact h
    · rename_i habove
      rw [h.size] at habove
      cases q with
      | nil => exact absurd (Nat.zero_le _) habove
      | cons p q =>
        have hpop : o.order.popOldest.1 = some p.1 := by
          rw [Recency.fst_popOldest, h.order]
          rfl
        obtain ⟨hvalid, hlist⟩ := h.valid.popOldest_eq hpop
        split
        · rename_i hnone
          rw [hnone] at hpop
          cases hpop
        · rename_i key order hsome
          rw [hsome] at hpop hvalid hlist
          cases hpop
          have hfirst : restrict (· ≠ p.1) (p :: q) = q := by
            have hk := h.nodup
            rw [List.map_cons, List.nodup_cons] at hk
            rw [restrict, List.filter_cons_of_neg (by simp), List.filter_eq_self]
            intro p' hp'
            rw [decide_eq_true_eq]
            exact fun he => hk.1 (List.mem_map.mpr ⟨p', hp', he⟩)
          rw [newest_cons (Nat.lt_of_not_le habove)]
          have hrest : Queued (restrict (· ≠ p.1) (p :: q))
            { o with window := o.window.erase p.1, order } := h.without rfl hvalid hlist
          rw [hfirst] at hrest
          exact ih hrest (Nat.le_of_succ_le_succ hn)

/-- The value is appended to the queue before the window is narrowed. -/
theorem touched (h : Queued q o) (key : String) (v : Shared α) :
    Queued (restrict (· ≠ key) q ++ [(key, v)])
      { o with
        refs := o.refs.set key v
        window := o.window.set key v
        order := o.order.touch key } := by
  refine ⟨?_, h.valid.touch key, ?_, fun k w => ?_⟩
  · rw [List.map_append, map_fst_restrict, List.nodup_append]
    refine ⟨h.nodup.filter _, by simp, fun k hk k' hk' he => ?_⟩
    cases List.mem_singleton.mp hk'
    exact of_decide_eq_true (List.mem_filter.mp hk).2 he
  · rw [h.valid.toList_touch, List.map_append, map_fst_restrict, h.order]
    rfl
  · rw [Table.get?_set, List.mem_append, mem_restrict, List.mem_singleton, Prod.mk.injEq,
      decide_eq_true_eq]
    by_cases hk : k = key
    · simp [hk, eq_comm]
    · simp [hk, h.found]

theorem put (h : Queued q o) (hq : q.length ≤ o.windowSize) (key : String) (v : Shared α) :
    Queued (enqueue o.windowSize q key v) (o.put key v) := by
  rw [Lingering.put]
  simp only
  split
  · rename_i hzero
    rw [hzero] at hq ⊢
    rw [enqueue, List.eq_nil_of_length_eq_zero (Nat.le_zero.mp (length_newest_le 0 _))]
    rw [List.eq_nil_of_length_eq_zero (Nat.le_zero.mp hq)] at h
    exact h.congr rfl rfl
  · have htouched := h.touched key v
    exact htouched.narrowRounds (Nat.le_of_eq htouched.length_order.symm)

end Queued

end Lingering

end TierCache
