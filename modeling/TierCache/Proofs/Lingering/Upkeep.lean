import TierCache.Proofs.Lingering.Liveness

/-!
# The overflow tier in order

In a tier in order the window is a queue within its size, and every key of it is tracked with the
value it has there. So all parts of the tier lose the same keys when it is told which to keep, and
what stays keeps its place.
-/
namespace TierCache.Lingering

variable {α : Type} {o o' : Lingering α} {key : String} {v : Shared α}

/-- The tier without the keys that are rejected. -/
def only (o : Lingering α) (keep : String → Bool) : Lingering α where
  refs := o.refs.filter fun k _ => keep k
  window := o.window.filter fun k _ => keep k
  order := o.order.filter keep
  windowSize := o.windowSize

theorem only_eq_self {keep : String → Bool} (h : ∀ k, keep k = true) : o.only keep = o := by
  have horder : (o.order.order.filter fun e => keep e.2) = o.order.order :=
    List.filter_eq_self.mpr fun e _ => h e.2
  simp only [only, Recency.filter, horder, Table.filter_eq_self fun k _ _ => h k]

theorem only_only (o : Lingering α) (keep keep' : String → Bool) :
    (o.only keep).only keep' = o.only fun k => keep' k && keep k := by
  simp only [only, Recency.filter, Table.filter_filter, List.filter_filter]

theorem remove_eq (h : o.order.Valid) (key : String) : o.remove key = o.only (· ≠ key) := by
  rw [remove, h.erase_eq]
  rfl

theorem removeEach_eq (h : o.order.Valid) (keys : List String) :
    keys.foldl remove o = o.only (· ∉ keys) := by
  induction keys generalizing o with
  | nil => exact (only_eq_self fun k => decide_eq_true List.not_mem_nil).symm
  | cons key keys ih =>
    rw [List.foldl_cons, ih (h.erase key), remove_eq h, only_only]
    congr 1
    funext k
    rw [Bool.eq_iff_iff]
    simp [and_comm]

/-- The window is a queue, and it is tracked. -/
structure Orderly (o : Lingering α) : Prop where
  queued : ∃ q, Queued q o ∧ q.length ≤ o.windowSize
  tracked : ∀ k v, o.window.get? k = some v → o.refs.get? k = some v

theorem isAlive_of_window {k : String} (h : o.window.get? k = some v) (inUse : Nat → Bool) :
    o.isAlive inUse v = true := by
  rw [isAlive, Bool.or_eq_true, List.any_eq_true]
  exact .inr ⟨v, List.mem_map.mpr ⟨(k, v), Table.get?_eq_some_iff.mp h, rfl⟩, decide_eq_true rfl⟩

namespace Orderly

theorem valid (h : o.Orderly) : o.order.Valid :=
  let ⟨_, hq, _⟩ := h.queued
  hq.valid

theorem key_of_window (h : o.Orderly) {k : String} (hk : k ∈ o.window.keys) : k ∈ o.refs.keys := by
  obtain ⟨v, hv⟩ := Table.mem_keys_iff.mp hk
  exact Table.mem_keys_iff.mpr ⟨v, h.tracked k v hv⟩

theorem key_of_order (h : o.Orderly) {tick : Nat} {k : String} (hk : (tick, k) ∈ o.order.order) :
    k ∈ o.refs.keys := by
  obtain ⟨q, hq, -⟩ := h.queued
  exact h.key_of_window (hq.mem_keys.mpr (List.mem_map.mpr ⟨_, hk, rfl⟩))

/-- Only the tracked keys matter. -/
theorem only_congr (h : o.Orderly) {keep keep' : String → Bool}
    (hk : ∀ k ∈ o.refs.keys, keep k = keep' k) : o.only keep = o.only keep' := by
  have hrefs : (o.refs.filter fun k _ => keep k) = o.refs.filter fun k _ => keep' k :=
    Table.filter_congr fun k v hm => hk k (List.mem_map.mpr ⟨_, hm, rfl⟩)
  have hwindow : (o.window.filter fun k _ => keep k) = o.window.filter fun k _ => keep' k :=
    Table.filter_congr fun k v hm => hk k (h.key_of_window (List.mem_map.mpr ⟨_, hm, rfl⟩))
  have hticks : (o.order.ticks.filter fun k _ => keep k) =
      o.order.ticks.filter fun k _ => keep' k :=
    Table.filter_congr fun k tick hm =>
      hk k (h.key_of_order ((h.valid.stamped k tick).mp (Table.get?_eq_some_iff.mpr hm)))
  have horder : (o.order.order.filter fun e => keep e.2) =
      o.order.order.filter fun e => keep' e.2 :=
    List.filter_congr fun e he => hk e.2 (h.key_of_order he)
  simp only [only, Recency.filter, hrefs, hwindow, hticks, horder]

/-- All parts of the tier lose the keys that are rejected, and no others. -/
theorem keepIf_eq (h : o.Orderly) (keep : String → Bool) : o.keepIf keep = o.only keep := by
  rw [Lingering.keepIf, removeEach_eq h.valid]
  refine h.only_congr fun k hk => ?_
  rw [Bool.eq_iff_iff]
  simp [hk]

/-- What was taken out once is not there to be taken out again. -/
theorem keepIf_again (h : o.Orderly) (keep : String → Bool) :
    (o.keepIf keep).keepIf keep = o.keepIf keep := by
  have hnone : ((o.only keep).refs.keys.filter fun k => !keep k) = [] := by
    refine List.filter_eq_nil_iff.mpr fun k hk => ?_
    obtain ⟨e, he, rfl⟩ := List.mem_map.mp hk
    simpa using (List.mem_filter.mp he).2
  rw [h.keepIf_eq, Lingering.keepIf, hnone]
  rfl

theorem empty (n : Nat) : (Lingering.empty n : Lingering α).Orderly :=
  ⟨⟨[], .empty n, Nat.zero_le _⟩, fun k v hv => by cases hv⟩

theorem put (h : o.Orderly) (key : String) (v : Shared α) : (o.put key v).Orderly := by
  obtain ⟨q, hq, hlen⟩ := h.queued
  have hput := hq.put hlen key v
  refine ⟨⟨_, hput, ?_⟩, fun k w hw => ?_⟩
  · rw [windowSize_put]
    exact length_newest_le _ _
  · rw [refs_put, Table.get?_set]
    rcases mem_enqueue ((hput.found k w).mp hw) with ⟨hm, hne⟩ | ⟨rfl, rfl⟩
    · rw [if_neg hne]
      exact h.tracked k w ((hq.found k w).mpr hm)
    · rw [if_pos rfl]

theorem receive (h : o.Orderly) (rs : List (Removal (Shared α))) : (o.receive rs).Orderly := by
  induction rs generalizing o with
  | nil => exact h
  | cons r rs ih =>
    rw [receive_cons]
    split
    · exact ih (h.put r.key r.value)
    · exact ih h

/-- Dead values need not be tracked, since the window has none. -/
theorem forget (h : o.Orderly) (hw : o'.window = o.window ∧ o'.order = o.order ∧
    o'.windowSize = o.windowSize) (inUse : Nat → Bool)
    (hrefs : ∀ k v, o.refs.get? k = some v → o.isAlive inUse v = true → o'.refs.get? k = some v) :
    o'.Orderly := by
  obtain ⟨q, hq, hlen⟩ := h.queued
  obtain ⟨hwindow, horder, hsize⟩ := hw
  refine ⟨⟨q, hq.congr hwindow horder, hsize ▸ hlen⟩, fun k v hv => ?_⟩
  rw [hwindow] at hv
  exact hrefs k v (h.tracked k v hv) (isAlive_of_window hv inUse)

theorem get (h : o.Orderly) (inUse : Nat → Bool) (key : String) : (o.get inUse key).2.Orderly := by
  refine h.forget (window_get o inUse key) inUse fun k v hv halive => ?_
  rw [refs_get_eq, hv, Option.filter_some, if_pos halive, ite_self]

theorem forgetDead (h : o.Orderly) (inUse : Nat → Bool) : (o.forgetDead inUse).2.Orderly := by
  refine h.forget ⟨rfl, rfl, rfl⟩ inUse fun k v hv halive => ?_
  rw [Lingering.forgetDead, Table.get?_filter, hv, Option.filter_some, if_pos halive]

theorem keepIf (h : o.Orderly) (keep : String → Bool) : (o.keepIf keep).Orderly := by
  obtain ⟨q, hq, hlen⟩ := h.queued
  have hkept := hq.keepIf (fun p hp => Table.mem_keys_iff.mpr
    ⟨p.2, h.tracked p.1 p.2 ((hq.found p.1 p.2).mpr hp)⟩) keep
  refine ⟨⟨_, hkept, ?_⟩, fun k v hv => ?_⟩
  · rw [windowSize_keepIf]
    exact Nat.le_trans (restrict_sublist keep q).length_le hlen
  · rw [h.keepIf_eq] at hv ⊢
    simp only [only, Table.get?_filter, Option.filter_eq_some_iff] at hv ⊢
    exact ⟨h.tracked k v hv.1, hv.2⟩

theorem remove (h : o.Orderly) (key : String) : (o.remove key).Orderly := by
  have heq : o.remove key = o.keepIf (· ≠ key) := (remove_eq h.valid key).trans (h.keepIf_eq _).symm
  rw [heq]
  exact h.keepIf _

theorem dropWindow (o : Lingering α) : o.dropWindow.Orderly :=
  ⟨⟨[], .dropWindow o, Nat.zero_le _⟩, fun k v hv => by cases hv⟩

theorem clear (o : Lingering α) : o.clear.Orderly :=
  ⟨⟨[], .clear o, Nat.zero_le _⟩, fun k v hv => by cases hv⟩

end Orderly

end TierCache.Lingering
