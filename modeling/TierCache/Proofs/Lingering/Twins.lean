import TierCache.Proofs.Lingering.Upkeep

/-!
# Overflow tiers that cannot be told apart

Two tiers may track different values that are dead. As long as the dead stay dead no look-up tells
the tiers apart, and whatever is done to both leaves them differing in dead values only.
-/
namespace TierCache.Lingering

variable {α : Type} {o o' : Lingering α}

/-- The same window, while other values are tracked. -/
def tracking (o : Lingering α) (refs : Table String (Shared α)) : Lingering α := { o with refs }

@[simp] theorem refs_tracking (o : Lingering α) (refs : Table String (Shared α)) :
    (o.tracking refs).refs = refs := rfl

theorem narrowRounds_tracking (n : Nat) (o : Lingering α) (refs : Table String (Shared α)) :
    narrowRounds n (o.tracking refs) = (narrowRounds n o).tracking refs := by
  induction n generalizing o with
  | zero => rfl
  | succ n ih =>
    rw [narrowRounds, narrowRounds]
    by_cases hfits : o.window.size ≤ o.windowSize
    · simp only [tracking, hfits, if_true]
    · rcases hpop : o.order.popOldest with ⟨_ | key, order⟩
      · simp only [tracking, hfits, if_false, hpop]
      · simp only [tracking, hfits, if_false, hpop]
        exact ih { o with window := o.window.erase key, order }

/-- What a put makes of the window does not depend on what is tracked. -/
theorem put_tracking (o : Lingering α) (refs : Table String (Shared α)) (key : String)
    (v : Shared α) : (o.tracking refs).put key v = (o.put key v).tracking (refs.set key v) := by
  rw [put, put]
  by_cases hz : o.windowSize = 0
  · simp only [tracking, hz, if_true]
  · simp only [tracking, hz, if_false]
    exact narrowRounds_tracking _ { o with
      refs := o.refs.set key v
      window := o.window.set key v
      order := o.order.touch key } _

theorem get_tracking (o : Lingering α) (inUse : Nat → Bool) (key : String) :
    (o.get inUse key).2 = o.tracking (o.get inUse key).2.refs := by
  rw [get]
  split
  · rfl
  · split <;> rfl

/-- Tiers that differ in nothing but in references to values whose numbers do not count. -/
structure Twins (counts : Nat → Prop) (o o' : Lingering α) : Prop where
  left : o.Orderly
  right : o'.Orderly
  same : o' = o.tracking o'.refs
  refs : ∀ k v, counts v.id → (o'.refs.get? k = some v ↔ o.refs.get? k = some v)

namespace Twins

variable {counts : Nat → Prop}

theorem refl (h : o.Orderly) : Twins counts o o := ⟨h, h, rfl, fun _ _ _ => .rfl⟩

theorem window_eq (h : Twins counts o o') : o'.window = o.window := by
  rw [h.same]
  rfl

theorem put (h : Twins counts o o') (key : String) (v : Shared α) :
    Twins counts (o.put key v) (o'.put key v) := by
  refine ⟨h.left.put key v, h.right.put key v, ?_, fun k w hw => ?_⟩
  · rw [refs_put, ← put_tracking, ← h.same]
  · rw [refs_put, refs_put, Table.get?_set, Table.get?_set]
    split
    · exact .rfl
    · exact h.refs k w hw

theorem receive (h : Twins counts o o') (rs : List (Removal (Shared α))) :
    Twins counts (o.receive rs) (o'.receive rs) := by
  induction rs generalizing o o' with
  | nil => exact h
  | cons r rs ih =>
    rw [receive_cons, receive_cons]
    split
    · exact ih (h.put r.key r.value)
    · exact ih h

theorem isAlive_eq (h : Twins counts o o') (inUse : Nat → Bool) (v : Shared α) :
    o'.isAlive inUse v = o.isAlive inUse v := by
  rw [h.same]
  rfl

/-- The tracked values that are alive are the same, and what is not alive is not found. -/
theorem alive_eq (h : Twins counts o o') {inUse : Nat → Bool}
    (ha : ∀ v, o.isAlive inUse v = true → counts v.id) (k : String) :
    (o'.refs.get? k).filter (o'.isAlive inUse) = (o.refs.get? k).filter (o.isAlive inUse) := by
  refine Option.ext fun v => ?_
  rw [Option.filter_eq_some_iff, Option.filter_eq_some_iff, h.isAlive_eq]
  exact and_congr_left fun hv => h.refs k v (ha v hv)

theorem get (h : Twins counts o o') {inUse : Nat → Bool}
    (ha : ∀ v, o.isAlive inUse v = true → counts v.id) (key : String) :
    (o'.get inUse key).1 = (o.get inUse key).1 ∧
      Twins counts (o.get inUse key).2 (o'.get inUse key).2 := by
  refine ⟨?_, h.left.get inUse key, h.right.get inUse key, ?_, fun k v hv => ?_⟩
  · rw [fst_get, fst_get, h.alive_eq ha]
  · rw [get_tracking o', get_tracking o, h.same]
    rfl
  · rw [refs_get_eq, refs_get_eq, h.alive_eq ha]
    split
    · exact .rfl
    · exact h.refs k v hv

theorem remove (h : Twins counts o o') (key : String) :
    Twins counts (o.remove key) (o'.remove key) := by
  refine ⟨h.left.remove key, h.right.remove key, ?_, fun k v hv => ?_⟩
  · rw [h.same]
    rfl
  · rw [refs_remove, refs_remove]
    split
    · exact .rfl
    · exact h.refs k v hv

/-- The windows have no keys that are not tracked, so the same keys go on both sides. -/
theorem keepIf (h : Twins counts o o') (keep : String → Bool) :
    Twins counts (o.keepIf keep) (o'.keepIf keep) := by
  refine ⟨h.left.keepIf keep, h.right.keepIf keep, ?_, fun k v hv => ?_⟩
  · rw [h.left.keepIf_eq, h.right.keepIf_eq, h.same]
    rfl
  · rw [refs_keepIf, refs_keepIf]
    split
    · exact h.refs k v hv
    · exact .rfl

theorem dropWindow (h : Twins counts o o') : Twins counts o.dropWindow o'.dropWindow := by
  refine ⟨.dropWindow o, .dropWindow o', ?_, h.refs⟩
  rw [h.same]
  rfl

theorem clear (h : Twins counts o o') : Twins counts o.clear o'.clear := by
  refine ⟨.clear o, .clear o', ?_, fun _ _ _ => .rfl⟩
  rw [h.same]
  rfl

theorem forgetDead (h : Twins counts o o') (inUse : Nat → Bool) :
    Twins counts (o.forgetDead inUse).2 (o'.forgetDead inUse).2 := by
  refine ⟨h.left.forgetDead inUse, h.right.forgetDead inUse, ?_, fun k v hv => ?_⟩
  · rw [h.same]
    rfl
  · simp only [Lingering.forgetDead, Table.get?_filter, Option.filter_eq_some_iff, h.isAlive_eq]
    exact and_congr_left fun _ => h.refs k v hv

end Twins

end TierCache.Lingering
