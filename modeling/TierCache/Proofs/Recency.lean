import TierCache.Proofs.Table
import TierCache.Recency

/-!
# The order of use as a list

In a valid order the ticks ascend, stay below the next one, and are found again under their keys.
Every operation keeps an order valid, and its effect on the view is that on a list without
duplicates: a touched key goes to the end, an erased one goes away.
-/
namespace TierCache.Recency

variable {κ : Type}

/-- In ascending order a tick stands for one entry only. -/
theorem eq_of_tick_eq {order : List (Nat × κ)} (h : order.Pairwise fun a b => a.1 < b.1)
    {a b : Nat × κ} (ha : a ∈ order) (hb : b ∈ order) (he : a.1 = b.1) : a = b := by
  refine eq_of_nodup_map (f := Prod.fst) (List.pairwise_map.mpr (h.imp ?_)) ha hb he
  intro a b hlt
  omega

/-- The order without the keys that are rejected. -/
def filter (r : Recency κ) (keep : κ → Bool) : Recency κ where
  ticks := r.ticks.filter fun k _ => keep k
  order := r.order.filter fun e => keep e.2
  nextTick := r.nextTick

variable [DecidableEq κ]

structure Valid (r : Recency κ) : Prop where
  ascending : r.order.Pairwise fun a b => a.1 < b.1
  below : ∀ e ∈ r.order, e.1 < r.nextTick
  stamped : ∀ k tick, r.ticks.get? k = some tick ↔ (tick, k) ∈ r.order

namespace Valid

variable {r : Recency κ}

theorem empty : (Recency.empty : Recency κ).Valid :=
  ⟨List.Pairwise.nil, by simp [Recency.empty], by simp [Recency.empty]⟩

theorem clear (r : Recency κ) : r.clear.Valid :=
  ⟨List.Pairwise.nil, by simp [Recency.clear], by simp [Recency.clear]⟩

theorem nodup (h : r.Valid) : r.toList.Nodup := by
  rw [toList]
  rw [List.Nodup, List.pairwise_map]
  refine h.ascending.imp_of_mem fun {a b} ha hb hlt he => ?_
  have hta : r.ticks.get? a.2 = some a.1 := (h.stamped _ _).mpr ha
  have htb : r.ticks.get? b.2 = some b.1 := (h.stamped _ _).mpr hb
  rw [he, htb] at hta
  have := Option.some.inj hta
  omega

theorem mem_toList (h : r.Valid) {k : κ} : k ∈ r.toList ↔ ∃ tick, r.ticks.get? k = some tick := by
  simp only [toList, List.mem_map, h.stamped]
  constructor
  · rintro ⟨⟨tick, k'⟩, hm, rfl⟩
    exact ⟨tick, hm⟩
  · rintro ⟨tick, hm⟩
    exact ⟨_, hm, rfl⟩

/-- Dropping the tick of a key is dropping the key. -/
theorem dropTick_eq (h : r.Valid) (k : κ) :
    dropTick r.order (r.ticks.get? k) = r.order.filter fun e => e.2 ≠ k := by
  cases ht : r.ticks.get? k with
  | none =>
    rw [dropTick, List.filter_eq_self.mpr]
    intro e he
    rw [decide_eq_true_eq]
    rintro rfl
    rw [(h.stamped e.2 e.1).mpr he] at ht
    cases ht
  | some tick =>
    refine List.filter_congr fun e he => ?_
    have hm := (h.stamped k tick).mp ht
    rw [decide_eq_decide]
    apply not_congr
    constructor
    · exact fun hte => congrArg Prod.snd (eq_of_tick_eq h.ascending he hm hte)
    · intro hk
      have := (h.stamped e.2 e.1).mpr he
      rw [hk, ht] at this
      exact (Option.some.inj this).symm

theorem erase_eq (h : r.Valid) (k : κ) : r.erase k = r.filter (· ≠ k) := by
  rw [Recency.erase, h.dropTick_eq]
  rfl

theorem toList_dropTick (h : r.Valid) (k : κ) :
    (dropTick r.order (r.ticks.get? k)).map Prod.snd = r.toList.filter (· ≠ k) := by
  rw [h.dropTick_eq, toList, List.filter_map]
  rfl

theorem toList_touch (h : r.Valid) (k : κ) :
    (r.touch k).toList = r.toList.filter (· ≠ k) ++ [k] := by
  rw [toList, touch, List.map_append, h.toList_dropTick]
  rfl

theorem toList_erase (h : r.Valid) (k : κ) : (r.erase k).toList = r.toList.filter (· ≠ k) :=
  h.toList_dropTick k

theorem touch (h : r.Valid) (k : κ) : (r.touch k).Valid where
  ascending := by
    simp only [Recency.touch, h.dropTick_eq, List.pairwise_append, List.pairwise_singleton,
      true_and, List.mem_singleton, forall_eq]
    exact ⟨h.ascending.filter _, fun e he => h.below e (List.mem_filter.mp he).1⟩
  below := by
    simp only [Recency.touch, h.dropTick_eq, List.mem_append, List.mem_singleton]
    rintro e (he | rfl)
    · exact Nat.lt_succ_of_lt (h.below e (List.mem_filter.mp he).1)
    · exact Nat.lt_succ_self _
  stamped := by
    intro k' tick
    simp only [Recency.touch, h.dropTick_eq, Table.get?_set, List.mem_append, List.mem_filter,
      List.mem_singleton, Prod.mk.injEq, decide_eq_true_eq]
    by_cases hk : k' = k
    · simp [hk, eq_comm]
    · simp [hk, h.stamped]

theorem erase (h : r.Valid) (k : κ) : (r.erase k).Valid where
  ascending := by
    simp only [Recency.erase, h.dropTick_eq]
    exact h.ascending.filter _
  below := by
    simp only [Recency.erase, h.dropTick_eq]
    exact fun e he => h.below e (List.mem_filter.mp he).1
  stamped := by
    intro k' tick
    simp only [Recency.erase, h.dropTick_eq, Table.get?_erase, List.mem_filter, decide_eq_true_eq]
    by_cases hk : k' = k
    · simp [hk]
    · simp [hk, h.stamped]

/-- The oldest key is popped by erasing it. -/
theorem popOldest_eq (h : r.Valid) {k : κ} (hk : r.popOldest.1 = some k) :
    r.popOldest.2.Valid ∧ r.popOldest.2.toList = r.toList.filter (· ≠ k) := by
  unfold popOldest at hk ⊢
  cases ho : r.order with
  | nil => simp [ho] at hk
  | cons e order =>
    obtain ⟨tick, k'⟩ := e
    simp only [ho, Option.some.injEq] at hk ⊢
    subst hk
    have hn := h.nodup
    have hd : order.filter (fun e => e.2 ≠ k') = order := by
      rw [toList, ho, List.map_cons, List.nodup_cons] at hn
      rw [List.filter_eq_self]
      intro e he
      rw [decide_eq_true_eq]
      rintro rfl
      exact hn.1 (List.mem_map.mpr ⟨e, he, rfl⟩)
    have he := h.erase k'
    have hor : (r.erase k').order = order := by
      rw [Recency.erase, h.dropTick_eq, ho, List.filter_cons_of_neg (by simp), hd]
    refine ⟨⟨hor ▸ he.ascending, hor ▸ he.below, ?_⟩, ?_⟩
    · intro k tick
      rw [← hor]
      exact he.stamped k tick
    · rw [← h.toList_erase, toList, toList, hor]

end Valid

end TierCache.Recency
