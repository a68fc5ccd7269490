import TierCache.Proofs.Disk.Rebuilding

/-!
# Of two copies the later one stays

Records are taken in by their times. The sort is stable and the records that may be evicted come
before the retained ones, so of two copies of one time the retained one comes later. What stays are
the rows that no other copy outdates.
-/
namespace TierCache.Disk

/-- A pair that stands in a list both ways round. -/
theorem not_nodup_of_sublist {α : Type} {a b : α} {l : List α} (h : [a, b].Sublist l)
    (h' : [b, a].Sublist l) : ¬ l.Nodup := by
  induction l with
  | nil => cases h
  | cons c l ih =>
    rw [List.nodup_cons]
    rintro ⟨hc, hn⟩
    cases h with
    | cons _ h =>
      cases h' with
      | cons _ h' => exact ih h h' hn
      | cons_cons _ h' => exact hc (h.subset (by simp))
    | cons_cons _ h =>
      cases h' with
      | cons _ h' => exact hc (h'.subset (by simp))
      | cons_cons _ h' => exact hc (List.singleton_sublist.mp h)

namespace Row

/-- A later copy of the same record; of two copies of one time, the retained one. -/
def Outdates (a b : Row) : Prop :=
  a.digest = b.digest ∧
    (b.time < a.time ∨ b.time = a.time ∧ b.retention = .normal ∧ a.retention = .always)

/-- The order in which records are taken in. -/
def Precedes (a b : Row) : Prop :=
  a.time < b.time ∨ a.time = b.time ∧ (a.retention = .always → b.retention = .always)

theorem not_outdates_self (e : Row) : ¬ e.Outdates e := by
  rintro ⟨-, hlt | ⟨-, hn, ha⟩⟩
  · omega
  · rw [hn] at ha
    cases ha

theorem Precedes.le {a b : Row} (h : a.Precedes b) : a.time ≤ b.time := by
  rcases h with h | ⟨h, -⟩
  · omega
  · omega

theorem Precedes.not_outdates {a b : Row} (h : a.Precedes b) : ¬ a.Outdates b := by
  rintro ⟨-, hlt | ⟨heq, hn, ha⟩⟩
  · rcases h with h | ⟨h, -⟩
    · omega
    · omega
  · rcases h with h | ⟨-, h⟩
    · omega
    · rw [h ha] at hn
      cases hn

/-- Of two copies that are not the same file, the one taken in later outdates the other. -/
theorem Precedes.outdates {a b : Row} (h : a.Precedes b) (hd : a.digest = b.digest)
    (hk : a.key ≠ b.key) : b.Outdates a := by
  refine ⟨hd.symm, ?_⟩
  rcases h with h | ⟨heq, h⟩
  · exact .inl h
  · have hr : a.retention ≠ b.retention := fun hr => hk (by rw [key, key, hd, hr])
    cases ha : a.retention with
    | always => exact absurd (ha.trans (h ha).symm) hr
    | normal =>
      refine .inr ⟨heq, rfl, ?_⟩
      cases hb : b.retention with
      | always => rfl
      | normal => exact absurd (ha.trans hb.symm) hr

end Row

theorem precedes_rowsOf (v : Volume) (root : Path) :
    (rowsOf v root).Pairwise Row.Precedes := by
  have hn : (rowsOf v root).Nodup :=
    List.Pairwise.of_map Row.key (fun _ _ hne he => hne (congrArg Row.key he)) (nodup_rowsOf v root)
  have hsorted := sorted_rowsOf v root
  rw [List.pairwise_iff_forall_sublist] at hsorted ⊢
  intro a b hab
  rcases Int.lt_or_eq_of_le (hsorted hab) with hlt | heq
  · exact .inl hlt
  · refine .inr ⟨heq, fun ha => ?_⟩
    cases hb : b.retention with
    | always => rfl
    | normal =>
      -- the sort has kept them as they were found, which is the other way round
      have found : ∀ e ∈ [a, b], e ∈ rowsIn v root e.retention := by
        intro e he
        have hmem := hab.subset he
        rw [rowsOf, List.mem_mergeSort, List.mem_append] at hmem
        rcases hmem with hmem | hmem
        · exact retention_of_mem_rowsIn hmem ▸ hmem
        · exact retention_of_mem_rowsIn hmem ▸ hmem
      have hfound : [b, a].Sublist (rowsIn v root .normal ++ rowsIn v root .always) :=
        (List.singleton_sublist.mpr (hb ▸ found b (by simp))).append
          (List.singleton_sublist.mpr (ha ▸ found a (by simp)))
      have hba : [b, a].Sublist (rowsOf v root) := by
        refine List.pair_sublist_mergeSort ?_ ?_ (decide_eq_true (Int.le_of_eq heq.symm)) hfound
        · intro a b c hab hbc
          rw [decide_eq_true_eq] at hab hbc ⊢
          omega
        · intro a b
          rw [Bool.or_eq_true, decide_eq_true_eq, decide_eq_true_eq]
          omega
      exact absurd hn (not_nodup_of_sublist hab hba)

namespace Shelf

variable {sh : Shelf} {rows : List Row} {e : Row}

/-- Of the rows that are taken in those stay that are the last of their digest. -/
theorem mem_rows_addAll : e ∈ (sh.addAll rows).rows ↔
    (e ∈ sh.rows ∧ ∀ a ∈ rows, a.digest ≠ e.digest) ∨
      ∃ before after, rows = before ++ e :: after ∧ ∀ a ∈ after, a.digest ≠ e.digest := by
  induction rows generalizing sh with
  | nil =>
    constructor
    · exact fun he => .inl ⟨he, fun a ha => absurd ha List.not_mem_nil⟩
    · rintro (⟨he, -⟩ | ⟨before, after, h, -⟩)
      · exact he
      · simp at h
  | cons b rows ih =>
    refine (@ih (sh.add b)).trans ?_
    rw [mem_rows_add, List.forall_mem_cons]
    constructor
    · rintro (⟨⟨he, hne⟩ | rfl, hall⟩ | ⟨before, after, rfl, hafter⟩)
      · exact .inl ⟨he, Ne.symm hne, hall⟩
      · exact .inr ⟨[], rows, rfl, hall⟩
      · exact .inr ⟨b :: before, after, rfl, hafter⟩
    · rintro (⟨he, hne, hall⟩ | ⟨before, after, h, hafter⟩)
      · exact .inl ⟨.inl ⟨he, Ne.symm hne⟩, hall⟩
      · cases before with
        | nil =>
          cases h
          exact .inl ⟨.inr rfl, hafter⟩
        | cons first before =>
          cases h
          exact .inr ⟨before, after, rfl, hafter⟩

theorem addAll_sublist (sh : Shelf) (rows : List Row) :
    (sh.addAll rows).rows.Sublist (sh.rows ++ rows) := by
  induction rows generalizing sh with
  | nil =>
    rw [List.append_nil]
    exact .refl _
  | cons e rows ih =>
    refine (ih (sh.add e)).trans ?_
    have hadd : (sh.add e).rows.Sublist (sh.rows ++ [e]) := List.filter_sublist.append (.refl _)
    have hrows := hadd.append (.refl rows)
    rwa [List.append_assoc] at hrows

/-- Taken in by their times, the rows stay that no other copy outdates. -/
theorem mem_addAll_latest (hrows : rows.Pairwise Row.Precedes) (hn : (rows.map Row.key).Nodup)
    (hsh : sh.rows = []) :
    e ∈ (sh.addAll rows).rows ↔ e ∈ rows ∧ ∀ a ∈ rows, ¬ a.Outdates e := by
  rw [mem_rows_addAll, hsh]
  constructor
  · rintro (⟨he, -⟩ | ⟨before, after, rfl, hafter⟩)
    · cases he
    · refine ⟨by simp, fun a ha hout => ?_⟩
      rw [List.pairwise_append] at hrows
      rcases List.mem_append.mp ha with hb | ha
      · exact (hrows.2.2 a hb e List.mem_cons_self).not_outdates hout
      · rcases List.mem_cons.mp ha with rfl | ha
        · exact a.not_outdates_self hout
        · exact hafter a ha hout.1
  · rintro ⟨he, hlatest⟩
    obtain ⟨before, after, rfl⟩ := List.append_of_mem he
    refine .inr ⟨before, after, rfl, fun a ha hd => ?_⟩
    rw [List.pairwise_append, List.pairwise_cons] at hrows
    rw [List.map_append, List.map_cons, List.nodup_append, List.nodup_cons] at hn
    have hk : e.key ≠ a.key := fun hk => hn.2.1.1 (List.mem_map.mpr ⟨a, ha, hk.symm⟩)
    exact hlatest a (by simp [ha]) ((hrows.2.1.1 a ha).outdates hd.symm hk)

end Shelf

end TierCache.Disk
