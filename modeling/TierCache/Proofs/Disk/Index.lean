import TierCache.Disk.Index
import TierCache.Proofs.Recency
import TierCache.Proofs.Table

/-!
# The index as a list of records

A sound index holds one list, seen from three sides: the records in the order of their use. Each
operation is described by what it does to this list, and the total is the sum of its sizes.
-/
namespace TierCache.Disk.Index

variable {ix : Index} {d d' : Digest} {info : RecordInfo}

/-- The records with their sizes and retentions, least recently used first. -/
def entries (ix : Index) : List (Digest × RecordInfo) :=
  ix.recency.toList.filterMap fun d => (ix.get? d).map fun info => (d, info)

structure Sound (ix : Index) : Prop where
  recency : ix.recency.Valid
  used : ∀ d, d ∈ ix.recency.toList ↔ ∃ info, ix.get? d = some info
  totalSize : ix.totalSize = total (fun p => p.2.size) ix.records.pairs

@[simp] theorem get?_empty (d : Digest) : empty.get? d = none := rfl

@[simp] theorem get?_insert (ix : Index) (d d' : Digest) (info : RecordInfo) :
    (ix.insert d info).get? d' = if d' = d then some info else ix.get? d' :=
  Table.get?_set ix.records d d' info

@[simp] theorem contains_iff : ix.contains d = true ↔ ∃ info, ix.get? d = some info := by
  rw [contains, Table.contains, Option.isSome_iff_exists]
  rfl

@[simp] theorem get?_forget (ix : Index) (d d' : Digest) :
    (ix.forget d).get? d' = if d' = d then none else ix.get? d' := by
  rw [forget]
  split
  · exact Table.get?_erase ix.records d d'
  · rename_i h
    split
    · rename_i he
      subst he
      rw [contains_iff] at h
      exact Option.eq_none_iff_forall_ne_some.mpr (not_exists.mp h)
    · rfl

theorem sizeOf_of_get? (h : ix.get? d = some info) : ix.sizeOf d = info.size := by
  simp [sizeOf, h]

theorem sizeOf_of_none (h : ix.get? d = none) : ix.sizeOf d = 0 := by
  simp [sizeOf, h]

/-- The sizes of the other records. -/
theorem total_erase (ix : Index) (d : Digest) :
    total (fun p => p.2.size) ix.records.pairs =
      ix.sizeOf d + total (fun p => p.2.size) (ix.records.erase d).pairs := by
  cases h : ix.get? d with
  | none => rw [sizeOf_of_none h, Table.erase_of_none h, Nat.zero_add]
  | some info => rw [sizeOf_of_get? h, total_perm _ (Table.perm_erase h), total_cons]

namespace Sound

theorem sizeOf_le (h : ix.Sound) (d : Digest) : ix.sizeOf d ≤ ix.totalSize := by
  rw [h.totalSize, total_erase ix d]
  exact Nat.le_add_right _ _

theorem empty : Index.empty.Sound :=
  ⟨.empty, by simp [Index.empty, Index.get?], rfl⟩

theorem insert (h : ix.Sound) (d : Digest) (info : RecordInfo) : (ix.insert d info).Sound where
  recency := h.recency.touch d
  used := by
    intro d'
    show d' ∈ (ix.recency.touch d).toList ↔ _
    rw [h.recency.toList_touch, get?_insert]
    by_cases hd : d' = d
    · simp [hd]
    · simp [hd, h.used]
  totalSize := by
    show ix.totalSize - ix.sizeOf d + info.size =
      info.size + total (fun p => p.2.size) (ix.records.erase d).pairs
    rw [h.totalSize, total_erase ix d]
    omega

theorem forget (h : ix.Sound) (d : Digest) : (ix.forget d).Sound := by
  rw [Index.forget]
  split
  · refine ⟨h.recency.erase d, fun d' => ?_, ?_⟩
    · show d' ∈ (ix.recency.erase d).toList ↔ ∃ info, (ix.records.erase d).get? d' = some info
      rw [h.recency.toList_erase, Table.get?_erase]
      by_cases hd : d' = d
      · simp [hd]
      · rw [List.mem_filter, h.used, if_neg hd]
        exact and_iff_left (decide_eq_true hd)
    · show ix.totalSize - ix.sizeOf d = total (fun p => p.2.size) (ix.records.erase d).pairs
      rw [h.totalSize, total_erase ix d]
      omega
  · exact h

theorem touch (h : ix.Sound) (hd : ix.get? d = some info) : (ix.touch d).Sound where
  recency := h.recency.touch d
  used := by
    intro d'
    show d' ∈ (ix.recency.touch d).toList ↔ ∃ info, ix.get? d' = some info
    rw [h.recency.toList_touch]
    by_cases he : d' = d
    · simp [he, hd]
    · simp [he, h.used]
  totalSize := h.totalSize

theorem map_fst_entries (h : ix.Sound) : ix.entries.map Prod.fst = ix.recency.toList := by
  have hm : ∀ l : List Digest, (∀ d ∈ l, ∃ info, ix.get? d = some info) →
      (l.filterMap fun d => (ix.get? d).map fun info => (d, info)).map Prod.fst = l := by
    intro l hl
    induction l with
    | nil => rfl
    | cons d l ih =>
      obtain ⟨info, hi⟩ := hl d List.mem_cons_self
      rw [List.filterMap_cons_some (by rw [hi]; rfl), List.map_cons,
        ih fun d' hd' => hl d' (List.mem_cons_of_mem d hd')]
  exact hm _ fun d hd => (h.used d).mp hd

theorem nodup_entries (h : ix.Sound) : (ix.entries.map Prod.fst).Nodup := by
  rw [h.map_fst_entries]
  exact h.recency.nodup

theorem mem_entries (h : ix.Sound) : (d, info) ∈ ix.entries ↔ ix.get? d = some info := by
  simp only [entries, List.mem_filterMap, Option.map_eq_some_iff, Prod.mk.injEq]
  constructor
  · rintro ⟨d', -, info', hi, rfl, rfl⟩
    exact hi
  · exact fun hi => ⟨d, (h.used d).mpr ⟨info, hi⟩, info, hi, rfl, rfl⟩

theorem entries_insert (h : ix.Sound) (d : Digest) (info : RecordInfo) :
    (ix.insert d info).entries = ix.entries.filter (·.1 ≠ d) ++ [(d, info)] := by
  have ht : (ix.insert d info).recency.toList = ix.recency.toList.filter (· ≠ d) ++ [d] :=
    h.recency.toList_touch d
  rw [entries, ht, List.filterMap_append, entries, List.filterMap_filter, List.filter_filterMap]
  congr 1
  · refine congrArg (fun f => List.filterMap f _) (funext fun d' => ?_)
    rw [get?_insert]
    by_cases hd : d' = d
    · cases hg : ix.get? d' <;> simp [hd, Option.filter]
    · cases hg : ix.get? d' <;> simp [hd, Option.filter]
  · simp

theorem entries_forget (h : ix.Sound) (d : Digest) :
    (ix.forget d).entries = ix.entries.filter (·.1 ≠ d) := by
  have ht : (ix.forget d).recency.toList = ix.recency.toList.filter (· ≠ d) := by
    rw [Index.forget]
    split
    · exact h.recency.toList_erase d
    · rename_i hc
      rw [contains_iff, ← h.used] at hc
      exact (List.filter_eq_self.mpr fun d' hd' => by
        rw [decide_eq_true_eq]
        rintro rfl
        exact hc hd').symm
  rw [entries, ht, entries, List.filterMap_filter, List.filter_filterMap]
  refine congrArg (fun f => List.filterMap f _) (funext fun d' => ?_)
  rw [get?_forget]
  by_cases hd : d' = d
  · cases hg : ix.get? d' <;> simp [hd, Option.filter]
  · cases hg : ix.get? d' <;> simp [hd, Option.filter]

theorem entries_touch (h : ix.Sound) (hd : ix.get? d = some info) :
    (ix.touch d).entries = ix.entries.filter (·.1 ≠ d) ++ [(d, info)] := by
  have ht : (ix.touch d).recency.toList = ix.recency.toList.filter (· ≠ d) ++ [d] :=
    h.recency.toList_touch d
  have hg : ∀ d', (ix.touch d).get? d' = ix.get? d' := fun _ => rfl
  rw [entries, ht, List.filterMap_append, entries, List.filterMap_filter, List.filter_filterMap]
  congr 1
  · refine congrArg (fun f => List.filterMap f _) (funext fun d' => ?_)
    rw [hg]
    by_cases he : d' = d
    · cases hg : ix.get? d' <;> simp [he, Option.filter]
    · cases hg : ix.get? d' <;> simp [he, Option.filter]
  · simp [hg, hd]

theorem forgetAll (h : ix.Sound) (ds : List Digest) : (ds.foldl Index.forget ix).Sound := by
  induction ds generalizing ix with
  | nil => exact h
  | cons d ds ih => exact ih (h.forget d)

theorem entries_forgetAll (h : ix.Sound) (ds : List Digest) :
    (ds.foldl Index.forget ix).entries = ix.entries.filter (·.1 ∉ ds) := by
  induction ds generalizing ix with
  | nil => exact (List.filter_eq_self.mpr (by simp)).symm
  | cons d ds ih =>
    rw [List.foldl_cons, ih (h.forget d), h.entries_forget, List.filter_filter]
    refine List.filter_congr fun e _ => ?_
    by_cases he : e.1 = d <;> simp [he]

/-- The records are the same from both sides. -/
theorem perm_entries (h : ix.Sound) : ix.entries.Perm ix.records.pairs := by
  have hn : ix.entries.Nodup :=
    List.Pairwise.of_map Prod.fst (fun _ _ hne he => hne (congrArg Prod.fst he)) h.nodup_entries
  refine (List.perm_ext_iff_of_nodup hn ix.records.nodup_pairs).mpr fun p => ?_
  obtain ⟨d, info⟩ := p
  rw [h.mem_entries, ← Table.get?_eq_some_iff]
  rfl

theorem totalSize_eq (h : ix.Sound) : ix.totalSize = total (fun p => p.2.size) ix.entries := by
  rw [h.totalSize, total_perm _ h.perm_entries]

end Sound

/-- The victims are the first of the row, no fewer than reach the excess and no more. -/
theorem victims_split {α : Type} (digest : α → Digest) (size : α → Nat) (excess : Nat)
    (rows : List α) : ∃ gone rest, rows = gone ++ rest ∧
    victims excess (rows.map fun a => (digest a, size a)) = gone.map digest ∧
    (rest = [] ∨ excess ≤ total size gone) ∧
    ∀ before a after, gone = before ++ a :: after → total size before < excess := by
  induction rows generalizing excess with
  | nil => exact ⟨[], [], rfl, rfl, .inl rfl, by simp⟩
  | cons a rows ih =>
    by_cases he : excess = 0
    · exact ⟨[], a :: rows, rfl, by simp [victims, he], .inr (by omega), by simp⟩
    · obtain ⟨gone, rest, hrows, hv, henough, hneeded⟩ := ih (excess - size a)
      refine ⟨a :: gone, rest, by rw [hrows]; rfl, ?_, ?_, fun before b after hb => ?_⟩
      · rw [List.map_cons, victims, if_neg he, hv]
        rfl
      · refine henough.imp_right fun h => ?_
        rw [total_cons]
        omega
      · cases before with
        | nil => exact Nat.pos_of_ne_zero he
        | cons first before =>
          rw [List.cons_append, List.cons.injEq] at hb
          have hlt := hneeded before b after hb.2
          rw [total_cons, ← hb.1]
          omega

theorem evictable_eq (ix : Index) :
    ix.evictable =
      (ix.entries.filter (·.2.retention = .normal)).map fun e => (e.1, e.2.size) := by
  rw [evictable, entries, List.filter_filterMap, List.map_filterMap]
  refine congrArg (fun f => List.filterMap f _) (funext fun d => ?_)
  cases ix.get? d with
  | none => rfl
  | some info => by_cases hr : info.retention = .normal <;> simp [hr, Option.filter]

end TierCache.Disk.Index
