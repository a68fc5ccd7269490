import TierCache.Table

/-!
# Sums over lists and tables

The sum of a measure over a list does not depend on its order, and a table is its pairs in some
order. So a total kept beside a table can be followed through every change of the table.
-/
namespace TierCache

variable {α β κ : Type}

def total (f : α → Nat) (l : List α) : Nat := l.foldr (fun a n => f a + n) 0

@[simp] theorem total_nil (f : α → Nat) : total f [] = 0 := rfl

@[simp] theorem total_cons (f : α → Nat) (a : α) (l : List α) :
    total f (a :: l) = f a + total f l := rfl

@[simp] theorem total_append (f : α → Nat) (l₁ l₂ : List α) :
    total f (l₁ ++ l₂) = total f l₁ + total f l₂ := by
  induction l₁ with
  | nil => simp
  | cons a l₁ ih => simp only [List.cons_append, total_cons, ih]; omega

theorem total_map (f : β → Nat) (g : α → β) (l : List α) :
    total f (l.map g) = total (fun a => f (g a)) l := by
  induction l with
  | nil => rfl
  | cons a l ih => simp only [List.map_cons, total_cons, ih]

theorem total_perm (f : α → Nat) {l₁ l₂ : List α} (h : l₁.Perm l₂) : total f l₁ = total f l₂ := by
  induction h with
  | nil => rfl
  | cons a _ ih => rw [total_cons, total_cons, ih]
  | swap a b l => simp only [total_cons]; omega
  | trans _ _ ih₁ ih₂ => exact ih₁.trans ih₂

theorem total_filter_add (f : α → Nat) (p : α → Bool) (l : List α) :
    total f l = total f (l.filter p) + total f (l.filter fun a => !p a) := by
  induction l with
  | nil => rfl
  | cons a l ih =>
    cases hp : p a
    · simp only [total_cons, ih, List.filter_cons, hp, Bool.false_eq_true, if_false, Bool.not_false,
        if_true]
      omega
    · simp only [total_cons, ih, List.filter_cons, hp, if_true, Bool.not_true, Bool.false_eq_true,
        if_false]
      omega

theorem total_sublist (f : α → Nat) {l₁ l₂ : List α} (h : l₁.Sublist l₂) :
    total f l₁ ≤ total f l₂ := by
  induction h with
  | slnil => exact Nat.le_refl _
  | cons a _ ih => rw [total_cons]; omega
  | cons_cons a _ ih => rw [total_cons, total_cons]; omega

/-- A list without repetitions weighs no more than one that has all its elements. -/
theorem total_le_of_subset (f : α → Nat) {l₁ l₂ : List α} (hn : l₁.Nodup) (hs : l₁ ⊆ l₂) :
    total f l₁ ≤ total f l₂ := by
  classical
  induction l₁ generalizing l₂ with
  | nil => exact Nat.zero_le _
  | cons a l₁ ih =>
    rw [List.nodup_cons] at hn
    have hrest : l₁ ⊆ l₂.erase a := by
      intro b hb
      have hne : b ≠ a := by
        rintro rfl
        exact hn.1 hb
      exact (List.mem_erase_of_ne hne).mpr (hs (List.mem_cons_of_mem a hb))
    have hp := total_perm f (List.perm_cons_erase (hs List.mem_cons_self))
    have hle := ih hn.2 hrest
    rw [total_cons] at hp ⊢
    omega

/-- Elements whose images are all different are told apart by them. -/
theorem eq_of_nodup_map {f : α → β} {l : List α} (h : (l.map f).Nodup) {a b : α} (ha : a ∈ l)
    (hb : b ∈ l) (he : f a = f b) : a = b := by
  induction l with
  | nil => cases ha
  | cons c l ih =>
    rw [List.map_cons, List.nodup_cons] at h
    rcases List.mem_cons.mp ha with rfl | hma
    · rcases List.mem_cons.mp hb with rfl | hmb
      · rfl
      · exact absurd (List.mem_map.mpr ⟨b, hmb, he.symm⟩) h.1
    · rcases List.mem_cons.mp hb with rfl | hmb
      · exact absurd (List.mem_map.mpr ⟨a, hma, he⟩) h.1
      · exact ih h.2 hma hmb

/-- What is taken out of a list is what its sum loses. -/
theorem total_filter_notMem_add [DecidableEq κ] (f : α → Nat) {k : α → κ} {l gone : List α}
    (hn : (l.map k).Nodup) (hg : gone.Sublist l) :
    total f (l.filter (k · ∉ gone.map k)) + total f gone = total f l := by
  have hl : l.Nodup := List.Pairwise.of_map k (fun _ _ hne he => hne (congrArg k he)) hn
  have hp : (l.filter (k · ∈ gone.map k)).Perm gone := by
    refine (List.perm_ext_iff_of_nodup (hl.filter _) (hl.sublist hg)).mpr fun a => ?_
    rw [List.mem_filter, decide_eq_true_eq, List.mem_map]
    constructor
    · rintro ⟨ha, a', ha', he⟩
      exact eq_of_nodup_map hn (hg.subset ha') ha he ▸ ha'
    · exact fun ha => ⟨hg.subset ha, a, ha, rfl⟩
  have hs := total_filter_add f (fun a => k a ∈ gone.map k) l
  rw [total_perm f hp] at hs
  simp only [← decide_not] at hs
  omega

/-- A list that is mapped first is filtered by what its elements are mapped to. -/
theorem filterMap_map_eq {γ : Type} {f : β → Option γ} {g : α → β} {p : α → Bool} {k : α → γ}
    {l : List α} (h : ∀ a ∈ l, f (g a) = if p a then some (k a) else none) :
    (l.map g).filterMap f = (l.filter p).map k := by
  induction l with
  | nil => rfl
  | cons a l ih =>
    have ha := h a List.mem_cons_self
    have hl := ih fun b hb => h b (List.mem_cons_of_mem a hb)
    cases hp : p a with
    | true =>
      rw [hp, if_pos rfl] at ha
      rw [List.map_cons, List.filterMap_cons_some ha, List.filter_cons_of_pos hp, List.map_cons, hl]
    | false =>
      rw [hp, if_neg Bool.false_ne_true] at ha
      rw [List.map_cons, List.filterMap_cons_none ha,
        List.filter_cons_of_neg (by rw [hp]; exact Bool.false_ne_true), hl]

namespace Table

variable {t u : Table κ α}

theorem nodup_pairs (t : Table κ α) : t.pairs.Nodup :=
  List.Pairwise.of_map Prod.fst (fun _ _ h he => h (congrArg Prod.fst he)) t.nodup

theorem ext (h : t.pairs = u.pairs) : t = u := by
  cases t
  cases u
  cases h
  rfl

theorem filter_congr {keep keep' : κ → α → Bool}
    (h : ∀ k a, (k, a) ∈ t.pairs → keep k a = keep' k a) : t.filter keep = t.filter keep' :=
  ext (List.filter_congr fun p hp => h p.1 p.2 hp)

theorem filter_eq_self {keep : κ → α → Bool} (h : ∀ k a, (k, a) ∈ t.pairs → keep k a = true) :
    t.filter keep = t :=
  ext (List.filter_eq_self.mpr fun p hp => h p.1 p.2 hp)

theorem filter_filter (t : Table κ α) (keep keep' : κ → α → Bool) :
    (t.filter keep).filter keep' = t.filter fun k a => keep' k a && keep k a :=
  ext List.filter_filter

variable [DecidableEq κ]

theorem mem_keys_iff {k : κ} : k ∈ t.keys ↔ ∃ a, t.get? k = some a := by
  rw [← contains_iff, contains, Option.isSome_iff_exists]

theorem not_mem_keys_iff {k : κ} : k ∉ t.keys ↔ t.get? k = none := by
  rw [mem_keys_iff, Option.eq_none_iff_forall_ne_some]
  exact not_exists

theorem ext_perm (h : ∀ k, t.get? k = u.get? k) : t.pairs.Perm u.pairs := by
  refine (List.perm_ext_iff_of_nodup t.nodup_pairs u.nodup_pairs).mpr fun p => ?_
  rw [← get?_eq_some_iff, ← get?_eq_some_iff, h]

/-- A pair that is there stands beside the table without its key. -/
theorem perm_erase {k : κ} {a : α} (h : t.get? k = some a) :
    t.pairs.Perm ((k, a) :: (t.erase k).pairs) := by
  refine ext_perm (u := t.set k a) fun k' => ?_
  rw [get?_set]
  split
  · rename_i he
    rw [he, h]
  · rfl

theorem erase_of_none {k : κ} (h : t.get? k = none) : (t.erase k).pairs = t.pairs := by
  rw [erase, filter, List.filter_eq_self]
  rintro ⟨k', a⟩ hm
  rw [decide_eq_true_eq]
  rintro rfl
  rw [get?_eq_some_iff.mpr hm] at h
  cases h

end Table

end TierCache
