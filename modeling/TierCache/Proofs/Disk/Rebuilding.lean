import TierCache.Proofs.Disk.Run

/-!
# Building the index from the files

The records that a store finds are the files in its two folders whose names are digests. Taken in
one after the other, in the order of their times, they make a shelf; an earlier copy of a record
goes when the later one is taken in.
-/
namespace TierCache.Disk

def Row.found (e : Row) : Found := ⟨e.time, e.digest, ⟨e.bytes.length, e.retention⟩⟩

/-- The record that a file in a folder is, if it is one. -/
def rowOf? (r : Retention) : String × Node → Option Row
  | (name, .file bytes time) => (Digest.parse? name).map fun d => ⟨d, r, bytes, time⟩
  | (_, .folder) => none

/-- The records in a folder. -/
def rowsIn (v : Volume) (root : Path) (r : Retention) : List Row :=
  (v.children (folder root r)).filterMap (rowOf? r)

/-- The records in both folders, in the order of their times. -/
def rowsOf (v : Volume) (root : Path) : List Row :=
  (rowsIn v root .normal ++ rowsIn v root .always).mergeSort fun a b => a.time ≤ b.time

variable {root : Path} {v w : Volume} {s : Store} {sh : Shelf} {e : Row} {r : Retention}

theorem rowOf?_eq_some_iff {p : String × Node} :
    rowOf? r p = some e ↔ e.retention = r ∧ p = (e.digest.text, .file e.bytes e.time) := by
  obtain ⟨name, node⟩ := p
  cases node with
  | folder => simp [rowOf?]
  | file bytes time =>
    simp only [rowOf?, Option.map_eq_some_iff, Digest.parse?_eq_some_iff, Prod.mk.injEq,
      Node.file.injEq]
    constructor
    · rintro ⟨d, rfl, rfl⟩
      exact ⟨rfl, rfl, rfl, rfl⟩
    · rintro ⟨rfl, rfl, rfl, rfl⟩
      exact ⟨e.digest, rfl, rfl⟩

theorem foundIn_eq (v : Volume) (root : Path) (r : Retention) :
    foundIn v root r = (rowsIn v root r).map Row.found := by
  rw [foundIn, rowsIn, List.map_filterMap]
  refine congrArg (fun f => List.filterMap f _) (funext fun p => ?_)
  obtain ⟨name, node⟩ := p
  cases node with
  | folder => rfl
  | file bytes time =>
    simp only [rowOf?]
    cases Digest.parse? name with
    | none => rfl
    | some d => rfl

theorem inOrder_found (v : Volume) (root : Path) :
    inOrder (foundIn v root .normal ++ foundIn v root .always) =
      (rowsOf v root).map Row.found := by
  rw [foundIn_eq, foundIn_eq, ← List.map_append, inOrder, rowsOf, List.map_mergeSort]
  intro a _ b _
  rfl

theorem mem_rowsIn (hl : v.Leads (folder root r)) : e ∈ rowsIn v root r ↔
    e.retention = r ∧ v.fileAt? (recordPlace root e.digest r) = some (e.bytes, e.time) := by
  rw [rowsIn, List.mem_filterMap, Volume.fileAt?_eq_some_iff, ← slot_text, ← goal_folder_append,
    ← Volume.mem_children_iff hl]
  constructor
  · rintro ⟨p, hm, he⟩
    obtain ⟨hr, rfl⟩ := rowOf?_eq_some_iff.mp he
    exact ⟨hr, hm⟩
  · rintro ⟨hr, hm⟩
    exact ⟨_, hm, rowOf?_eq_some_iff.mpr ⟨hr, rfl⟩⟩

theorem mem_rowsOf (hl : ∀ r, v.Leads (folder root r)) : e ∈ rowsOf v root ↔
    v.fileAt? (recordPlace root e.digest e.retention) = some (e.bytes, e.time) := by
  rw [rowsOf, List.mem_mergeSort, List.mem_append, mem_rowsIn (hl _), mem_rowsIn (hl _)]
  constructor
  · rintro (⟨hr, hf⟩ | ⟨hr, hf⟩)
    · rwa [hr]
    · rwa [hr]
  · intro hf
    cases hr : e.retention with
    | normal => exact .inl ⟨rfl, hr ▸ hf⟩
    | always => exact .inr ⟨rfl, hr ▸ hf⟩

theorem sorted_rowsOf (v : Volume) (root : Path) :
    (rowsOf v root).Pairwise fun a b => a.time ≤ b.time := by
  rw [rowsOf]
  refine (List.pairwise_mergeSort ?_ ?_ _).imp fun h => of_decide_eq_true h
  · intro a b c hab hbc
    rw [decide_eq_true_eq] at hab hbc ⊢
    omega
  · intro a b
    rw [Bool.or_eq_true, decide_eq_true_eq, decide_eq_true_eq]
    omega

theorem nodup_rowsIn (v : Volume) (root : Path) (r : Retention) :
    ((rowsIn v root r).map Row.key).Nodup := by
  have hn := v.nodup_children (folder root r)
  rw [List.Nodup, List.pairwise_map] at hn ⊢
  rw [rowsIn, List.pairwise_filterMap]
  refine hn.imp fun {p q} hpq e he e' he' heq => hpq ?_
  obtain ⟨-, rfl⟩ := rowOf?_eq_some_iff.mp he
  obtain ⟨-, rfl⟩ := rowOf?_eq_some_iff.mp he'
  exact congrArg (fun k : Digest × Retention => k.1.text) heq

theorem retention_of_mem_rowsIn (h : e ∈ rowsIn v root r) : e.retention = r := by
  rw [rowsIn, List.mem_filterMap] at h
  obtain ⟨p, -, he⟩ := h
  exact (rowOf?_eq_some_iff.mp he).1

theorem nodup_rowsOf (v : Volume) (root : Path) : ((rowsOf v root).map Row.key).Nodup := by
  rw [rowsOf, ((List.mergeSort_perm _ _).map Row.key).nodup_iff, List.map_append,
    List.nodup_append]
  refine ⟨nodup_rowsIn v root _, nodup_rowsIn v root _, ?_⟩
  intro k hk k' hk' he
  obtain ⟨e, hm, rfl⟩ := List.mem_map.mp hk
  obtain ⟨e', hm', rfl⟩ := List.mem_map.mp hk'
  have hr : e.retention = e'.retention := congrArg Prod.snd he
  rw [retention_of_mem_rowsIn hm, retention_of_mem_rowsIn hm'] at hr
  cases hr

theorem mem_strays {p : Path} : p ∈ strays v root r ↔ ∃ name bytes time,
    (name, .file bytes time) ∈ v.children (folder root r) ∧ Digest.parse? name = none ∧
      p = (folder root r).join name := by
  rw [strays, List.mem_filterMap]
  constructor
  · rintro ⟨⟨name, node⟩, hm, he⟩
    cases node with
    | folder => cases he
    | file bytes time =>
      cases hd : Digest.parse? name with
      | none =>
        simp only [hd, Option.some.injEq] at he
        exact ⟨name, bytes, time, hm, hd, he.symm⟩
      | some d =>
        simp only [hd] at he
        cases he
  · rintro ⟨name, bytes, time, hm, hd, rfl⟩
    exact ⟨_, hm, by simp only [hd]⟩

theorem goal_of_mem_strays {p : Path} (h : p ∈ strays v root r) :
    ∃ name, Digest.parse? name = none ∧ p.goal = Path.advance (folder root r).goal name := by
  obtain ⟨name, -, -, -, hd, rfl⟩ := mem_strays.mp h
  exact ⟨name, hd, Path.goal_join_eq _ name⟩

theorem slot_ne_recordPlace {home : Path} {r : Retention} {name : String}
    (hn : Digest.parse? name = none) (d : Digest) (r' : Retention) :
    slot home r name ≠ recordPlace home d r' := by
  intro he
  have he := List.append_cancel_left he
  simp only [List.cons.injEq, and_true] at he
  rw [Digest.parse?_eq_some_iff.mpr he.2.symm] at hn
  cases hn

/-- A stray stands in a folder of records, or its name leads back to a folder. -/
theorem stray_cases {name : String} (hn : Digest.parse? name = none) {q : Place}
    (hq : q = Path.advance (folder root r).goal name) :
    root.goal <+: q ∧ (∀ d r', q ≠ recordPlace root d r') ∧
      ∀ name, q ≠ root.goal ++ ["tmp", name] := by
  rw [goal_folder] at hq
  have short : ∀ below : List String, below.length ≤ 1 → root.goal <+: root.goal ++ below ∧
      (∀ d r', root.goal ++ below ≠ recordPlace root d r') ∧
      ∀ name, root.goal ++ below ≠ root.goal ++ ["tmp", name] := by
    intro below hb
    refine ⟨List.prefix_append _ _, fun d r' he => ?_, fun name he => ?_⟩
    · rw [List.append_cancel_left he] at hb
      exact absurd hb (by simp)
    · rw [List.append_cancel_left he] at hb
      exact absurd hb (by simp)
  rw [Path.advance] at hq
  split at hq
  · rw [hq]
    exact short [folderName r] (by simp)
  · split at hq
    · rw [hq, List.dropLast_concat]
      simpa using short [] (by simp)
    · rw [hq, List.append_assoc]
      refine ⟨List.prefix_append _ _, slot_ne_recordPlace hn, fun name' he => ?_⟩
      have he := List.append_cancel_left he
      simp only [List.singleton_append, List.cons.injEq, and_true] at he
      exact folderName_ne_tmp r he.1

/-- Discarding touches no folder. -/
theorem folder_discardAll (v : Volume) (ps : List Path) (q : Place) :
    (discardAll v ps).node? q = some .folder ↔ v.node? q = some .folder := by
  induction ps generalizing v with
  | nil => rfl
  | cons p ps ih => exact (ih (v.discard p)).trans (Volume.folder_discard v p q)

/-- Whatever files the paths lead to are gone, and no others. -/
theorem fileAt?_discardAll (v : Volume) (ps : List Path) (q : Place) :
    (discardAll v ps).fileAt? q =
      if ∃ p ∈ ps, v.Leads p ∧ q = p.goal then none else v.fileAt? q := by
  induction ps generalizing v with
  | nil => simp [discardAll]
  | cons p ps ih =>
    have hl : ∀ p', (v.discard p).Leads p' ↔ v.Leads p' := by
      intro p'
      simp only [Volume.Leads, Volume.folder_discard]
    refine (ih (v.discard p)).trans ?_
    simp only [hl, Volume.fileAt?_discard, List.mem_cons, or_and_right, exists_or, exists_eq_left]
    by_cases hp : v.Leads p ∧ q = p.goal
    · simp [hp]
    · simp [hp]

theorem discardAll_keeps (v : Volume) (ps : List Path) :
    (discardAll v ps).clock = v.clock ∧
      (∀ q, (discardAll v ps).node? q = some .folder ↔ v.node? q = some .folder) ∧
      ∀ q, (∀ p ∈ ps, q ≠ p.goal) → (discardAll v ps).fileAt? q = v.fileAt? q := by
  refine ⟨?_, folder_discardAll v ps, fun q hq => ?_⟩
  · induction ps generalizing v with
    | nil => rfl
    | cons p ps ih => exact (ih (v.discard p)).trans (Volume.medium_discard v p).1
  · rw [fileAt?_discardAll, if_neg]
    rintro ⟨p, hp, -, he⟩
    exact hq p hp he

/-- Some records are taken in, and others are still to come. -/
structure Adopting (s : Store) (v : Volume) (sh : Shelf) (todo : List Row) : Prop where
  roomy : Roomy s.root
  standing : Standing s.root v
  sound : s.index.Sound
  entries : s.index.entries = sh.rows.map Row.entry
  files : ∀ e ∈ sh.rows ++ todo,
    v.fileAt? (recordPlace s.root e.digest e.retention) = some (e.bytes, e.time)
  only : ∀ d r, (v.fileAt? (recordPlace s.root d r)).isSome →
    ∃ e ∈ sh.rows ++ todo, e.key = (d, r)
  distinct : ((sh.rows ++ todo).map Row.key).Nodup

namespace Adopting

variable {todo : List Row} {d : Digest} {info : RecordInfo}

theorem get?_eq_some (h : Adopting s v sh todo) (hi : s.index.get? d = some info) :
    ∃ e ∈ sh.rows, e.entry = (d, info) := by
  rw [← h.sound.mem_entries, h.entries, List.mem_map] at hi
  exact hi

theorem get?_of_mem (h : Adopting s v sh todo) (he : e ∈ sh.rows) :
    s.index.get? e.digest = some e.entry.2 := by
  rw [← h.sound.mem_entries, h.entries, List.mem_map]
  exact ⟨e, he, rfl⟩

/-- The place of the earlier copy of a record, if there is one. -/
theorem adopt_eq (s : Store) (v : Volume) (e : Row) :
    s.adopt v e.found = ({ s with index := s.index.insert e.digest e.entry.2 },
      match s.index.get? e.digest with
      | some earlier => v.discard (s.pathOf e.digest earlier.retention)
      | none => v) := rfl

theorem folder_adopt (s : Store) (v : Volume) (e : Row) (q : Place) :
    (s.adopt v e.found).2.node? q = some .folder ↔ v.node? q = some .folder := by
  rw [adopt_eq]
  simp only
  split
  · exact Volume.folder_discard v _ q
  · rfl

@[simp] theorem clock_adopt (s : Store) (v : Volume) (e : Row) :
    (s.adopt v e.found).2.clock = v.clock := by
  rw [adopt_eq]
  simp only
  split
  · exact (Volume.medium_discard v _).1
  · rfl

theorem fileAt?_adopt (h : Adopting s v sh (e :: todo)) (q : Place) :
    (s.adopt v e.found).2.fileAt? q =
      if (∃ e' ∈ sh.rows, e'.digest = e.digest ∧ q = recordPlace s.root e'.digest e'.retention)
      then none else v.fileAt? q := by
  rw [adopt_eq]
  simp only
  cases hg : s.index.get? e.digest with
  | none =>
    simp only
    rw [if_neg]
    rintro ⟨e', he', hd, -⟩
    rw [← hd, h.get?_of_mem he'] at hg
    cases hg
  | some earlier =>
    simp only
    have hl := h.standing.leads_recordPath h.roomy e.digest earlier.retention
    rw [Volume.fileAt?_discard, Store.pathOf, goal_recordPath]
    by_cases hq : q = recordPlace s.root e.digest earlier.retention
    · obtain ⟨e', he', heq⟩ := h.get?_eq_some hg
      have hd : e'.digest = e.digest := congrArg Prod.fst heq
      have hr : e'.retention = earlier.retention :=
        congrArg (fun p : Digest × RecordInfo => p.2.retention) heq
      rw [if_pos ⟨hl, hq⟩, if_pos ⟨e', he', hd, by rw [hq, hd, hr]⟩]
    · rw [if_neg fun hx => hq hx.2, if_neg]
      rintro ⟨e', he', hd, rfl⟩
      rw [← hd, h.get?_of_mem he', Option.some.injEq] at hg
      exact hq (by rw [← hg, hd]; rfl)

theorem step (h : Adopting s v sh (e :: todo)) :
    Adopting (s.adopt v e.found).1 (s.adopt v e.found).2 (sh.add e) todo where
  roomy := h.roomy
  standing := h.standing.mono fun q hq => (folder_adopt s v e q).mpr hq
  sound := h.sound.insert e.digest _
  entries := by
    show (s.index.insert e.digest e.entry.2).entries = _
    rw [h.sound.entries_insert, h.entries, Shelf.add, List.map_append, List.filter_map]
    rfl
  files := by
    intro a ha
    have hm : a ∈ sh.rows ∧ a.digest ≠ e.digest ∨ a ∈ e :: todo := by
      cases List.mem_append.mp ha with
      | inl ha =>
        rcases Shelf.mem_rows_add.mp ha with ha | rfl
        · exact .inl ha
        · exact .inr List.mem_cons_self
      | inr ha => exact .inr (List.mem_cons_of_mem e ha)
    have hroot : (s.adopt v e.found).1.root = s.root := rfl
    rw [h.fileAt?_adopt, hroot, if_neg]
    · refine h.files a (List.mem_append.mpr ?_)
      exact hm.imp And.left id
    · rintro ⟨e', he', hd, hq⟩
      obtain ⟨had, har⟩ := recordPlace_injective hq
      rcases hm with ⟨-, hne⟩ | hm
      · exact hne (had.trans hd)
      · have hdis := h.distinct
        rw [List.map_append, List.nodup_append] at hdis
        exact hdis.2.2 e'.key (List.mem_map.mpr ⟨e', he', rfl⟩) a.key
          (List.mem_map.mpr ⟨a, hm, rfl⟩) (by rw [Row.key, Row.key, had, har])
  only := by
    intro d r hs
    have hroot : (s.adopt v e.found).1.root = s.root := rfl
    rw [hroot, h.fileAt?_adopt] at hs
    split at hs
    · cases hs
    · rename_i hne
      obtain ⟨a, ha, hk⟩ := h.only d r hs
      refine ⟨a, ?_, hk⟩
      cases List.mem_append.mp ha with
      | inl ha =>
        refine List.mem_append_left _ (Shelf.mem_rows_add.mpr (.inl ⟨ha, fun hd => hne ?_⟩))
        rw [Row.key, Prod.mk.injEq] at hk
        exact ⟨a, ha, hd, by rw [hk.1, hk.2]⟩
      | inr ha =>
        rcases List.mem_cons.mp ha with rfl | ha
        · exact List.mem_append_left _ (Shelf.mem_rows_add.mpr (.inr rfl))
        · exact List.mem_append_right _ ha
  distinct := by
    refine h.distinct.sublist (List.Sublist.map _ ?_)
    rw [Shelf.add, List.append_assoc]
    exact List.filter_sublist.append (List.Sublist.refl _)

/-- All records are taken in, one after the other. -/
theorem run (h : Adopting s v sh todo) :
    ∃ s' w, (todo.map Row.found).foldl (fun (s, v) f => s.adopt v f) (s, v) = (s', w) ∧
      Adopting s' w (todo.foldl Shelf.add sh) [] ∧ s'.root = s.root ∧ s'.capacity = s.capacity ∧
      w.clock = v.clock ∧ (∀ q, w.node? q = some .folder ↔ v.node? q = some .folder) ∧
      ∀ q, (∀ d r, q ≠ recordPlace s.root d r) → w.fileAt? q = v.fileAt? q := by
  induction todo generalizing s v sh with
  | nil => exact ⟨s, v, rfl, h, rfl, rfl, rfl, fun _ => Iff.rfl, fun _ _ => rfl⟩
  | cons e todo ih =>
    obtain ⟨s', w, hw, ha, hroot, hcap, hc, hd, hf⟩ := ih h.step
    refine ⟨s', w, hw, ha, hroot, hcap, hc.trans (clock_adopt s v e), fun q => ?_, fun q hq => ?_⟩
    · rw [hd, folder_adopt]
    · rw [hf q hq, h.fileAt?_adopt, if_neg]
      rintro ⟨e', -, -, he⟩
      exact hq _ _ he

end Adopting

namespace Shelf

/-- A shelf that takes in some rows, one after the other. -/
def addAll (sh : Shelf) (rows : List Row) : Shelf := rows.foldl add sh

theorem addAll_eq (sh : Shelf) (rows : List Row) :
    sh.addAll rows = { sh with rows := (sh.addAll rows).rows } := by
  induction rows generalizing sh with
  | nil => rfl
  | cons e rows ih =>
    have := ih (sh.add e)
    exact this

theorem rows_addAll_congr {sh sh' : Shelf} (h : sh.rows = sh'.rows) (rows : List Row) :
    (sh.addAll rows).rows = (sh'.addAll rows).rows := by
  induction rows generalizing sh sh' with
  | nil => exact h
  | cons e rows ih => exact ih (by rw [add, add, h])

theorem mem_addAll {sh : Shelf} {rows : List Row} (h : e ∈ (sh.addAll rows).rows) :
    e ∈ sh.rows ∨ e ∈ rows := by
  induction rows generalizing sh with
  | nil => exact .inl h
  | cons a rows ih =>
    cases ih h with
    | inl h =>
      rcases mem_rows_add.mp h with ⟨h, -⟩ | rfl
      · exact .inl h
      · exact .inr List.mem_cons_self
    | inr h => exact .inr (List.mem_cons_of_mem a h)

/-- Every digest that is taken in stays, in one row or another. -/
theorem exists_mem_addAll {sh : Shelf} {rows : List Row} (h : e ∈ sh.rows ∨ e ∈ rows) :
    ∃ e' ∈ (sh.addAll rows).rows, e'.digest = e.digest := by
  induction rows generalizing sh e with
  | nil => exact ⟨e, h.resolve_right List.not_mem_nil, rfl⟩
  | cons a rows ih =>
    by_cases hd : a.digest = e.digest
    · have ha : a ∈ (sh.add a).rows := mem_rows_add.mpr (.inr rfl)
      obtain ⟨e', he', hd'⟩ := ih (.inl ha)
      exact ⟨e', he', hd'.trans hd⟩
    · rcases h with h | h
      · exact ih (.inl (mem_rows_add.mpr (.inl ⟨h, Ne.symm hd⟩)))
      · rcases List.mem_cons.mp h with rfl | h
        · exact absurd rfl hd
        · exact ih (.inr h)

theorem Distinct.addAll {sh : Shelf} (h : sh.Distinct) (rows : List Row) :
    (sh.addAll rows).Distinct := by
  induction rows generalizing sh with
  | nil => exact h
  | cons e rows ih => exact ih (h.add e)

/-- Rows of distinct digests all stay. -/
theorem rows_addAll {sh : Shelf} {rows : List Row}
    (hn : ((sh.rows ++ rows).map Row.digest).Nodup) : (sh.addAll rows).rows = sh.rows ++ rows := by
  induction rows generalizing sh with
  | nil => exact (List.append_nil sh.rows).symm
  | cons e rows ih =>
    have hf : sh.rows.filter (·.digest ≠ e.digest) = sh.rows := by
      rw [List.filter_eq_self]
      intro a ha
      rw [decide_eq_true_eq]
      intro hd
      rw [List.map_append, List.nodup_append] at hn
      exact hn.2.2 a.digest (List.mem_map.mpr ⟨a, ha, rfl⟩) e.digest (by simp) hd
    have he : (sh.add e).rows = sh.rows ++ [e] := by rw [add, hf]
    have := @ih (sh.add e) (by rwa [he, List.append_assoc])
    rw [he, List.append_assoc] at this
    exact this

end Shelf

/-- The volume of a store that is about to be built: its folders stand and nothing is staged. -/
structure Prepared (root : Path) (v : Volume) : Prop where
  roomy : Roomy root
  standing : Standing root v
  staged : ∀ name, v.node? (root.goal ++ ["tmp", name]) =
    if root.goal ++ ["tmp", name] ∈ root.way then some .folder else none

theorem Adopting.agrees (h : Adopting s v sh [])
    (hs : ∀ name, v.node? (s.root.goal ++ ["tmp", name]) =
      if s.root.goal ++ ["tmp", name] ∈ s.root.way then some .folder else none) : Agrees s v where
  roomy := h.roomy
  standing := h.standing
  sound := h.sound
  kept := by
    intro d info hi
    obtain ⟨e, he, heq⟩ := h.get?_eq_some hi
    cases heq
    exact ⟨e.bytes, e.time, h.files e (List.mem_append_left _ he), rfl⟩
  only := by
    intro d r hsome
    obtain ⟨e, he, hk⟩ := h.only d r hsome
    rw [List.append_nil] at he
    cases hk
    exact ⟨e.bytes.length, h.get?_of_mem he⟩
  staged := hs

/-- Discarding the strays leaves all other files. -/
theorem fileAt?_discardStrays (v : Volume) (root : Path) {q : Place}
    (hq : ∀ r p, p ∈ strays v root r → q ≠ p.goal) :
    (discardAll v (strays v root .normal ++ strays v root .always)).fileAt? q = v.fileAt? q := by
  refine (discardAll_keeps v _).2.2 q fun p hp => ?_
  cases List.mem_append.mp hp with
  | inl hp => exact hq _ p hp
  | inr hp => exact hq _ p hp

/-- Once the strays are gone, the records that were found are all still to be taken in. -/
theorem Prepared.adopting (h : Prepared s.root v) (hi : s.index = .empty) :
    Adopting s (discardAll v (strays v s.root .normal ++ strays v s.root .always))
      ⟨s.capacity, [], fun _ _ => false, fun _ _ => false⟩ (rowsOf v s.root) := by
  have hl : ∀ r, v.Leads (folder s.root r) := h.standing.leads_folder h.roomy
  have hrec : ∀ d r, (discardAll v (strays v s.root .normal ++ strays v s.root .always)).fileAt?
      (recordPlace s.root d r) = v.fileAt? (recordPlace s.root d r) := by
    intro d r
    refine fileAt?_discardStrays v s.root fun r' p hp he => ?_
    obtain ⟨name, hn, hg⟩ := goal_of_mem_strays hp
    exact (stray_cases hn hg).2.1 d r he.symm
  exact
    { roomy := h.roomy
      standing := h.standing.mono fun q hq => ((discardAll_keeps v _).2.1 q).mpr hq
      sound := hi ▸ .empty
      entries := by
        rw [hi]
        rfl
      files := fun e he => by rw [hrec, (mem_rowsOf hl).mp he]
      only := by
        intro d r hs
        rw [hrec] at hs
        obtain ⟨⟨bytes, time⟩, hf⟩ := Option.isSome_iff_exists.mp hs
        exact ⟨⟨d, r, bytes, time⟩, (mem_rowsOf hl).mpr hf, rfl⟩
      distinct := nodup_rowsOf v s.root }

/-- What is built holds the records that were found, as far as the capacity reaches. Of all else
only the strays go. -/
theorem rebuild_holds (h : Prepared s.root v) (hi : s.index = .empty) :
    ∃ s' w blocked pinned, s.rebuild v = (s', w) ∧
      Holds.Result s v
        (Shelf.addAll ⟨s.capacity, [], blocked, pinned⟩ (rowsOf v s.root)).shrink s' w ∧
      (∀ q, w.node? q = some .folder ↔ v.node? q = some .folder) ∧
      ∀ q, (∀ d r, q ≠ recordPlace s.root d r) → w.fileAt? q =
        (discardAll v (strays v s.root .normal ++ strays v s.root .always)).fileAt? q := by
  obtain ⟨hc₁, hd₁, -⟩ := discardAll_keeps v (strays v s.root .normal ++ strays v s.root .always)
  obtain ⟨s', w, hw, had, hroot, hcap, hc, hd, hf⟩ := (h.adopting hi).run
  have hfold : ∀ q, w.node? q = some .folder ↔ v.node? q = some .folder :=
    fun q => (hd q).trans (hd₁ q)
  have hfile : ∀ q, (∀ r p, p ∈ strays v s.root r → q ≠ p.goal) →
      (∀ d r, q ≠ recordPlace s.root d r) → w.fileAt? q = v.fileAt? q :=
    fun q hs hq => (hf q hq).trans (fileAt?_discardStrays v s.root hs)
  have hag : Agrees s' w := by
    refine had.agrees fun name => ?_
    rw [hroot, Volume.node?_congr (hfold _) (hfile _ ?_ ?_), h.staged]
    · intro r p hp he
      obtain ⟨name', hn, hg⟩ := goal_of_mem_strays hp
      exact (stray_cases hn hg).2.2 name he.symm
    · exact fun d r he => recordPlace_ne_staged s.root s.root d r name he.symm
  have hrows : ∀ b p, (Shelf.addAll ⟨s.capacity, [], b, p⟩ (rowsOf v s.root)).rows =
      (Shelf.addAll ⟨s.capacity, [], fun _ _ => false, fun _ _ => false⟩ (rowsOf v s.root)).rows :=
    fun b p => Shelf.rows_addAll_congr (by rfl) _
  have hh : Holds s' w (Shelf.addAll ⟨s.capacity, [], isBlocked s' w, fun d r =>
      !canStage s' w || decide (recordPlace s'.root d r ∈ s'.root.way)⟩ (rowsOf v s.root)) := by
    rw [Shelf.addAll_eq, hrows]
    exact
      { agrees := hag
        capacity := hcap
        entries := had.entries
        files := fun e he => had.files e (List.mem_append_left _ he)
        blocked := fun _ _ => rfl
        pinned := fun _ _ => rfl }
  have hframe : Frame s.root v w := by
    refine ⟨hc.trans hc₁, fun q hq => Volume.node?_congr (hfold q) (hfile q ?_ ?_)⟩
    · rintro r p hp rfl
      obtain ⟨name, hn, hg⟩ := goal_of_mem_strays hp
      exact hq (stray_cases hn hg).1
    · rintro d r rfl
      exact hq (List.prefix_append _ _)
  have hfs := Holds.frame_shrink hag
  rw [hroot] at hfs
  refine ⟨_, _, _, _, ?_, ⟨hh.shrink, (Holds.root_shrink s' w).trans hroot, hframe.trans hfs⟩,
    fun q => (Agrees.folder_evictAll s' w _ q).trans (hfold q), fun q hq => ?_⟩
  · rw [Store.rebuild, inOrder_found]
    simp only [hw]
  · refine Eq.trans ?_ (hf q hq)
    rw [Store.shrink, hag.fileAt?_evictAll, if_neg]
    rintro ⟨d, -, hm⟩
    obtain ⟨r, he⟩ := mem_recordPlaces.mp hm
    exact hq d r (hroot ▸ he)

end TierCache.Disk
