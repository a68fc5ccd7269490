import TierCache.Proofs.Disk.Copies
import TierCache.Proofs.Disk.Preparing

/-!
# Opening a store

An opened store holds the records that stood in its home, in the order of their times, as far as
its capacity reaches. Outside its root only the folders on the way there are made.
-/
namespace TierCache.Disk

def homeOf (root : Path) (version : UInt32) : Path := root.join (versionName version)

/-- What opening a store comes to. -/
structure Opened (v : Volume) (root : Path) (version : UInt32) (capacity : Nat) (s : Store)
    (w : Volume) (rows : List Row) : Prop where
  root_eq : s.root = homeOf root version
  positive : capacity ≠ 0
  followed : Volume.refusal root = none
  /-- The rows are the records that stood in the home. -/
  found : ∀ e, e ∈ rows ↔
    v.fileAt? (recordPlace (homeOf root version) e.digest e.retention) = some (e.bytes, e.time)
  ordered : rows.Pairwise Row.Precedes
  distinct : (rows.map Row.key).Nodup
  holds : ∃ blocked pinned, Holds s w (Shelf.addAll ⟨capacity, [], blocked, pinned⟩ rows).shrink
  clock : w.clock = v.clock
  files : ∀ q, ¬ root.goal <+: q → w.fileAt? q = v.fileAt? q
  folders : ∀ q, ¬ root.goal <+: q → v.node? q = some .folder → w.node? q = some .folder
  /-- No folder is made in a record's place, unless the path to the home leads through it. -/
  records : ∀ d r, w.node? (recordPlace (homeOf root version) d r) = some .folder ↔
    v.node? (recordPlace (homeOf root version) d r) = some .folder ∨
      recordPlace (homeOf root version) d r ∈ (homeOf root version).way

variable {v w : Volume} {root : Path} {version : UInt32} {capacity : Nat} {s : Store}

@[simp] theorem goal_homeOf (root : Path) (version : UInt32) :
    (homeOf root version).goal = root.goal ++ [versionName version] :=
  Path.goal_join root (isName_versionName version)

theorem mem_way_homeOf {q : Place} :
    q ∈ (homeOf root version).way ↔ q ∈ root.way ∨ q = root.goal := Path.mem_way_join

/-- Other versions are not in the home. -/
theorem node?_removeStale_home (v : Volume) (root : Path) (version : UInt32) {q : Place}
    (hq : (homeOf root version).goal <+: q) :
    (removeStale v root (versionName version)).node? q = v.node? q := by
  rcases (removeStale_keeps v root (versionName version)).2 q with h | ⟨-, name, hne, hp⟩
  · exact h
  · obtain ⟨below, rfl⟩ := hq
    rw [goal_homeOf, List.append_assoc, List.prefix_append_right_inj, List.singleton_append,
      List.cons_prefix_cons] at hp
    exact absurd hp.1 hne

theorem node?_removeStale_outside (v : Volume) (root : Path) (version : UInt32) {q : Place}
    (hq : ¬ root.goal <+: q) :
    (removeStale v root (versionName version)).node? q = v.node? q := by
  rcases (removeStale_keeps v root (versionName version)).2 q with h | ⟨-, name, -, hp⟩
  · exact h
  · exact absurd ((List.prefix_append _ _).trans hp) hq

theorem mem_folders_homeOf {q : Place} (hq : ¬ root.goal <+: q) :
    q ∈ folders (homeOf root version) ↔ q ∈ root.way := by
  have below : ∀ xs, q ≠ root.goal ++ xs := by
    rintro xs rfl
    exact hq (List.prefix_append _ _)
  have hne : q ≠ root.goal := fun h => hq (h ▸ List.prefix_refl _)
  simp [folders, mem_way_homeOf, below, hne]

theorem not_staging_slot (home : Path) (r : Retention) (name : String) :
    ¬ (staging home).goal <+: slot home r name := by
  rw [goal_staging, slot, List.prefix_append_right_inj, List.cons_prefix_cons]
  exact fun h => folderName_ne_tmp r h.1.symm

theorem slot_mem_folders (home : Path) (r : Retention) (name : String) :
    slot home r name ∈ folders home ↔ slot home r name ∈ home.way := by
  simp [folders, slot]

theorem not_prefix_homeOf {q : Place} (hq : ¬ root.goal <+: q) :
    ¬ (homeOf root version).goal <+: q := by
  rw [goal_homeOf]
  exact fun h => hq ((List.prefix_append _ _).trans h)

/-- Once the folders of the home were prepared they stand, nothing is staged, and all else is as it
was when other versions were gone. Below a missing staging folder there is nothing. -/
theorem node?_prepared {v₁ v₃ : Volume} (hr : Roomy (homeOf root version))
    (hv : v.node? (staging (homeOf root version)).goal = none →
      ∀ below, v.node? ((staging (homeOf root version)).goal ++ below) = none)
    (h₁ : v.makeFolders root = (v₁, none))
    (h₃ : (removeStale v₁ root (versionName version)).run (preparePlan (homeOf root version)) =
      (v₃, none)) :
    v₃.clock = v₁.clock ∧ ∀ q, v₃.node? q =
      if q ∈ folders (homeOf root version) then some .folder
      else if (staging (homeOf root version)).goal <+: q then none
      else (removeStale v₁ root (versionName version)).node? q := by
  have hn₁ := Volume.node?_makeFolders h₁
  have hc₂ := (removeStale_keeps v₁ root (versionName version)).1
  have hstage := prefix_staging (homeOf root version)
  obtain ⟨hc₃, hn₃⟩ := preparePlan_keeps hr h₃ (by
    intro hn below _ hf
    have hb : (homeOf root version).goal <+: (staging (homeOf root version)).goal ++ below :=
      hstage.trans (List.prefix_append _ _)
    rw [node?_removeStale_home v₁ root version hstage, hn₁] at hn
    split at hn
    · cases hn
    · rw [mem_folders, mem_way_homeOf] at hf
      rw [node?_removeStale_home v₁ root version hb, hn₁, if_neg fun h => hf (.inl (.inl h)),
        hv hn below])
  exact ⟨hc₃.trans hc₂, hn₃⟩

/-- In the home and outside the root the volume is then as it was when the root had been made. -/
theorem prepared_homeOf {v₁ v₃ : Volume} (hr : Roomy (homeOf root version))
    (hv : v.node? (staging (homeOf root version)).goal = none →
      ∀ below, v.node? ((staging (homeOf root version)).goal ++ below) = none)
    (h₁ : v.makeFolders root = (v₁, none))
    (h₃ : (removeStale v₁ root (versionName version)).run (preparePlan (homeOf root version)) =
      (v₃, none)) :
    Prepared (homeOf root version) v₃ ∧ v₃.clock = v₁.clock ∧
      (∀ r name, v₃.node? (slot (homeOf root version) r name) =
        v₁.node? (slot (homeOf root version) r name)) ∧
      ∀ q, ¬ root.goal <+: q → v₃.node? q = v₁.node? q := by
  have hn₁ := Volume.node?_makeFolders h₁
  obtain ⟨hc₃, hn₃⟩ := node?_prepared hr hv h₁ h₃
  refine ⟨prepared_of_node hr hn₃, hc₃, fun r name => ?_, fun q hq => ?_⟩
  · rw [hn₃]
    split
    · rename_i hm
      rw [slot_mem_folders, mem_way_homeOf] at hm
      rw [hn₁, if_pos hm]
    · rw [if_neg (not_staging_slot _ r name),
        node?_removeStale_home v₁ root version (prefix_slot _ r name)]
  · rw [hn₃]
    split
    · rename_i hm
      rw [mem_folders_homeOf hq] at hm
      rw [hn₁, if_pos (.inl hm)]
    · rw [if_neg fun h => not_prefix_homeOf hq ((prefix_staging _).trans h),
        node?_removeStale_outside v₁ root version hq]

/-- A store that opens has made its root, prepared its home and built its index. -/
theorem open?_steps (ho : Store.open? v root version capacity = (some s, w)) :
    capacity ≠ 0 ∧ ∃ v₁ v₃, v.makeFolders root = (v₁, none) ∧
      (removeStale v₁ root (versionName version)).run (preparePlan (homeOf root version)) =
        (v₃, none) ∧
      (⟨homeOf root version, capacity, .empty⟩ : Store).rebuild v₃ = (s, w) := by
  rw [Store.open?] at ho
  split at ho
  · cases ho
  rename_i v₁ h₁
  split at ho
  · cases ho
  rename_i hcap
  simp only at ho
  split at ho
  · cases ho
  rename_i v₃ h₃
  obtain ⟨hs, hw⟩ := Prod.mk.inj ho
  cases hs
  exact ⟨hcap, v₁, v₃, h₁, h₃, Prod.ext rfl hw⟩

/-- A store opens to what `Opened` tells. Below a missing staging folder there is nothing. -/
theorem opened (hr : Roomy (homeOf root version))
    (hv : v.node? (staging (homeOf root version)).goal = none →
      ∀ below, v.node? ((staging (homeOf root version)).goal ++ below) = none)
    (ho : Store.open? v root version capacity = (some s, w)) :
    ∃ rows, Opened v root version capacity s w rows := by
  obtain ⟨hcap, v₁, v₃, h₁, h₃, hbuilt⟩ := open?_steps ho
  have hn₁ := Volume.node?_makeFolders h₁
  obtain ⟨hc₁, hf₁, hd₁⟩ := Volume.makeFolders_keeps v root
  rw [h₁] at hc₁ hf₁ hd₁
  simp only at hc₁ hf₁ hd₁
  obtain ⟨hp, hc₃, hslot, hout⟩ := prepared_homeOf hr hv h₁ h₃
  have hrec : ∀ d r, v₃.node? (recordPlace (homeOf root version) d r) =
      v₁.node? (recordPlace (homeOf root version) d r) := fun d r => hslot r d.text
  have file : ∀ {x y : Volume} {q}, x.node? q = y.node? q → x.fileAt? q = y.fileAt? q := by
    intro x y q h
    rw [Volume.fileAt?, h]
    rfl
  obtain ⟨s', w', blocked, pinned, hreb, hres, hfold, -⟩ :=
    @rebuild_holds v₃ ⟨homeOf root version, capacity, .empty⟩ hp rfl
  rw [hbuilt] at hreb
  cases hreb
  refine ⟨rowsOf v₃ (homeOf root version),
    { root_eq := hres.root
      positive := hcap
      followed := (Volume.isFolder_iff.mp (Volume.isFolder_of_makeFolders h₁)).1.1
      found := fun e => ?_
      ordered := precedes_rowsOf _ _
      distinct := nodup_rowsOf _ _
      holds := ⟨blocked, pinned, hres.holds⟩
      clock := hres.frame.clock.trans (hc₃.trans hc₁)
      files := fun q hq => ?_
      folders := fun q hq hd => ?_
      records := fun d r => ?_ }⟩
  · rw [mem_rowsOf (hp.standing.leads_folder hr), file (hrec _ _), hf₁]
  · rw [file (hres.frame.outside q (not_prefix_homeOf hq)), file (hout q hq), hf₁]
  · rw [hres.frame.outside q (not_prefix_homeOf hq), hout q hq, hd₁ q hd]
  · rw [hfold, hrec, hn₁, mem_way_homeOf]
    split
    · rename_i hm
      exact iff_of_true rfl (.inr hm)
    · rename_i hm
      exact ⟨.inl, fun h => h.resolve_right hm⟩

theorem Opened.sorted {rows : List Row} (h : Opened v root version capacity s w rows) :
    rows.Pairwise fun a b => a.time ≤ b.time := h.ordered.imp Row.Precedes.le

/-- A store can be opened where its root can be made and no file is in the way of its folders. -/
theorem open_of_free {v₁ : Volume} (hr : Roomy (homeOf root version))
    (hm : v.makeFolders root = (v₁, none)) (hc : capacity ≠ 0)
    (hf : ∀ q ∈ folders (homeOf root version), v.fileAt? q = none) :
    ∃ s w, Store.open? v root version capacity = (some s, w) := by
  have hfile : ∀ q ∈ folders (homeOf root version),
      (removeStale v₁ root (versionName version)).fileAt? q = none := by
    intro q hq
    have hk := (Volume.makeFolders_keeps v root).2.1 q
    rw [hm, hf q hq] at hk
    rcases (removeStale_keeps v₁ root (versionName version)).2 q with h | ⟨h, -⟩
    · rw [Volume.fileAt?, h]
      exact hk
    · rw [Volume.fileAt?, h]
  obtain ⟨w, hw⟩ := preparePlan_ok hr hfile
  have hw' : (removeStale v₁ root (versionName version)).run
    (preparePlan (root.join (versionName version))) = (w, none) := hw
  simp only [Store.open?, hm, hc, if_false, hw']
  exact ⟨_, _, rfl⟩

/-- Where the folders of a store stand it can be opened again. -/
theorem open_of_standing (hr : Roomy (homeOf root version))
    (hs : Standing (homeOf root version) v) (hf : Volume.refusal root = none)
    (hc : capacity ≠ 0) : ∃ s w, Store.open? v root version capacity = (some s, w) := by
  have hroot : v.isFolder root = true := by
    refine Volume.isFolder_iff.mpr ⟨⟨hf, fun q hq => ?_⟩, ?_⟩
    · exact hs q (mem_folders.mpr (.inl (.inl (mem_way_homeOf.mpr (.inl hq)))))
    · exact hs _ (mem_folders.mpr (.inl (.inl (mem_way_homeOf.mpr (.inr rfl)))))
  exact open_of_free hr (Volume.makeFolders_of_isFolder hroot) hc fun q hq =>
    Volume.fileAt?_of_folder (hs q hq)

/-- The records that are found again are the rows of the shelf that was left. -/
theorem Opened.perm {s' : Store} {sh : Shelf} {rows : List Row} (h : Holds s' v sh)
    (hs : s'.root = homeOf root version) (ho : Opened v root version capacity s w rows) :
    rows.Perm sh.rows := by
  have hn : rows.Nodup :=
    List.Pairwise.of_map Row.key (fun _ _ hne he => hne (he ▸ rfl)) ho.distinct
  refine (List.perm_ext_iff_of_nodup hn h.distinct.nodup).mpr fun e => ?_
  rw [ho.found, ← hs, h.mem_rows]

theorem roomy_store : Roomy (homeOf ⟨["store"]⟩ 1) := ⟨by decide, by decide, by decide⟩

theorem node?_empty {q : Place} (h : q ≠ []) : Volume.empty.node? q = none := by
  rw [Volume.node?, if_neg h]
  rfl

theorem fileAt?_empty (q : Place) : Volume.empty.fileAt? q = none := by
  by_cases hq : q = []
  · rw [hq]
    rfl
  · rw [Volume.fileAt?, node?_empty hq]

theorem rooted_empty : Volume.empty.Rooted := by
  intro place name h
  rw [node?_empty (by simp)] at h
  cases h

theorem open_store : ∃ s w, Store.open? Volume.empty ⟨["store"]⟩ 1 100 = (some s, w) := by
  have hm : (Volume.empty.makeFolders ⟨["store"]⟩).2 = none := by decide
  exact open_of_free roomy_store (Prod.ext rfl hm) (by decide) fun q _ => fileAt?_empty q

/-- Every record can be written there. -/
theorem isBlocked_store {s : Store} {w : Volume}
    (h : Store.open? Volume.empty ⟨["store"]⟩ 1 100 = (some s, w)) (d : Digest) (r : Retention) :
    isBlocked s w d r = false := by
  obtain ⟨rows, hop⟩ := opened roomy_store (fun hn below => rooted_empty.node?_append hn below) h
  obtain ⟨b, p, hh⟩ := hop.holds
  have hway : (homeOf ⟨["store"]⟩ 1).way = [[], ["store"]] := by decide
  have hgoal : (homeOf ⟨["store"]⟩ 1).goal = ["store", "v1"] := by decide
  have hs := hh.agrees.staged
  have hc : w.children (staging s.root) = [] := by
    rw [List.eq_nil_iff_forall_not_mem]
    rintro ⟨name, node⟩ hm
    rw [Volume.mem_children_iff (hh.agrees.standing.leads_staging hh.agrees.roomy), goal_staging,
      List.append_assoc] at hm
    rw [show ["tmp"] ++ [name] = ["tmp", name] from rfl, hs, if_neg] at hm
    · cases hm
    · rw [hop.root_eq, hway, hgoal]
      simp
  rw [isBlocked_eq_false, canStage_iff]
  have hf : w.freshName (staging s.root) = "stage100000" := by
    rw [Volume.freshName, hc]
    rfl
  refine ⟨⟨?_, ?_⟩, fun hn => ?_⟩
  · rw [Store.stagePath, hf, hop.root_eq]
    decide
  · rw [hf]
    decide
  · rw [hop.root_eq, hop.records, node?_empty (recordPlace_ne_nil _ d r), hway, recordPlace,
      hgoal] at hn
    simp at hn

end TierCache.Disk
