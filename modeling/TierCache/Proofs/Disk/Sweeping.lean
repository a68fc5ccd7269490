import TierCache.Proofs.Disk.Reopening

/-!
# What opening sweeps away

Opening a store removes the folders of other versions, whatever is staged and the files among the
records that are none, and touches nothing else. A folder of another version goes for good, unless
the path to the root itself leads through it: then the folder is made again when the path is.
-/
namespace TierCache

/-- A folder goes with all that is in it, if the way to it does not lead through it. -/
theorem Volume.node?_clearTree_of_apart {v : Volume} {p : Path} (hv : v.Rooted) (hl : v.Leads p)
    (hd : p.endsInDot = false) (hf : v.fileAt? p.goal = none) (hp : p.goal ≠ [])
    (hway : ∀ q ∈ p.way, ¬ p.goal <+: q) (q : Place) :
    (v.apply (.clearTree p)).1.node? q = if p.goal <+: q then none else v.node? q := by
  cases hn : v.node? p.goal with
  | none =>
    rw [clearTree_of_none hl hn]
    split
    · rename_i hpre
      obtain ⟨below, rfl⟩ := hpre
      exact hv.node?_append hn below
    · rfl
  | some node =>
    cases node with
    | file bytes time =>
      rw [fileAt?, hn] at hf
      cases hf
    | folder =>
      have hk : v.look p = .ok (p.goal, .folder) := look_eq_ok_iff.mpr ⟨hl, rfl, hn⟩
      have hc : v.contains p = true := by simp [contains, hk, Except.toBool]
      -- the emptied folder is still found, so that it can be removed itself
      have hemptied : ({ v with nodes := v.nodes.clear p.goal } : Volume).contains p = true := by
        have hlook : ({ v with nodes := v.nodes.clear p.goal } : Volume).look p =
            .ok (p.goal, .folder) := by
          refine look_eq_ok_iff.mpr ⟨⟨hl.1, fun q hq => ?_⟩, rfl, ?_⟩
          · rw [node?_clearNodes, if_neg fun h => hway q hq h.1, hl.2 q hq]
          · rw [node?_clearNodes, if_neg fun h => h.2 rfl, hn]
        simp [contains, hlook, Except.toBool]
      rw [apply, if_pos hc, removeTree, hk]
      simp only [hemptied, hd, Bool.not_true, Bool.false_eq_true, if_false]
      rw [node?_eraseNode (v := { v with nodes := v.nodes.clear p.goal }), node?_clearNodes]
      by_cases hq : q = p.goal
      · rw [if_pos ⟨hq, hq ▸ hp⟩, if_pos (hq ▸ List.prefix_refl _)]
      · rw [if_neg fun h => hq h.1]
        simp only [hq, ne_eq, not_false_eq_true, and_true]

namespace Disk

variable {v w : Volume} {root : Path} {version : UInt32}

/-- A folder of another version has this name. -/
def IsOther (version : UInt32) (name : String) : Prop :=
  isVersionName name = true ∧ name ≠ versionName version

/-- The way to the root leads through a folder of another version in it. -/
def Tangled (root : Path) (version : UInt32) : Prop :=
  ∃ q ∈ root.way, ∃ name, IsOther version name ∧ root.goal ++ [name] <+: q

/-- The place is in a folder of another version, or is that folder. -/
def InOther (v : Volume) (root : Path) (version : UInt32) (q : Place) : Prop :=
  ∃ name, IsOther version name ∧ v.node? (root.goal ++ [name]) = some .folder ∧
    root.goal ++ [name] <+: q

/-- Whatever opening removes has a path that can be followed. -/
structure Sweepable (v : Volume) (root : Path) (version : UInt32) : Prop where
  others : ∀ name, IsOther version name → v.node? (root.goal ++ [name]) = some .folder →
    Volume.refusal (root.join name) = none
  strays : ∀ r name, Digest.parse? name = none →
    (v.fileAt? (slot (homeOf root version) r name)).isSome →
    Path.IsName name ∧ Volume.refusal ((folder (homeOf root version) r).join name) = none

theorem IsOther.isName {name : String} (h : IsOther version name) : Path.IsName name :=
  isName_of_isVersionName h.1

theorem IsOther.not_prefix {name : String} (hn : IsOther version name)
    (ht : ¬ Tangled root version) {q : Place} (hq : q ∈ root.way ∨ q = root.goal) :
    ¬ root.goal ++ [name] <+: q := by
  intro hpre
  rcases hq with hq | rfl
  · exact ht ⟨q, hq, name, hn, hpre⟩
  · have hlen := hpre.length_le
    rw [List.length_append, List.length_singleton] at hlen
    omega

/-- Folders of one parent go one by one, as none is on the way to the others. -/
theorem node?_clearEach {ps : List Path} (hv : v.Rooted) (hroot : v.isFolder root = true)
    (ht : ¬ Tangled root version)
    (hps : ∀ p ∈ ps, ∃ name, p = root.join name ∧ IsOther version name ∧
      Volume.refusal p = none ∧ v.fileAt? p.goal = none) (q : Place) :
    (clearEach v ps).node? q = if ∃ p ∈ ps, p.goal <+: q then none else v.node? q := by
  induction ps generalizing v with
  | nil => simp [clearEach]
  | cons p ps ih =>
    obtain ⟨name, rfl, hother, hfree, hfile⟩ := hps p List.mem_cons_self
    obtain ⟨hl, hfolder⟩ := Volume.isFolder_iff.mp hroot
    have hgoal := Path.goal_join root hother.isName
    have hne : name ≠ "" := by
      rintro rfl
      exact absurd hother.isName.1 (by decide)
    have hway : ∀ q, q ∈ root.way ∨ q = root.goal → ¬ (root.join name).goal <+: q := by
      intro q hq
      rw [hgoal]
      exact hother.not_prefix ht hq
    have hclear := Volume.node?_clearTree_of_apart hv (Volume.leads_join hfree hl hfolder)
      (endsInDot_join hother.isName hne) hfile (by simp [hgoal])
      fun q hq => hway q (Path.mem_way_join.mp hq)
    have hroot' : (v.apply (.clearTree (root.join name))).1.isFolder root = true := by
      refine Volume.isFolder_iff.mpr ⟨⟨hl.1, fun q hq => ?_⟩, ?_⟩
      · rw [hclear, if_neg (hway q (.inl hq)), hl.2 q hq]
      · rw [hclear, if_neg (hway _ (.inr rfl)), hfolder]
    have hps' : ∀ p ∈ ps, ∃ name', p = root.join name' ∧ IsOther version name' ∧
        Volume.refusal p = none ∧
        (v.apply (.clearTree (root.join name))).1.fileAt? p.goal = none := by
      intro p hp
      obtain ⟨name', hp', hother', hfree', hfile'⟩ := hps p (List.mem_cons_of_mem _ hp)
      refine ⟨name', hp', hother', hfree', ?_⟩
      rw [Volume.fileAt?, hclear]
      by_cases hpre : (root.join name).goal <+: p.goal
      · rw [if_pos hpre]
      · rw [if_neg hpre]
        exact hfile'
    rw [clearEach_cons, ih (hv.apply _) hroot' hps', hclear]
    by_cases hpre : (root.join name).goal <+: q
    · simp [hpre]
    · simp [hpre]

theorem removeStale_of_not_inOther (hl : v.Leads root) {q : Place}
    (hq : ¬ InOther v root version q) :
    (removeStale v root (versionName version)).node? q = v.node? q := by
  refine ((clearEach_keeps v _).2 q).resolve_right ?_
  rintro ⟨-, p, hp, hpre⟩
  obtain ⟨name, hname, hne, hm, rfl⟩ := mem_staleVersions.mp hp
  rw [Path.goal_join root (isName_of_isVersionName hname)] at hpre
  exact hq ⟨name, ⟨hname, hne⟩, (Volume.mem_children_iff hl).mp hm, hpre⟩

/-- The folders of other versions go that were there before the root was made. -/
theorem removeStale_of_inOther {v₁ : Volume} (hv : v.Rooted)
    (h₁ : v.makeFolders root = (v₁, none)) (ht : ¬ Tangled root version)
    (hothers : ∀ name, IsOther version name → v.node? (root.goal ++ [name]) = some .folder →
      Volume.refusal (root.join name) = none) {q : Place} (hq : InOther v root version q) :
    (removeStale v₁ root (versionName version)).node? q = none := by
  have hroot := Volume.isFolder_of_makeFolders h₁
  have hl := (Volume.isFolder_iff.mp hroot).1
  have hv₁ := hv.makeFolders root
  rw [h₁] at hv₁
  have hsame : ∀ name, IsOther version name →
      v₁.node? (root.goal ++ [name]) = v.node? (root.goal ++ [name]) := by
    intro name hother
    rw [Volume.node?_makeFolders h₁, if_neg]
    exact fun hway => hother.not_prefix ht hway (List.prefix_refl _)
  have hps : ∀ p ∈ staleVersions v₁ root (versionName version), ∃ name, p = root.join name ∧
      IsOther version name ∧ Volume.refusal p = none ∧ v₁.fileAt? p.goal = none := by
    intro p hp
    obtain ⟨name, hname, hne, hm, rfl⟩ := mem_staleVersions.mp hp
    have hother : IsOther version name := ⟨hname, hne⟩
    have hn := (Volume.mem_children_iff hl).mp hm
    have hfree := hothers name hother (by rw [← hsame name hother, hn])
    refine ⟨name, rfl, hother, hfree, Volume.fileAt?_of_folder ?_⟩
    rw [Path.goal_join root hother.isName, hn]
  obtain ⟨name, hother, hfolder, hpre⟩ := hq
  refine (node?_clearEach hv₁ hroot ht hps q).trans (if_pos ⟨root.join name, ?_, ?_⟩)
  · refine mem_staleVersions.mpr ⟨name, hother.1, hother.2, ?_, rfl⟩
    rw [Volume.mem_children_iff hl, hsame name hother, hfolder]
  · rw [Path.goal_join root hother.isName]
    exact hpre

/-- A place that is in no folder of another version is left as it was before the root was made,
unless it is made itself. -/
theorem node?_removeStale {v₁ : Volume} (hv : v.Rooted) (h₁ : v.makeFolders root = (v₁, none))
    {q : Place} (hway : ¬ (q ∈ root.way ∨ q = root.goal)) (hq : ¬ InOther v root version q) :
    (removeStale v₁ root (versionName version)).node? q = v.node? q := by
  have hsame : v₁.node? q = v.node? q := by
    rw [Volume.node?_makeFolders h₁, if_neg hway]
  have hl := (Volume.isFolder_iff.mp (Volume.isFolder_of_makeFolders h₁)).1
  by_cases hother : InOther v₁ root version q
  · -- the folder of the other version has come with the way, and nothing was below it
    obtain ⟨name, hname, hfolder, hpre⟩ := hother
    have hnone : v.node? (root.goal ++ [name]) = none := by
      have hf := (Volume.makeFolders_keeps v root).2.1 (root.goal ++ [name])
      rw [h₁, Volume.fileAt?_of_folder hfolder] at hf
      cases hn : v.node? (root.goal ++ [name]) with
      | none => rfl
      | some node =>
        cases node with
        | folder => exact absurd ⟨name, hname, hn, hpre⟩ hq
        | file bytes time =>
          rw [Volume.fileAt?, hn] at hf
          cases hf
    obtain ⟨below, rfl⟩ := hpre
    rw [hv.node?_append hnone below] at hsame ⊢
    rcases (clearEach_keeps v₁ (staleVersions v₁ root (versionName version))).2
      (root.goal ++ [name] ++ below) with h | ⟨h, -⟩
    · exact h.trans hsame
    · exact h
  · rw [removeStale_of_not_inOther hl hother, hsame]

theorem mem_folders_homeOf_of_way {q : Place} (hq : q ∈ root.way ∨ q = root.goal) :
    q ∈ folders (homeOf root version) := mem_folders.mpr (.inl (.inl (mem_way_homeOf.mpr hq)))

/-- What is in a folder of another version is not in the home. -/
theorem InOther.not_home {q : Place} (hq : InOther v root version q) :
    ¬ (homeOf root version).goal <+: q := by
  obtain ⟨name, hother, -, hpre⟩ := hq
  rw [goal_homeOf]
  intro hhome
  have heq := (List.prefix_of_prefix_length_le hpre hhome (by simp)).eq_of_length (by simp)
  exact hother.2 (by simpa using heq)

/-- No folder of the home is in that of another version, unless the way leads there. -/
theorem InOther.not_mem_folders {q : Place} (hq : InOther v root version q)
    (ht : ¬ Tangled root version) : q ∉ folders (homeOf root version) := by
  have hhome := hq.not_home
  obtain ⟨name, hother, -, hpre⟩ := hq
  rw [mem_folders, mem_way_homeOf, goal_folder, goal_folder, goal_staging]
  rintro ((h | rfl) | rfl | rfl | rfl)
  · exact hother.not_prefix ht h hpre
  · exact hhome (List.prefix_refl _)
  · exact hhome (List.prefix_append _ _)
  · exact hhome (List.prefix_append _ _)
  · exact hhome (List.prefix_append _ _)

/-- A stray goes, if it has a name and its path can be followed. -/
theorem fileAt?_discardStrays_stray {home : Path} (hs : Standing home v) (hr : Roomy home)
    {r : Retention} {name : String} (hn : Digest.parse? name = none)
    (hfree : (v.fileAt? (slot home r name)).isSome →
      Path.IsName name ∧ Volume.refusal ((folder home r).join name) = none) :
    (discardAll v (strays v home .normal ++ strays v home .always)).fileAt? (slot home r name) =
      none := by
  rw [fileAt?_discardAll]
  split
  · rfl
  rename_i hkept
  cases hf : v.fileAt? (slot home r name) with
  | none => rfl
  | some f =>
    obtain ⟨bytes, time⟩ := f
    obtain ⟨hname, hfree⟩ := hfree (by rw [hf]; rfl)
    have hl := hs.leads_folder hr r
    have hm : (folder home r).join name ∈ strays v home r := by
      refine mem_strays.mpr ⟨name, bytes, time, (Volume.mem_children_iff hl).mpr ?_, hn, rfl⟩
      rw [goal_folder_append, Volume.fileAt?_eq_some_iff.mp hf]
    have hmem : (folder home r).join name ∈ strays v home .normal ++ strays v home .always := by
      cases r with
      | normal => exact List.mem_append_left _ hm
      | always => exact List.mem_append_right _ hm
    refine absurd ⟨_, hmem, Volume.leads_join hfree hl (hs.node?_folder r), ?_⟩ hkept
    rw [Path.goal_join _ hname, goal_folder_append]

/-- What is not in the folders of records stays, whatever the strays are called. -/
theorem fileAt?_discardStrays_of_ne {home : Path} (hs : Standing home v) {q : Place}
    (hq : ∀ r name, q ≠ slot home r name) :
    (discardAll v (strays v home .normal ++ strays v home .always)).fileAt? q = v.fileAt? q := by
  rw [fileAt?_discardAll]
  split
  · rename_i hgone
    obtain ⟨p, hp, -, rfl⟩ := hgone
    obtain ⟨r, hp⟩ : ∃ r, p ∈ strays v home r :=
      (List.mem_append.mp hp).elim (⟨_, ·⟩) (⟨_, ·⟩)
    obtain ⟨name, -, hgoal⟩ := goal_of_mem_strays hp
    -- the name is a dot, or two, and leads to a folder
    rw [Volume.fileAt?_of_folder]
    rw [Path.advance] at hgoal
    split at hgoal
    · rw [hgoal]
      exact hs.node?_folder r
    · split at hgoal
      · rw [hgoal, goal_folder, List.dropLast_concat]
        exact hs.root_folder
      · rw [goal_folder_append] at hgoal
        exact absurd hgoal (hq r name)
  · rfl

/-- What opening leaves of all that is no record. -/
structure Swept (v : Volume) (root : Path) (version : UInt32) (w : Volume) : Prop where
  standing : Standing (homeOf root version) w
  /-- Folders stay among the records, and come there only on the way to the home. -/
  subfolders : ∀ r name, w.node? (slot (homeOf root version) r name) = some .folder ↔
    v.node? (slot (homeOf root version) r name) = some .folder ∨
      slot (homeOf root version) r name ∈ (homeOf root version).way
  strays : ∀ r name, Digest.parse? name = none →
    w.fileAt? (slot (homeOf root version) r name) = none
  staged : ∀ below, below ≠ [] →
    (staging (homeOf root version)).goal ++ below ∉ (homeOf root version).way →
    w.node? ((staging (homeOf root version)).goal ++ below) = none
  /-- The folders of other versions are gone, if none is made again on the way to the root. -/
  others : ¬ Tangled root version → ∀ q, InOther v root version q → w.node? q = none
  untouched : ∀ q, q ∉ folders (homeOf root version) → ¬ InOther v root version q →
    ¬ (staging (homeOf root version)).goal <+: q →
    (∀ r name, q ≠ slot (homeOf root version) r name) → w.node? q = v.node? q

variable {s : Store} {capacity : Nat}

/-- That the folders of other versions can be reached is only asked where they are said to go. -/
theorem swept_of (hr : Roomy (homeOf root version)) (hv : v.Rooted)
    (hothers : ¬ Tangled root version → ∀ name, IsOther version name →
      v.node? (root.goal ++ [name]) = some .folder → Volume.refusal (root.join name) = none)
    (hstrays : ∀ r name, Digest.parse? name = none →
      (v.fileAt? (slot (homeOf root version) r name)).isSome →
      Path.IsName name ∧ Volume.refusal ((folder (homeOf root version) r).join name) = none)
    (ho : Store.open? v root version capacity = (some s, w)) : Swept v root version w := by
  obtain ⟨-, v₁, v₃, h₁, h₃, hbuilt⟩ := open?_steps ho
  have hn₁ := Volume.node?_makeFolders h₁
  have hf₁ := (Volume.makeFolders_keeps v root).2.1
  rw [h₁] at hf₁
  have hstage : v.node? (staging (homeOf root version)).goal = none →
      ∀ below, v.node? ((staging (homeOf root version)).goal ++ below) = none :=
    fun hn below => hv.node?_append hn below
  obtain ⟨hp, -, hslot, -⟩ := prepared_homeOf hr hstage h₁ h₃
  obtain ⟨-, hn₃⟩ := node?_prepared hr hstage h₁ h₃
  obtain ⟨s', w', blocked, pinned, hreb, -, hfold, hfile⟩ :=
    @rebuild_holds v₃ ⟨homeOf root version, capacity, .empty⟩ hp rfl
  rw [hbuilt] at hreb
  cases hreb
  have hsame : ∀ q, (∀ r name, q ≠ slot (homeOf root version) r name) →
      w.node? q = v₃.node? q := by
    intro q hq
    refine Volume.node?_congr (hfold q) ((hfile q fun d r => hq r d.text).trans ?_)
    exact fileAt?_discardStrays_of_ne hp.standing hq
  exact
    { standing := hp.standing.mono fun q hq => (hfold q).mpr hq
      subfolders := by
        intro r name
        rw [hfold, hslot, hn₁, mem_way_homeOf]
        split
        · rename_i hm
          exact iff_of_true rfl (.inr hm)
        · rename_i hm
          exact ⟨.inl, fun h => h.resolve_right hm⟩
      strays := by
        intro r name hn
        rw [hfile _ (slot_ne_recordPlace hn)]
        refine fileAt?_discardStrays_stray hp.standing hr hn fun hsome => hstrays r name hn ?_
        rw [Volume.fileAt?, hslot] at hsome
        rw [← hf₁]
        exact hsome
      staged := by
        intro below hne hway
        have hpre := List.prefix_append (staging (homeOf root version)).goal below
        rw [hsame _ fun r name he => not_staging_slot _ r name (he ▸ hpre), hn₃, if_neg,
          if_pos hpre]
        rw [mem_folders]
        rintro ((h | h) | h | h | h)
        · exact hway h
        · rw [goal_staging, List.append_assoc] at h
          simp at h
        · exact not_prefix_staging _ _ (h ▸ hpre)
        · exact not_prefix_staging _ _ (h ▸ hpre)
        · exact hne (List.append_right_eq_self.mp h)
      others := by
        intro ht q hq
        have hhome := hq.not_home
        have hslots : ∀ r name, q ≠ slot (homeOf root version) r name := by
          rintro r name rfl
          exact hhome (prefix_slot _ r name)
        rw [hsame q hslots, hn₃, if_neg (hq.not_mem_folders ht),
          if_neg fun h => hhome ((prefix_staging _).trans h),
          removeStale_of_inOther hv h₁ ht (hothers ht) hq]
      untouched := by
        intro q hq hother hstage hslots
        rw [hsame q hslots, hn₃, if_neg hq, if_neg hstage,
          node?_removeStale hv h₁ (fun hway => hq (mem_folders_homeOf_of_way hway)) hother] }

theorem swept (hr : Roomy (homeOf root version)) (hv : v.Rooted) (hsw : Sweepable v root version)
    (ho : Store.open? v root version capacity = (some s, w)) : Swept v root version w :=
  swept_of hr hv (fun _ => hsw.others) hsw.strays ho

namespace Swept

/-- No folders of other versions are left. -/
theorem not_inOther (h : Swept v root version w) (ht : ¬ Tangled root version) (q : Place) :
    ¬ InOther w root version q := by
  rintro ⟨name, hname, hfolder, -⟩
  have hself : InOther w root version (root.goal ++ [name]) :=
    ⟨name, hname, hfolder, List.prefix_refl _⟩
  have hhome := hself.not_home
  by_cases hother : InOther v root version (root.goal ++ [name])
  · rw [h.others ht _ hother] at hfolder
    cases hfolder
  · have hsame := h.untouched _ (hself.not_mem_folders ht) hother
      (fun hpre => hhome ((prefix_staging _).trans hpre))
      fun r name' he => hhome (he ▸ prefix_slot _ r name')
    exact hother ⟨name, hname, hsame ▸ hfolder, List.prefix_refl _⟩

/-- Nothing is left that another opening would have to reach. -/
theorem reswept {x : Volume} (h : Swept v root version w) (hr : Roomy (homeOf root version))
    (hw : w.Rooted) (ho : Store.open? w root version capacity = (some s, x)) :
    Swept w root version x := by
  refine swept_of hr hw (fun ht name hother hn => ?_) (fun r name hn hsome => ?_) ho
  · exact absurd ⟨name, hother, hn, List.prefix_refl _⟩ (h.not_inOther ht (root.goal ++ [name]))
  · rw [h.strays r name hn] at hsome
    cases hsome

/-- Swept again, a volume has the same at every place where there is no record and that is in no
folder of another version. -/
theorem again {x : Volume} (h : Swept v root version w) (h' : Swept w root version x)
    (hrec : ∀ d r, x.fileAt? (recordPlace (homeOf root version) d r) =
      w.fileAt? (recordPlace (homeOf root version) d r)) {q : Place}
    (hother : ¬ InOther w root version q) : x.node? q = w.node? q := by
  by_cases hq : q ∈ folders (homeOf root version)
  · rw [h'.standing q hq, h.standing q hq]
  have hway : q ∉ (homeOf root version).way := fun hm => hq (List.mem_append_left _ hm)
  by_cases hslot : ∃ r name, q = slot (homeOf root version) r name
  · obtain ⟨r, name, rfl⟩ := hslot
    refine Volume.node?_congr ((h'.subfolders r name).trans (or_iff_left hway)) ?_
    cases hn : Digest.parse? name with
    | some d =>
      obtain rfl := Digest.parse?_eq_some_iff.mp hn
      exact hrec d r
    | none => rw [h.strays r name hn, h'.strays r name hn]
  by_cases hstage : (staging (homeOf root version)).goal <+: q
  · obtain ⟨below, rfl⟩ := hstage
    have hne : below ≠ [] := by
      rintro rfl
      rw [List.append_nil] at hq
      exact hq (mem_folders.mpr (.inr (.inr (.inr rfl))))
    rw [h.staged below hne hway, h'.staged below hne hway]
  · exact h'.untouched q hq hother hstage fun r name he => hslot ⟨r, name, he⟩

end Swept

end Disk

end TierCache
