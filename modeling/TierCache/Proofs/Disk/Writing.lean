import Std.Data.String.ToNat
import TierCache.Proofs.Disk.Agreement

/-!
# Writing a record

A write is staged under a free name. It comes to one of two ends: where nothing can be staged, or a
folder stands in the record's place, every place is left as it was, and otherwise the record
stands there afterwards, alone, with the time of the write.
-/
namespace TierCache.Disk

variable {s s' : Store} {v w : Volume} {d : Digest} {r : Retention} {bytes : List UInt8}

theorem size_stageName (n : Nat) : 5 ≤ (Volume.stageName n).utf8ByteSize := by
  rw [Volume.stageName, String.utf8ByteSize_append]
  have : ("stage" : String).utf8ByteSize = 5 := by decide
  omega

theorem isName_stageName (n : Nat) : Path.IsName (Volume.stageName n) := by
  have h := size_stageName n
  constructor
  · rw [Path.isStill, Bool.or_eq_false_iff, decide_eq_false_iff_not, decide_eq_false_iff_not]
    constructor
    · intro he
      rw [he] at h
      exact absurd h (by decide)
    · intro he
      rw [he] at h
      exact absurd h (by decide)
  · intro he
    rw [he] at h
    exact absurd h (by decide)

theorem stageName_injective {m n : Nat} (h : Volume.stageName m = Volume.stageName n) : m = n := by
  have h' := congrArg String.toList h
  simp only [Volume.stageName, String.toList_append] at h'
  have := Nat.repr_injective (String.toList_inj.mp (List.append_cancel_left h'))
  omega

/-- There are more numbered names than names in the folder, so one of them is free. -/
theorem freshName_eq (v : Volume) (p : Path) :
    ∃ n, v.freshName p = Volume.stageName n ∧
      v.freshName p ∉ (v.children p).map Prod.fst := by
  unfold Volume.freshName
  generalize (v.children p).map Prod.fst = taken
  simp only
  cases hf : ((List.range (taken.length + 1)).map Volume.stageName).find?
      fun name => !taken.contains name with
  | some name =>
    have hm := List.mem_of_find?_eq_some hf
    have hp := List.find?_some hf
    obtain ⟨n, -, rfl⟩ := List.mem_map.mp hm
    exact ⟨n, rfl, by simpa using hp⟩
  | none =>
    have hall : (List.range (taken.length + 1)).map Volume.stageName ⊆ taken := by
      intro name hm
      simpa using List.find?_eq_none.mp hf name hm
    have hn : ((List.range (taken.length + 1)).map Volume.stageName).Nodup :=
      List.Pairwise.map Volume.stageName (fun _ _ hne he => hne (stageName_injective he))
        List.nodup_range
    have := List.Nodup.length_le_of_subset hn hall
    rw [List.length_map, List.length_range] at this
    omega

/-- The free name depends on the taken ones only, in any order. -/
theorem freshName_congr {p : Path} (hv : v.Leads p) (hw : w.Leads p)
    (h : ∀ name, w.node? (p.goal ++ [name]) = none ↔ v.node? (p.goal ++ [name]) = none) :
    w.freshName p = v.freshName p := by
  have mem : ∀ {x : Volume}, x.Leads p → ∀ name,
      name ∉ (x.children p).map Prod.fst ↔ x.node? (p.goal ++ [name]) = none := by
    intro x hx name
    rw [Option.eq_none_iff_forall_ne_some, List.mem_map]
    constructor
    · exact fun hn n he => hn ⟨(name, n), (Volume.mem_children_iff hx).mpr he, rfl⟩
    · rintro hn ⟨⟨_, n⟩, hm, rfl⟩
      exact hn n ((Volume.mem_children_iff hx).mp hm)
  have hp : ((w.children p).map Prod.fst).Perm ((v.children p).map Prod.fst) := by
    refine (List.perm_ext_iff_of_nodup (w.nodup_children p) (v.nodup_children p)).mpr fun name => ?_
    rw [← Decidable.not_iff_not, mem hw, mem hv, h]
  have hc : ∀ name, ((w.children p).map Prod.fst).contains name =
      ((v.children p).map Prod.fst).contains name := by
    intro name
    rw [Bool.eq_iff_iff, List.contains_iff_mem, List.contains_iff_mem, hp.mem_iff]
  simp only [Volume.freshName, hp.length_eq, hc]

/-- Where a write is staged. -/
def stagePlace (s : Store) (v : Volume) : Place :=
  s.root.goal ++ ["tmp", v.freshName (staging s.root)]

@[simp] theorem goal_stagePath (s : Store) (v : Volume) :
    (s.stagePath v).goal = stagePlace s v := by
  obtain ⟨n, hn, -⟩ := freshName_eq v (staging s.root)
  rw [Store.stagePath, stagePlace, hn, Path.goal_join _ (isName_stageName n), goal_staging,
    List.append_assoc]
  rfl

@[simp] theorem stagePlace_ne_nil (s : Store) (v : Volume) : stagePlace s v ≠ [] := by
  simp [stagePlace]

theorem getLast?_stagePlace (s : Store) (v : Volume) :
    (stagePlace s v).getLast? = some (v.freshName (staging s.root)) := by
  simp [stagePlace]

@[simp] theorem getLast?_recordPlace (root : Path) (d : Digest) (r : Retention) :
    (recordPlace root d r).getLast? = some d.text := by
  simp [recordPlace]

/-- The name for a staged file is free. -/
theorem node?_stagePlace (h : v.Leads (staging s.root)) : v.node? (stagePlace s v) = none := by
  obtain ⟨-, -, hn⟩ := freshName_eq v (staging s.root)
  rw [Option.eq_none_iff_forall_ne_some]
  intro n he
  refine hn (List.mem_map.mpr ⟨(_, n), ?_, rfl⟩)
  rw [Volume.mem_children_iff h, goal_staging, List.append_assoc]
  exact he

theorem Agrees.node?_stagePlace (h : Agrees s v) : v.node? (stagePlace s v) = none :=
  TierCache.Disk.node?_stagePlace (h.standing.leads_staging h.roomy)

/-- Staged files come and go, so the name for the next one stays. -/
theorem Agrees.freshName_eq (h : Agrees s v) (h' : Agrees s' w) (hr : s'.root = s.root) :
    w.freshName (staging s'.root) = v.freshName (staging s.root) := by
  have hs := h'.staged
  have hl := h'.standing.leads_staging h'.roomy
  rw [hr] at hs hl ⊢
  refine freshName_congr (h.standing.leads_staging h.roomy) hl fun name => ?_
  rw [goal_staging, List.append_assoc]
  exact iff_of_eq (congrArg (· = none) ((hs name).trans (h.staged name).symm))

def canStage (s : Store) (v : Volume) : Bool :=
  (Volume.refusal (s.stagePath v)).isNone && !Path.isLongName (v.freshName (staging s.root))

/-- Nothing can be staged, or a folder keeps a record from its place. -/
def isBlocked (s : Store) (v : Volume) (d : Digest) (r : Retention) : Bool :=
  !canStage s v || v.node? (recordPlace s.root d r) = some .folder

theorem canStage_iff : canStage s v = true ↔ Volume.refusal (s.stagePath v) = none ∧
    Path.isLongName (v.freshName (staging s.root)) = false := by
  rw [canStage, Bool.and_eq_true, Option.isNone_iff_eq_none, Bool.not_eq_true']

theorem isBlocked_eq_false : isBlocked s v d r = false ↔
    canStage s v = true ∧ v.node? (recordPlace s.root d r) ≠ some .folder := by
  rw [isBlocked, Bool.or_eq_false_iff, Bool.not_eq_false', decide_eq_false_iff_not]

theorem Agrees.canStage_eq (h : Agrees s v) (h' : Agrees s' w) (hr : s'.root = s.root) :
    canStage s' w = canStage s v := by
  have hf := h.freshName_eq h' hr
  rw [canStage, canStage, Store.stagePath, Store.stagePath, hf, hr]

theorem Agrees.isBlocked_eq (h : Agrees s v) (h' : Agrees s' w) (hr : s'.root = s.root)
    (hd : ∀ q, w.node? q = some .folder ↔ v.node? q = some .folder) :
    isBlocked s' w d r = isBlocked s v d r := by
  rw [isBlocked, isBlocked, h.canStage_eq h' hr, hr]
  simp only [hd]

/-- A volume on which some bytes are staged, and nothing else has changed. -/
structure Staged (s : Store) (v : Volume) (bytes : List UInt8) (w : Volume) : Prop where
  node : ∀ q, w.node? q = if q = stagePlace s v then some (.file bytes v.clock) else v.node? q
  clock : w.clock = v.clock

namespace Staged

theorem folder (hw : Staged s v bytes w) (hn : v.node? (stagePlace s v) = none) (q : Place) :
    w.node? q = some .folder ↔ v.node? q = some .folder := by
  rw [hw.node]
  split
  · rename_i hq
    rw [hq, hn]
    simp
  · rfl

theorem standing (hw : Staged s v bytes w) (h : Agrees s v) : Standing s.root w :=
  h.standing.mono fun q hq => (hw.folder h.node?_stagePlace q).mpr hq

theorem fileAt? (hw : Staged s v bytes w) (q : Place) :
    w.fileAt? q = if q = stagePlace s v then some (bytes, v.clock) else v.fileAt? q := by
  rw [Volume.fileAt?, hw.node, Volume.fileAt?]
  by_cases hq : q = stagePlace s v
  · simp [hq]
  · simp [hq]

theorem leads (hw : Staged s v bytes w) (h : Agrees s v) (hc : canStage s v = true) :
    w.Leads (s.stagePath v) :=
  Volume.leads_join (canStage_iff.mp hc).1 ((hw.standing h).leads_staging h.roomy)
    (hw.standing h).node?_staging

theorem filePlace (hw : Staged s v bytes w) (h : Agrees s v)
    (hf : v.node? (recordPlace s.root d r) ≠ some .folder) :
    w.filePlace (s.pathOf d r) = .ok (recordPlace s.root d r) := by
  rw [Volume.filePlace_eq_ok_iff, Store.pathOf, goal_recordPath, getLast?_recordPlace]
  refine ⟨(hw.standing h).leads_recordPath h.roomy d r, rfl, ?_, ?_⟩
  · rw [Ne, hw.folder h.node?_stagePlace]
    exact hf
  · exact d.isLongName_text

end Staged

theorem Agrees.createFile (h : Agrees s v) (hc : canStage s v = true) :
    ∃ w, v.apply (.createFile (s.stagePath v)) = (w, none) ∧ Staged s v [] w := by
  obtain ⟨hf, hn⟩ := canStage_iff.mp hc
  have hl : v.Leads (s.stagePath v) := Volume.leads_join hf
    (h.standing.leads_staging h.roomy) h.standing.node?_staging
  have hp : v.filePlace (s.stagePath v) = .ok (stagePlace s v) := by
    rw [Volume.filePlace_eq_ok_iff, goal_stagePath, h.node?_stagePlace, getLast?_stagePlace]
    exact ⟨hl, rfl, by simp, hn⟩
  refine ⟨v.setNode (stagePlace s v) (.file [] v.clock), ?_, ?_, rfl⟩
  · simp only [Volume.apply, Volume.writeFile, hp]
    rfl
  · exact fun q => Volume.node?_setNode (stagePlace_ne_nil s v)

theorem createFile_error (hc : canStage s v = false) :
    ∃ err, v.apply (.createFile (s.stagePath v)) = (v, some err) := by
  cases hp : v.filePlace (s.stagePath v) with
  | error err =>
    refine ⟨err, ?_⟩
    simp only [Volume.apply, Volume.writeFile, hp]
    rfl
  | ok q =>
    obtain ⟨hl, rfl, -, hn⟩ := Volume.filePlace_eq_ok_iff.mp hp
    rw [goal_stagePath, getLast?_stagePlace] at hn
    rw [canStage_iff.mpr ⟨hl.1, hn⟩] at hc
    cases hc

theorem Staged.append (hw : Staged s v [] w) (hl : w.Leads (s.stagePath v)) (bytes : List UInt8) :
    ∃ x, w.apply (.append (s.stagePath v) bytes) = (x, none) ∧ Staged s v bytes x := by
  have ha := Volume.append_of_file hl (by rw [goal_stagePath, hw.fileAt?, if_pos rfl]) bytes
  refine ⟨w.setNode (s.stagePath v).goal (.file ([] ++ bytes) w.clock), ?_, ?_, hw.clock⟩
  · rw [Volume.apply, ha]
    rfl
  · intro q
    rw [goal_stagePath, Volume.node?_setNode (stagePlace_ne_nil s v), hw.clock,
      List.nil_append, hw.node]
    by_cases hq : q = stagePlace s v
    · simp [hq]
    · simp [hq]

/-- Moved to its place, the staged file stands there with the time of the write. -/
theorem Staged.moveFile (hw : Staged s v bytes w) (h : Agrees s v) (hc : canStage s v = true)
    (hf : v.node? (recordPlace s.root d r) ≠ some .folder) :
    ∃ x, w.apply (.moveFile (s.stagePath v) (s.pathOf d r)) = (x, none) ∧
      (∀ q, x.node? q =
        if q = recordPlace s.root d r then some (.file bytes v.clock) else v.node? q) ∧
      x.clock = v.clock := by
  have hm := Volume.moveFile_of_file (hw.leads h hc)
    (by rw [goal_stagePath, hw.fileAt?, if_pos rfl]) (s.pathOf d r)
  rw [hw.filePlace h hf, goal_stagePath] at hm
  refine ⟨({ w with nodes := w.nodes.erase (stagePlace s v) } : Volume).setNode
    (recordPlace s.root d r) (.file bytes v.clock), ?_, fun q => ?_, hw.clock⟩
  · rw [Volume.apply, hm]
    rfl
  · rw [Volume.node?_setNode (recordPlace_ne_nil s.root d r), Volume.node?_eraseNode, hw.node]
    by_cases hq : q = stagePlace s v
    · simp [hq, h.node?_stagePlace]
    · simp [hq]

theorem Staged.moveFile_error (hw : Staged s v bytes w) (h : Agrees s v)
    (hc : canStage s v = true) (hd : v.node? (recordPlace s.root d r) = some .folder) :
    ∃ err, w.apply (.moveFile (s.stagePath v) (s.pathOf d r)) = (w, some err) := by
  have hm := Volume.moveFile_of_file (hw.leads h hc)
    (by rw [goal_stagePath, hw.fileAt?, if_pos rfl]) (s.pathOf d r)
  cases hp : w.filePlace (s.pathOf d r) with
  | error err =>
    refine ⟨err, ?_⟩
    rw [Volume.apply, hm, hp]
    rfl
  | ok q =>
    obtain ⟨-, rfl, hn, -⟩ := Volume.filePlace_eq_ok_iff.mp hp
    rw [Store.pathOf, goal_recordPath, Ne, hw.folder h.node?_stagePlace] at hn
    exact absurd hd hn

/-- A staged file that is not moved is removed again. -/
theorem Staged.node?_discard (hw : Staged s v bytes w) (hn : v.node? (stagePlace s v) = none)
    (hl : w.Leads (s.stagePath v)) (q : Place) :
    (w.discard (s.stagePath v)).node? q = v.node? q := by
  rw [Volume.node?_discard, goal_stagePath, hw.fileAt?, hw.node]
  by_cases hq : q = stagePlace s v
  · simp [hq, hl, hn]
  · simp [hq]

/-- Nor is anything removed where nothing was staged. -/
theorem node?_discard_stagePath (hn : v.node? (stagePlace s v) = none) (q : Place) :
    (v.discard (s.stagePath v)).node? q = v.node? q := by
  rw [Volume.node?_discard, goal_stagePath, if_neg]
  rintro ⟨-, rfl, hsome⟩
  rw [Volume.fileAt?, hn] at hsome
  cases hsome

/-- The volume after a write that came to its end. -/
structure Written (s : Store) (v : Volume) (d : Digest) (bytes : List UInt8) (r : Retention)
    (w : Volume) : Prop where
  files : ∀ q, w.fileAt? q =
    if q = recordPlace s.root d r then some (bytes, v.clock)
    else if q = recordPlace s.root d r.other then none else v.fileAt? q
  folders : ∀ q, w.node? q = some .folder ↔ v.node? q = some .folder
  clock : w.clock = v.clock

/-- The effects of a write come to their end. -/
theorem Agrees.run_writePlan (h : Agrees s v) (hf : isBlocked s v d r = false)
    (bytes : List UInt8) :
    ∃ w, v.run (s.writePlan (s.stagePath v) d bytes r) = (w, none) ∧ Written s v d bytes r w := by
  obtain ⟨hc, hf⟩ := isBlocked_eq_false.mp hf
  obtain ⟨a, ha, hsa⟩ := h.createFile hc
  obtain ⟨b, hb, hsb⟩ := hsa.append (hsa.leads h hc) bytes
  obtain ⟨c, hm, hn, ht⟩ := hsb.moveFile h hc hf
  have hfc : ∀ q, c.node? q = some .folder ↔ v.node? q = some .folder := by
    intro q
    rw [hn]
    split
    · rename_i hq
      subst hq
      exact iff_of_false (by simp) hf
    · rfl
  have hl : c.Leads (s.pathOf d r.other) :=
    (h.standing.mono fun q hq => (hfc q).mpr hq).leads_recordPath h.roomy d r.other
  refine ⟨c.discard (s.pathOf d r.other), ?_, ?_, fun q => ?_, ?_⟩
  · simp only [Store.writePlan, Volume.run, ha, hb, hm]
    rfl
  · intro q
    have hg : (s.pathOf d r.other).goal = recordPlace s.root d r.other := goal_recordPath _ _ _
    have hne : recordPlace s.root d r ≠ recordPlace s.root d r.other := fun he =>
      other_ne r (recordPlace_injective he).2.symm
    rw [Volume.fileAt?_discard, hg, Volume.fileAt?, hn, Volume.fileAt?]
    by_cases hq : q = recordPlace s.root d r
    · simp [hq, hne]
    · simp [hq, hl]
  · rw [Volume.folder_discard, hfc]
  · rw [(Volume.medium_discard _ _).1, ht]

/-- A write that fails leaves every place as it was. -/
theorem Agrees.run_writePlan_error (h : Agrees s v) (hf : isBlocked s v d r = true)
    (bytes : List UInt8) :
    ∃ w err, v.run (s.writePlan (s.stagePath v) d bytes r) = (w, some err) ∧
      (∀ q, (w.discard (s.stagePath v)).node? q = v.node? q) ∧ w.clock = v.clock := by
  cases hc : canStage s v with
  | false =>
    obtain ⟨err, he⟩ := createFile_error hc
    refine ⟨v, err, ?_, fun q => ?_, rfl⟩
    · simp only [Store.writePlan, Volume.run, he]
    · exact node?_discard_stagePath h.node?_stagePlace q
  | true =>
    have hd : v.node? (recordPlace s.root d r) = some .folder := by
      simpa [isBlocked, hc] using hf
    obtain ⟨a, ha, hsa⟩ := h.createFile hc
    obtain ⟨b, hb, hsb⟩ := hsa.append (hsa.leads h hc) bytes
    obtain ⟨err, hm⟩ := hsb.moveFile_error h hc hd
    refine ⟨b, err, ?_, hsb.node?_discard h.node?_stagePlace (hsb.leads h hc), hsb.clock⟩
    simp only [Store.writePlan, Volume.run, ha, hb, hm]

theorem Agrees.put_of_free (h : Agrees s v) (hf : isBlocked s v d r = false)
    (bytes : List UInt8) :
    ∃ w, Written s v d bytes r w ∧ s.put v d bytes r =
      (.committed, Store.shrink { s with index := s.index.insert d ⟨bytes.length, r⟩ } w) := by
  obtain ⟨w, hw, hwr⟩ := h.run_writePlan hf bytes
  refine ⟨w, hwr, ?_⟩
  simp only [Store.put, Volume.makeFolders_of_isFolder (h.standing.isFolder_staging h.roomy), hw]

theorem Agrees.put_of_blocked (h : Agrees s v) (hf : isBlocked s v d r = true)
    (bytes : List UInt8) :
    ∃ w, s.put v d bytes r = (.failed, s, w) ∧ (∀ q, w.node? q = v.node? q) ∧
      w.clock = v.clock := by
  obtain ⟨w, err, hw, hn, ht⟩ := h.run_writePlan_error hf bytes
  refine ⟨w.discard (s.stagePath v), ?_, hn, (Volume.medium_discard _ _).1.trans ht⟩
  simp only [Store.put, Volume.makeFolders_of_isFolder (h.standing.isFolder_staging h.roomy), hw]

/-- A store that has taken up a written record agrees with the volume. -/
theorem Agrees.insert (h : Agrees s v) (hw : Written s v d bytes r w) :
    Agrees { s with index := s.index.insert d ⟨bytes.length, r⟩ } w where
  roomy := h.roomy
  standing := h.standing.mono fun q hq => (hw.folders q).mpr hq
  sound := h.sound.insert d _
  kept := by
    intro d' info hi
    rw [Index.get?_insert] at hi
    split at hi
    · rename_i hd
      cases hi
      exact ⟨bytes, v.clock, by rw [hw.files, hd, if_pos rfl], rfl⟩
    · rename_i hd
      obtain ⟨bytes', time, hv, hb⟩ := h.kept d' info hi
      refine ⟨bytes', time, ?_, hb⟩
      rw [hw.files, if_neg fun he => hd (recordPlace_injective he).1,
        if_neg fun he => hd (recordPlace_injective he).1, hv]
  only := by
    intro d' r' hs
    rw [hw.files] at hs
    rw [Index.get?_insert]
    by_cases hd : d' = d
    · subst hd
      rcases eq_or_eq_other r r' with rfl | rfl
      · exact ⟨_, if_pos rfl⟩
      · rw [if_neg fun he => other_ne r (recordPlace_injective he).2, if_pos rfl] at hs
        cases hs
    · rw [if_neg fun he => hd (recordPlace_injective he).1,
        if_neg fun he => hd (recordPlace_injective he).1] at hs
      rw [if_neg hd]
      exact h.only d' r' hs
  staged := by
    intro name
    have hne : ∀ r', s.root.goal ++ ["tmp", name] ≠ recordPlace s.root d r' := fun r' he =>
      recordPlace_ne_staged s.root s.root d r' name he.symm
    rw [Volume.node?_congr (hw.folders _)
      (by rw [hw.files, if_neg (hne r), if_neg (hne r.other)]), h.staged]

end TierCache.Disk
