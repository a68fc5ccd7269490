import TierCache.Disk.Editing
import TierCache.Proofs.Disk.Reopening

/-!
# Writes that fail

A write that fails is undone, wherever it failed and whatever the volume looks like: the store is
the same, every file is as it was, nothing is staged, and the right to the digest is given back. It
may have made folders that were missing on the way to the stage. Where the path of the store leads
back out of such a folder, records that could not be reached before are found again.
-/
namespace TierCache.Disk

variable {s s' : Store} {v u w : Volume} {d : Digest} {r : Retention} {bytes : List UInt8}

/-- A volume on which a write has staged something or nothing, and has not moved it. -/
inductive Unmoved (s : Store) (u w : Volume) : Prop where
  | unstaged (h : w = u)
  | staged (part : List UInt8) (h : Staged s u part w) (leads : w.Leads (s.stagePath u))

theorem Unmoved.node?_discard (h : Unmoved s u w) (hn : u.node? (stagePlace s u) = none)
    (q : Place) : (w.discard (s.stagePath u)).node? q = u.node? q := by
  cases h with
  | unstaged h =>
    rw [h]
    exact node?_discard_stagePath hn q
  | staged part h leads => exact h.node?_discard hn leads q

/-- What can be created can then be written to. -/
theorem createFile_cases (s : Store) (u : Volume) :
    (∃ err, u.apply (.createFile (s.stagePath u)) = (u, some err)) ∨
      ∃ a, u.apply (.createFile (s.stagePath u)) = (a, none) ∧ Staged s u [] a ∧
        a.Leads (s.stagePath u) := by
  cases hp : u.filePlace (s.stagePath u) with
  | error err =>
    refine .inl ⟨err, ?_⟩
    simp only [Volume.apply, Volume.writeFile, hp]
    rfl
  | ok q =>
    obtain ⟨hl, rfl, hd, -⟩ := Volume.filePlace_eq_ok_iff.mp hp
    rw [goal_stagePath] at hp hd
    have hnode : ∀ q, (u.setNode (stagePlace s u) (.file [] u.clock)).node? q =
        if q = stagePlace s u then some (.file [] u.clock) else u.node? q :=
      fun q => Volume.node?_setNode (stagePlace_ne_nil s u)
    refine .inr ⟨u.setNode (stagePlace s u) (.file [] u.clock), ?_, ⟨hnode, rfl⟩, hl.1, ?_⟩
    · simp only [Volume.apply, Volume.writeFile, hp]
      rfl
    · intro q hq
      rw [hnode, if_neg, hl.2 q hq]
      rintro rfl
      exact hd (hl.2 _ hq)

/-- A write may give up at any time before the move, with any part of the bytes staged. -/
theorem unmoved_stage (s : Store) (u : Volume) (part : List UInt8) (n : Nat) : Unmoved s u
    (u.run ([.createFile (s.stagePath u), .append (s.stagePath u) part].take n)).1 := by
  cases n with
  | zero => exact .unstaged rfl
  | succ n =>
    rw [List.take_succ_cons, Volume.run]
    rcases createFile_cases s u with ⟨err, he⟩ | ⟨a, ha, hsa, hl⟩
    · rw [he]
      exact .unstaged rfl
    · rw [ha]
      cases n with
      | zero => exact .staged [] hsa hl
      | succ n =>
        obtain ⟨b, hb, hsb⟩ := hsa.append hl part
        rw [List.take_succ_cons, List.take_nil]
        simp only [Volume.run, hb]
        refine .staged part hsb ⟨hl.1, fun q hq => ?_⟩
        have hne : q ≠ stagePlace s u := by
          rintro rfl
          have hf := hl.2 _ hq
          rw [hsa.node, if_pos rfl] at hf
          cases hf
        have hf := hl.2 q hq
        rw [hsa.node, if_neg hne] at hf
        rw [hsb.node, if_neg hne, hf]

/-- A plan that stops has not moved its stage: what comes after the move does not fail. -/
theorem unmoved_stopped {err : VolumeError}
    (h : u.run (s.writePlan (s.stagePath u) d bytes r) = (w, some err)) : Unmoved s u w := by
  have hstage := unmoved_stage s u bytes 2
  rw [show s.writePlan (s.stagePath u) d bytes r =
    [.createFile (s.stagePath u), .append (s.stagePath u) bytes] ++
      [.moveFile (s.stagePath u) (s.pathOf d r), .discard (s.pathOf d r.other)] from rfl,
    Volume.run_append] at h
  rw [show ([.createFile (s.stagePath u), .append (s.stagePath u) bytes] : List Volume.Effect).take
    2 = [.createFile (s.stagePath u), .append (s.stagePath u) bytes] from rfl] at hstage
  generalize u.run [.createFile (s.stagePath u), .append (s.stagePath u) bytes] = p at h hstage
  obtain ⟨x, stop⟩ := p
  cases stop with
  | some err' =>
    cases h
    exact hstage
  | none =>
    simp only [Volume.run, Volume.apply] at h
    cases hm : x.moveFile (s.stagePath u) (s.pathOf d r) with
    | ok y =>
      rw [hm] at h
      cases h
    | error err' =>
      rw [hm] at h
      cases h
      exact hstage

/-- Every place is as it was, but for folders that were missing on the way to the stage. -/
def Undone (root : Path) (v w : Volume) : Prop :=
  ∀ q, w.node? q = v.node? q ∨
    v.node? q = none ∧ w.node? q = some .folder ∧ (q ∈ (staging root).way ∨ q = (staging root).goal)

theorem undone_put (h : s.put v d bytes r = (.failed, s', w)) : s' = s ∧ Undone s.root v w := by
  have hmake := Volume.node?_makeFolders_cases v (staging s.root)
  rw [Store.put] at h
  split at h
  · rename_i u err hu
    cases h
    rw [hu] at hmake
    exact ⟨rfl, hmake⟩
  · rename_i u hu
    rw [hu] at hmake
    simp only at h
    split at h
    · rename_i x err hx
      cases h
      refine ⟨rfl, fun q => ?_⟩
      have hl := (Volume.isFolder_iff.mp (Volume.isFolder_of_makeFolders hu)).1
      have hfree := node?_stagePlace hl
      rw [(unmoved_stopped hx).node?_discard hfree q]
      exact hmake q
    · cases h

namespace Undone

variable {root : Path} {p : Path}

theorem fileAt? (h : Undone root v w) (q : Place) : w.fileAt? q = v.fileAt? q := by
  rcases h q with hq | ⟨hv, hw, -⟩
  · rw [Volume.fileAt?, hq]
    rfl
  · rw [Volume.fileAt?_of_folder hw, Volume.fileAt?, hv]

theorem folder (h : Undone root v w) {q : Place} (hv : v.node? q = some .folder) :
    w.node? q = some .folder := by
  rcases h q with hq | ⟨hn, hw, -⟩
  · rw [hq, hv]
  · exact hw

/-- What could be read can still be read. -/
theorem read (h : Undone root v w) (hr : v.read p = .ok bytes) : w.read p = .ok bytes := by
  obtain ⟨hl, time, hf⟩ := Volume.read_eq_ok_iff.mp hr
  exact Volume.read_eq_ok_iff.mpr ⟨⟨hl.1, fun q hq => h.folder (hl.2 q hq)⟩, time,
    (h.fileAt? _).trans hf⟩

end Undone

/-- The path leads back only out of folders that are there. -/
def Retraceable (root : Path) (v : Volume) : Prop :=
  ∀ q ∈ root.way, q <+: root.goal ∨ v.node? q ≠ none

/-- Then no record is found that could not be reached before. -/
theorem Undone.read_record (h : Undone s.root v w) (hv : v.Rooted) (hp : Retraceable s.root v)
    (hr : w.read (s.pathOf d r) = .ok bytes) : v.read (s.pathOf d r) = .ok bytes := by
  obtain ⟨hl, time, hf⟩ := Volume.read_eq_ok_iff.mp hr
  rw [h.fileAt?] at hf
  refine Volume.read_eq_ok_iff.mpr ⟨⟨hl.1, fun q hq => ?_⟩, time, hf⟩
  have hw := hl.2 q hq
  rw [Store.pathOf, goal_recordPath] at hf
  have hthere := Volume.fileAt?_eq_some_iff.mp hf
  have above : ∀ below, below ≠ [] → q ++ below = recordPlace s.root d r →
      v.node? q = some .folder := by
    intro below hne he
    refine hv.folder_of_append hne ?_
    rw [he, hthere]
    rfl
  rw [Store.pathOf, recordPath, Path.mem_way_join, folder_eq, Path.mem_way_join,
    Path.goal_join _ (isName_folderName r)] at hq
  rcases hq with (hq | rfl) | rfl
  · rcases hp q hq with ⟨below, he⟩ | hsome
    · exact above (below ++ [folderName r, d.text]) (by simp)
        (by rw [← List.append_assoc, he, recordPlace])
    · rcases h q with he | ⟨hn, -, -⟩
      · rw [← he, hw]
      · exact absurd hn hsome
  · exact above [folderName r, d.text] (by simp) rfl
  · exact above [d.text] (by simp) (by simp [recordPlace])

theorem Store.get_eq_some_iff : (s.get v d).1 = some bytes ↔
    ∃ info, s.index.get? d = some info ∧ v.read (s.pathOf d info.retention) = .ok bytes := by
  rw [Store.get]
  cases hd : s.index.get? d with
  | none => simp
  | some info =>
    simp only [Option.some.injEq, exists_eq_left']
    have hpath : ∀ ix : Index, ({ s with index := ix } : Store).pathOf d info.retention =
        s.pathOf d info.retention := fun _ => rfl
    rw [hpath]
    cases v.read (s.pathOf d info.retention) with
    | ok b => simp
    | error err => cases err <;> simp

theorem Undone.get (h : Undone s.root v w) (hg : (s.get v d).1 = some bytes) :
    (s.get w d).1 = some bytes := by
  obtain ⟨info, hi, hr⟩ := Store.get_eq_some_iff.mp hg
  exact Store.get_eq_some_iff.mpr ⟨info, hi, h.read hr⟩

theorem Undone.get_eq (h : Undone s.root v w) (hv : v.Rooted) (hp : Retraceable s.root v)
    (d : Digest) : (s.get w d).1 = (s.get v d).1 := by
  refine Option.ext fun b => ⟨fun hg => ?_, h.get⟩
  obtain ⟨info, hi, hr⟩ := Store.get_eq_some_iff.mp hg
  exact Store.get_eq_some_iff.mpr ⟨info, hi, h.read_record hv hp hr⟩

/-- Where no other write has the right, a write goes on, and gives the right back. -/
theorem edit_of_free {editors : List Digest} (hd : d ∉ editors) : s.edit editors v d bytes r =
    (.ended (s.put v d bytes r).1, editors, (s.put v d bytes r).2) := by
  rw [Store.edit, claim, if_neg hd]
  simp only [release, List.erase_cons_head]

theorem edit_of_taken {editors : List Digest} (hd : d ∈ editors) :
    s.edit editors v d bytes r = (.busy, editors, s, v) := by
  rw [Store.edit, claim, if_pos hd]

theorem edit_ended {editors editors' : List Digest} {outcome : WriteResult}
    (h : s.edit editors v d bytes r = (.ended outcome, editors', s', w)) :
    editors' = editors ∧ d ∉ editors ∧ s.put v d bytes r = (outcome, s', w) := by
  by_cases hd : d ∈ editors
  · rw [edit_of_taken hd] at h
    cases h
  · rw [edit_of_free hd, Prod.mk.injEq, EditResult.ended.injEq, Prod.mk.injEq] at h
    obtain ⟨ho, he, hrest⟩ := h
    exact ⟨he.symm, hd, Prod.ext ho hrest⟩

theorem edit_ne_busy {editors : List Digest} (hd : d ∉ editors) (v : Volume) (bytes : List UInt8)
    (r : Retention) : (s.edit editors v d bytes r).1 ≠ .busy := by
  rw [edit_of_free hd]
  simp

/-- Nothing comes of a write that fails. -/
theorem failed_put_undone {editors editors' : List Digest}
    (h : s.edit editors v d bytes r = (.ended .failed, editors', s', w)) :
    s' = s ∧
    (∀ q, w.fileAt? q = v.fileAt? q) ∧
    Undone s.root v w ∧
    (∀ d', s'.contains d' = s.contains d') ∧
    (∀ d' b, (s.get v d').1 = some b → (s'.get w d').1 = some b) ∧
    (v.Rooted → Retraceable s.root v → ∀ d', (s'.get w d').1 = (s.get v d').1) ∧
    (editors' = editors ∧ ∀ x b r', (s'.edit editors' x d b r').1 ≠ .busy) ∧
    -- The same holds where the medium fails a write before its end.
    ∀ u, v.makeFolders (staging s.root) = (u, none) → ∀ part n, Undone s.root v
      ((u.run ([.createFile (s.stagePath u), .append (s.stagePath u) part].take n)).1.discard
        (s.stagePath u)) := by
  obtain ⟨heditors, hfree, hput⟩ := edit_ended h
  obtain ⟨rfl, hundone⟩ := undone_put hput
  refine ⟨rfl, hundone.fileAt?, hundone, fun _ => rfl, fun _ _ => hundone.get,
    hundone.get_eq, ⟨heditors, fun x b r' => edit_ne_busy (heditors ▸ hfree) x b r'⟩,
    fun u hu part n q => ?_⟩
  have hmake := Volume.node?_makeFolders_cases v (staging s'.root) q
  have hl := (Volume.isFolder_iff.mp (Volume.isFolder_of_makeFolders hu)).1
  rw [hu] at hmake
  rw [(unmoved_stage s' u part n).node?_discard (node?_stagePlace hl)]
  exact hmake

def zeros : Digest := ⟨String.ofList (List.replicate 64 '0'), by decide⟩

def ones : Digest := ⟨String.ofList (List.replicate 64 '1'), by decide⟩

/-- A record of two bytes, and a folder in the place of another one. -/
def barred : Volume := (Volume.empty.run [
  .makeFolders (recordPath ⟨["b", "v1"]⟩ ones .normal),
  .createFile (recordPath ⟨["b", "v1"]⟩ zeros .normal),
  .append (recordPath ⟨["b", "v1"]⟩ zeros .normal) [1, 2]]).1

/-- A store with the first record. -/
def oneRecord (root : Path) : Store :=
  ⟨root, 100, Index.empty.insert zeros ⟨2, .normal⟩⟩

theorem failed_put_undone_barred : ∃ editors' s' w,
    (oneRecord ⟨["b", "v1"]⟩).edit [] barred ones [3] .normal =
      (.ended .failed, editors', s', w) ∧
    barred.Rooted ∧ Retraceable ⟨["b", "v1"]⟩ barred ∧
    (s'.get w zeros).1 = some [1, 2] := by
  have hfail : ((oneRecord ⟨["b", "v1"]⟩).edit [] barred ones [3] .normal).1 =
      .ended .failed := by decide +kernel
  have hread : ((oneRecord ⟨["b", "v1"]⟩).get barred zeros).1 = some [1, 2] := by
    decide +kernel
  have hrooted : barred.Rooted := rooted_empty.run _
  have hway : Retraceable ⟨["b", "v1"]⟩ barred := by
    intro q hq
    exact .inl (by revert q; decide)
  rcases hp : (oneRecord ⟨["b", "v1"]⟩).edit [] barred ones [3] .normal with
    ⟨outcome, editors', s', w⟩
  rw [hp] at hfail
  cases hfail
  obtain ⟨-, -, -, -, -, hget, -⟩ := failed_put_undone hp
  exact ⟨editors', s', w, rfl, hrooted, hway, (hget hrooted hway zeros).trans hread⟩

/-- The path of this store leads back out of a folder that has gone. The failed write makes it
again, and the record is found that was out of reach. -/
theorem failed_put_revives :
    (oneRecord ⟨["a", "..", "b", "v1"]⟩).index.Sound ∧ barred.Rooted ∧
    ((oneRecord ⟨["a", "..", "b", "v1"]⟩).edit [] barred ones [3] .normal).1 =
      .ended .failed ∧
    ((oneRecord ⟨["a", "..", "b", "v1"]⟩).get barred zeros).1 = none ∧
    ((oneRecord ⟨["a", "..", "b", "v1"]⟩).get
      ((oneRecord ⟨["a", "..", "b", "v1"]⟩).edit [] barred ones [3] .normal).2.2.2
      zeros).1 = some [1, 2] :=
  ⟨.insert .empty _ _, rooted_empty.run _, by decide +kernel, by decide +kernel,
    by decide +kernel⟩

end TierCache.Disk
