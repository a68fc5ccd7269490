import TierCache.Proofs.Disk.Reopening

/-!
# What the calls of a store change

Every call of a store but a write only tidies its home, and so does opening it, whether it comes to
its end or not. A write brings its record and what it stages, and no other file.
-/
namespace TierCache.Disk

variable {s : Store} {v w : Volume} {root : Path} {d : Digest} {r : Retention}

/-- What the calls of a store at a home come to, writes apart. -/
abbrev Kept (root : Path) (v w : Volume) : Prop := Volume.Tidied root.goal root.way v w

theorem kept_discard (v : Volume) (d : Digest) (r : Retention) :
    Kept root v (v.discard (recordPath root d r)) := by
  refine Volume.Tidied.refl.discard _ ?_
  rw [goal_recordPath]
  exact prefix_recordPlace root d r

/-- A folder of a store is made on the way to it or in it. -/
theorem made_join {root : Path} {name : String} (hn : Path.IsName name) (q : Place)
    (hq : q ∈ (root.join name).way ∨ q = (root.join name).goal) :
    root.goal <+: q ∨ q ∈ root.way := by
  rw [Path.mem_way_join, Path.goal_join root hn] at hq
  rcases hq with (hq | rfl) | rfl
  · exact .inr hq
  · exact .inl (List.prefix_refl _)
  · exact .inl (List.prefix_append _ _)

theorem below_goal_join {name : String} (hn : Path.IsName name) :
    root.goal <+: (root.join name).goal := by
  rw [Path.goal_join root hn]
  exact List.prefix_append _ _

namespace Store

theorem kept_evict (s : Store) (v : Volume) (d : Digest) : Kept s.root v (s.evict v d).2 := by
  rw [evict]
  split
  · exact kept_discard v d _
  · exact .refl

theorem kept_evictAll (s : Store) (v : Volume) (ds : List Digest) :
    Kept s.root v (s.evictAll v ds).2 := by
  induction ds generalizing s v with
  | nil => exact .refl
  | cons d ds ih =>
    rw [Agrees.evictAll_cons]
    have he := ih (s.evict v d).1 (s.evict v d).2
    rw [Agrees.root_evict] at he
    exact (kept_evict s v d).trans he

theorem kept_shrink (s : Store) (v : Volume) : Kept s.root v (s.shrink v).2 := kept_evictAll s v _

theorem kept_get (s : Store) (v : Volume) (d : Digest) : Kept s.root v (s.get v d).2.2 := by
  rw [get]
  split
  · exact .refl
  · rename_i info hi
    simp only
    split
    · refine Volume.Tidied.refl.touch _ ?_
      rw [pathOf, goal_recordPath]
      exact prefix_recordPlace _ d _
    · exact .refl
    · exact .refl

theorem kept_wipe (s : Store) (v : Volume) : Kept s.root v (s.wipe v).2.2 := by
  have clear : ∀ (u : Volume) (r : Retention),
      Kept s.root u (u.apply (.clearTree (folder s.root r))).1 := by
    intro u r
    rw [folder_eq]
    exact Volume.Tidied.refl.clearTree _ (below_goal_join (isName_folderName r))
  have make : ∀ (u : Volume) (r : Retention),
      Kept s.root u (u.apply (.makeFolders (folder s.root r))).1 := by
    intro u r
    rw [folder_eq]
    exact Volume.Tidied.refl.makeFolders _ (made_join (isName_folderName r))
  have plan : Kept s.root v (v.run s.wipePlan).1 := by
    refine Volume.Tidied.run ?_
    intro e he
    simp only [wipePlan, List.mem_cons, List.not_mem_nil, or_false] at he
    rcases he with rfl | rfl | rfl | rfl
    · exact fun u => clear u .normal
    · exact fun u => make u .normal
    · exact fun u => clear u .always
    · exact fun u => make u .always
  rw [wipe]
  split
  · rename_i u err hu
    rw [hu] at plan
    exact plan
  · rename_i u hu
    rw [hu] at plan
    exact plan

/-- A write makes the staging folder, runs its plan, and then evicts or gives up the stage. -/
theorem put_cases (s : Store) (v : Volume) (d : Digest) (bytes : List UInt8) (r : Retention) :
    Kept s.root v (s.put v d bytes r).2.2 ∨ ∃ u, Kept s.root v u ∧
      Kept s.root (u.run (s.writePlan (s.stagePath u) d bytes r)).1 (s.put v d bytes r).2.2 := by
  have make : Kept s.root v (v.makeFolders (staging s.root)).1 :=
    Volume.Tidied.refl.makeFolders _ (made_join isName_tmp)
  rw [put]
  split
  · rename_i u err hu
    rw [hu] at make
    exact .inl make
  · rename_i u hu
    rw [hu] at make
    refine .inr ⟨u, make, ?_⟩
    simp only
    split
    · rename_i w err hw
      rw [hw]
      refine Volume.Tidied.refl.discard _ ?_
      rw [goal_stagePath, stagePlace]
      exact List.prefix_append _ _
    · rename_i w hw
      rw [hw]
      exact kept_shrink { s with index := s.index.insert d ⟨bytes.length, r⟩ } w

/-- A plan writes its record, and the stage. -/
theorem files_writePlan (s : Store) (v : Volume) (d : Digest) (bytes : List UInt8) (r : Retention)
    {q : Place} {b : List UInt8} {time : Int}
    (hf : (v.run (s.writePlan (s.stagePath v) d bytes r)).1.fileAt? q = some (b, time)) :
    (∃ time, v.fileAt? q = some (b, time)) ∨ q = recordPlace s.root d r ∧ b = bytes ∨
      q = stagePlace s v := by
  have hg : (s.stagePath v).goal = stagePlace s v := goal_stagePath s v
  generalize s.stagePath v = stage at hf hg
  rw [← hg]
  simp only [writePlan, Volume.run, Volume.apply, Volume.settle] at hf
  cases hc : v.writeFile stage [] with
  | error err =>
    rw [hc] at hf
    exact .inl ⟨time, hf⟩
  | ok x =>
    have hx := Volume.fileAt?_writeFile hc
    simp only [hc] at hf
    cases ha : x.append stage bytes with
    | error err =>
      simp only [ha] at hf
      rw [hx] at hf
      split at hf
      · rename_i hq
        exact .inr (.inr hq)
      · exact .inl ⟨time, hf⟩
    | ok y =>
      obtain ⟨old, then_, ho, hy⟩ := Volume.fileAt?_append ha
      rw [hx, if_pos rfl] at ho
      cases ho
      simp only [ha] at hf
      cases hm : y.moveFile stage (s.pathOf d r) with
      | error err =>
        simp only [hm] at hf
        rw [hy, hx] at hf
        split at hf
        · rename_i hq
          exact .inr (.inr hq)
        · exact .inl ⟨time, hf⟩
      | ok z =>
        obtain ⟨moved, since, hs, hz⟩ := Volume.fileAt?_moveFile hm
        rw [hy, if_pos rfl] at hs
        cases hs
        simp only [hm] at hf
        change (z.discard (s.pathOf d r.other)).fileAt? q = _ at hf
        rw [Volume.fileAt?_discard] at hf
        split at hf
        · cases hf
        · rw [hz, Store.pathOf, goal_recordPath] at hf
          split at hf
          · rename_i hq
            cases hf
            exact .inr (.inl ⟨hq, rfl⟩)
          · split at hf
            · cases hf
            · rename_i hq
              rw [hy, if_neg hq, hx, if_neg hq] at hf
              exact .inl ⟨time, hf⟩

/-- A write brings its record, what it stages, and no other file. -/
theorem files_put (s : Store) (v : Volume) (d : Digest) (bytes : List UInt8) (r : Retention)
    {q : Place} {b : List UInt8} {time : Int}
    (hf : (s.put v d bytes r).2.2.fileAt? q = some (b, time)) :
    (∃ time, v.fileAt? q = some (b, time)) ∨ q = recordPlace s.root d r ∧ b = bytes ∨
      ∃ name, q = s.root.goal ++ ["tmp", name] := by
  rcases put_cases s v d bytes r with hk | ⟨u, hu, hk⟩
  · exact .inl (hk.files hf)
  · obtain ⟨time, hf⟩ := hk.files hf
    rcases files_writePlan s u d bytes r hf with ⟨time, hf⟩ | hf | hf
    · exact .inl (hu.files hf)
    · exact .inr (.inl hf)
    · exact .inr (.inr ⟨_, hf⟩)

theorem rooted_put (hv : v.Rooted) (d : Digest) (bytes : List UInt8) (r : Retention) :
    (s.put v d bytes r).2.2.Rooted := by
  rcases put_cases s v d bytes r with hk | ⟨u, hu, hk⟩
  · exact hk.rooted hv
  · exact hk.rooted ((hu.rooted hv).run _)

@[simp] theorem free_put (s : Store) (v : Volume) (d : Digest) (bytes : List UInt8)
    (r : Retention) :
    (s.put v d bytes r).2.2.free = v.free := by
  rcases put_cases s v d bytes r with hk | ⟨u, hu, hk⟩
  · exact hk.medium.2
  · rw [hk.medium.2, (Volume.medium_run _ _).2, hu.medium.2]

theorem kept_discardAll {ps : List Path} (h : ∀ p ∈ ps, root.goal <+: p.goal) (v : Volume) :
    Kept root v (discardAll v ps) := by
  induction ps generalizing v with
  | nil => exact .refl
  | cons p ps ih =>
    have hp : Kept root v (v.discard p) := Volume.Tidied.refl.discard p (h p List.mem_cons_self)
    exact hp.trans (ih (fun p' hp' => h p' (List.mem_cons_of_mem p hp')) (v.discard p))

theorem kept_strays (v : Volume) (root : Path) :
    Kept root v (discardAll v (strays v root .normal ++ strays v root .always)) := by
  refine kept_discardAll (fun p hp => ?_) v
  have inside : ∀ r, p ∈ strays v root r → root.goal <+: p.goal := by
    intro r hr
    obtain ⟨name, hn, hg⟩ := goal_of_mem_strays hr
    exact (stray_cases hn hg).1
  exact (List.mem_append.mp hp).elim (inside .normal) (inside .always)

theorem kept_adopt (s : Store) (v : Volume) (f : Found) :
    (s.adopt v f).1.root = s.root ∧ Kept s.root v (s.adopt v f).2 := by
  rw [adopt]
  refine ⟨rfl, ?_⟩
  simp only
  split
  · exact kept_discard v f.digest _
  · exact .refl

theorem kept_rebuild (s : Store) (v : Volume) :
    (s.rebuild v).1.root = s.root ∧ Kept s.root v (s.rebuild v).2 := by
  have adopted : ∀ (fs : List Found) (s : Store) (v : Volume),
      (fs.foldl (fun p f => p.1.adopt p.2 f) (s, v)).1.root = s.root ∧
        Kept s.root v (fs.foldl (fun p f => p.1.adopt p.2 f) (s, v)).2 := by
    intro fs
    induction fs with
    | nil => exact fun s v => ⟨rfl, .refl⟩
    | cons f fs ih =>
      intro s v
      obtain ⟨hr, hk⟩ := ih (s.adopt v f).1 (s.adopt v f).2
      obtain ⟨hr', hk'⟩ := kept_adopt s v f
      rw [hr'] at hr hk
      exact ⟨hr, hk'.trans hk⟩
  rw [rebuild]
  simp only
  generalize inOrder _ = found
  have hs := kept_strays v s.root
  generalize discardAll v _ = u at hs ⊢
  obtain ⟨hr, hk⟩ := adopted found s u
  generalize found.foldl _ (s, u) = p at hr hk ⊢
  have hsh := kept_shrink p.1 p.2
  rw [hr] at hsh
  exact ⟨(Holds.root_shrink p.1 p.2).trans hr, hs.trans (hk.trans hsh)⟩

/-- Opening a store brings no file, and elsewhere nothing but folders on the way to its root. -/
theorem kept_open? (v : Volume) (root : Path) (version : UInt32) (capacity : Nat) :
    Kept root v (open? v root version capacity).2 := by
  have hname := isName_versionName version
  have hway : ∀ q ∈ (homeOf root version).way, root.goal <+: q ∨ q ∈ root.way := fun q hq =>
    made_join hname q (.inl hq)
  have lift : ∀ {u w : Volume}, Kept (homeOf root version) u w → Kept root u w :=
    fun h => h.mono (below_goal_join hname) hway
  have make : Kept root v (v.makeFolders root).1 := by
    refine Volume.Tidied.refl.makeFolders root fun q hq => ?_
    rcases hq with hq | rfl
    · exact .inr hq
    · exact .inl (List.prefix_refl _)
  have stale : ∀ u : Volume, Kept root u (removeStale u root (versionName version)) := by
    intro u
    rw [removeStale]
    have hps : ∀ p ∈ staleVersions u root (versionName version), root.goal <+: p.goal := by
      intro p hp
      obtain ⟨name, -, hg⟩ := goal_of_mem_staleVersions hp
      rw [hg]
      exact List.prefix_append _ _
    generalize staleVersions u root (versionName version) = ps at hps ⊢
    induction ps generalizing u with
    | nil => exact .refl
    | cons p ps ih =>
      have hp : Kept root u (u.run [.clearTree p]).1 :=
        Volume.Tidied.run fun e he w => by
          rw [List.mem_singleton.mp he]
          exact Volume.Tidied.refl.clearTree p (hps p List.mem_cons_self)
      exact hp.trans (ih _ fun p' hp' => hps p' (List.mem_cons_of_mem p hp'))
  have prepare : ∀ u : Volume, Kept root u (u.run (preparePlan (homeOf root version))).1 := by
    intro u
    refine lift (Volume.Tidied.run fun e he w => ?_)
    simp only [preparePlan, List.mem_cons, List.not_mem_nil, or_false] at he
    rcases he with rfl | rfl | rfl | rfl
    · exact Volume.Tidied.refl.makeFolders _ (made_join (isName_folderName .normal))
    · exact Volume.Tidied.refl.makeFolders _ (made_join (isName_folderName .always))
    · exact Volume.Tidied.refl.clearTree _ (below_goal_join isName_tmp)
    · exact Volume.Tidied.refl.makeFolders _ (made_join isName_tmp)
  rw [open?]
  split
  · rename_i u err hu
    rw [hu] at make
    exact make
  · rename_i u hu
    rw [hu] at make
    split
    · exact make
    · have hp := make.trans ((stale u).trans (prepare _))
      simp only
      split
      · rename_i w err hw
        rw [homeOf, hw] at hp
        exact hp
      · rename_i w hw
        rw [homeOf, hw] at hp
        exact hp.trans (lift (kept_rebuild ⟨homeOf root version, capacity, .empty⟩ w).2)

end Store

end TierCache.Disk
