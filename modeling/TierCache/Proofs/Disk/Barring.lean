import TierCache.Proofs.Disk.Reopening

/-!
# Stores that cannot be opened

Where a file stands in the place of a folder that a store needs, the store cannot be opened. The
file stays, so it cannot be opened later either. A store that fails to open leaves the folders on
the way to its root standing, for others to use.
-/
namespace TierCache.Disk

variable {v w : Volume} {root home : Path} {version : UInt32} {capacity : Nat}

/-- The folders cannot be made where a file is in the place of one, and the file stays. -/
theorem preparePlan_barred (hr : Roomy home) {q : Place} (hq : q ∈ folders home)
    (hf : (v.fileAt? q).isSome) :
    ∃ w err, v.run (preparePlan home) = (w, some err) ∧ w.fileAt? q = v.fileAt? q := by
  have kept : ∀ {a b : Volume} {p : Path} {err}, a.apply (.makeFolders p) = (b, err) →
      b.fileAt? q = a.fileAt? q := by
    intro a b p err hm
    rw [← (Volume.makeFolders_keeps a p).2.1 q, show a.makeFolders p = (b, err) from hm]
  have free : ∀ {a b : Volume} {p : Path}, a.apply (.makeFolders p) = (b, none) →
      b.fileAt? q = v.fileAt? q → ¬ (q ∈ p.way ∨ q = p.goal) := by
    intro a b p hm hb hp
    have hn := Volume.node?_makeFolders (v := a) hm q
    rw [if_pos hp] at hn
    rw [← hb, Volume.fileAt?_of_folder hn] at hf
    cases hf
  refine Volume.run_cons_error (P := fun w => w.fileAt? q = v.fileAt? q)
    (fun a err ha => kept ha) fun a ha => ?_
  have hqa := kept ha
  have hrecords := free ha hqa
  refine Volume.run_cons_error (P := fun w => w.fileAt? q = v.fileAt? q)
    (fun b err hb => (kept hb).trans hqa) fun b hb => ?_
  have hqb := (kept hb).trans hqa
  have hretained := free hb hqb
  rw [mem_way_folder] at hrecords hretained
  -- the only place left is that of the staging folder, and a file there cannot be cleared away
  obtain rfl : q = (staging home).goal := by
    rcases mem_folders.mp hq with h | h | h | h
    · exact absurd (.inl h) hrecords
    · exact absurd (.inr h) hrecords
    · exact absurd (.inr h) hretained
    · exact h
  have hleads : b.Leads (staging home) := leads_staging_of_makeFolders (v := a) hr hb
  obtain ⟨file, hfile⟩ := Option.isSome_iff_exists.mp (hqb ▸ hf)
  have hclear := Volume.clearTree_of_file hleads (Volume.fileAt?_eq_some_iff.mp hfile)
  rw [Volume.run, hclear]
  exact ⟨b, _, rfl, hqb⟩

/-- A store cannot be opened where a file is in the place of one of its folders, and the file
stays. -/
theorem open_barred (hr : Roomy (homeOf root version)) (capacity : Nat) {q : Place}
    (hq : q ∈ folders (homeOf root version)) (hf : (v.fileAt? q).isSome) :
    ∃ w, Store.open? v root version capacity = (none, w) ∧ w.fileAt? q = v.fileAt? q := by
  have hkept := (Volume.makeFolders_keeps v root).2.1 q
  rw [Store.open?]
  split
  · rename_i u err hu
    rw [hu] at hkept
    exact ⟨u, rfl, hkept⟩
  · rename_i u hu
    rw [hu] at hkept
    split
    · exact ⟨u, rfl, hkept⟩
    · have hway : ¬ (q ∈ (homeOf root version).way) := by
        intro hq
        have hn := Volume.node?_makeFolders hu q
        rw [if_pos (mem_way_homeOf.mp hq)] at hn
        rw [← hkept, Volume.fileAt?_of_folder hn] at hf
        cases hf
      have hhome : (homeOf root version).goal <+: q := by
        rcases List.mem_append.mp hq with hq | hq
        · exact absurd hq hway
        · simp only [List.mem_cons, List.not_mem_nil, or_false] at hq
          rcases hq with rfl | rfl | rfl | rfl
          · exact List.prefix_refl _
          · exact List.prefix_append _ _
          · exact List.prefix_append _ _
          · exact List.prefix_append _ _
      have hstale : (removeStale u root (versionName version)).fileAt? q = v.fileAt? q := by
        rw [Volume.fileAt?, node?_removeStale_home u root version hhome]
        exact hkept
      obtain ⟨w, err, hw, hqw⟩ := preparePlan_barred hr hq (hstale ▸ hf)
      rw [homeOf] at hw
      simp only [hw]
      exact ⟨w, rfl, hqw.trans hstale⟩

/-- A store fails to open because a file is in the place of one of its folders, unless there was
nothing in the place of its root. -/
theorem barred_of_open?_none (hr : Roomy (homeOf root version)) (hc : capacity ≠ 0)
    (ho : Store.open? v root version capacity = (none, w)) :
    (∃ q ∈ folders (homeOf root version), (v.fileAt? q).isSome) ∨ v.node? root.goal = none := by
  cases hm : v.makeFolders root with
  | mk u failed =>
    cases failed with
    | some err =>
      have hrefusal : Volume.refusal root = none := Path.refusal_of_join hr.refusal
      have herr : (v.makeFolders root).2 ≠ none := by
        rw [hm]
        exact Option.some_ne_none err
      refine (Volume.file_of_makeFolders hrefusal (Path.longName_of_join hr.named) herr).imp_left ?_
      rintro ⟨q, hq, hf⟩
      exact ⟨q, mem_folders.mpr (.inl (.inl (mem_way_homeOf.mpr hq))), hf⟩
    | none =>
      by_cases hbarred : ∃ q ∈ folders (homeOf root version), (v.fileAt? q).isSome
      · exact .inl hbarred
      obtain ⟨s, x, hs⟩ := open_of_free hr hm hc fun q hq =>
        Option.not_isSome_iff_eq_none.mp fun hf => hbarred ⟨q, hq, hf⟩
      rw [hs] at ho
      cases ho

/-- A root stands, and so do the folders on the way to it. -/
def Paved (root : Path) (v : Volume) : Prop :=
  ∀ q, q ∈ root.way ∨ q = root.goal → v.node? q = some .folder

/-- No file is in the place of a root or on the way to it. -/
def Unbarred (root : Path) (v : Volume) : Prop :=
  ∀ q, q ∈ root.way ∨ q = root.goal → v.fileAt? q = none

theorem Paved.unbarred (h : Paved root v) : Unbarred root v :=
  fun q hq => Volume.fileAt?_of_folder (h q hq)

theorem Paved.mono (h : Paved root v)
    (hd : ∀ q, v.node? q = some .folder → w.node? q = some .folder) : Paved root w :=
  fun q hq => hd q (h q hq)

/-- What only goes away bars no way. -/
theorem Unbarred.of_removed (h : Unbarred root v)
    (hn : ∀ q, w.node? q = v.node? q ∨ w.node? q = none) : Unbarred root w := by
  intro q hq
  rcases hn q with he | he
  · rw [Volume.fileAt?, he]
    exact h q hq
  · rw [Volume.fileAt?, he]

variable {last name : String}

/-- A root that is not barred is made before the folders below it, also if these cannot be made. -/
theorem Unbarred.makeFolders (h : Unbarred root v) (hr : Roomy (homeOf root version))
    (hlast : root.pieces.getLast? = some last) (hl : Path.IsName last) (hn : Path.IsName name)
    (hrefusal : Volume.refusal ((homeOf root version).join name) = none) :
    Paved root (v.makeFolders ((homeOf root version).join name)).1 := by
  have hhome : (homeOf root version).pieces = root.pieces ++ [versionName version] :=
    Path.pieces_join_of_isName hlast hl _
  have hpieces : ((homeOf root version).join name).pieces =
      root.pieces ++ [versionName version, name] := by
    rw [Path.pieces_join_of_isName (p := homeOf root version) (Path.getLast?_join root _)
      (isName_versionName version), hhome, List.append_assoc]
    rfl
  have hroot : Volume.refusal root = none := Path.refusal_of_join (Path.refusal_of_join hrefusal)
  obtain ⟨w, hw⟩ := Volume.makeFolders_ok hroot
    (Path.longName_of_join hr.named) h
    fun _ => ⟨last, hlast, hl⟩
  have hpaved : Paved root w := fun q hq => by rw [Volume.node?_makeFolders hw, if_pos hq]
  rw [Volume.makeFolders, hroot] at hw
  rw [Volume.makeFolders, hrefusal, hpieces]
  simp only at hw ⊢
  rw [Volume.makeWay_append hw ⟨name, by simp, hn.1⟩]
  refine hpaved.mono fun q hq => ?_
  rcases Volume.node?_makeWay_cases w (Path.lead [] root.pieces) [versionName version, name] q with
    hs | ⟨hs, -⟩
  · rw [hs, hq]
  · rw [hq] at hs
    cases hs

/-- Preparing the folders of a store paves the way to its root again, wherever it stops. -/
theorem Unbarred.preparePlan (h : Unbarred root v) (hr : Roomy (homeOf root version))
    (hlast : root.pieces.getLast? = some last) (hl : Path.IsName last) :
    Paved root (v.run (preparePlan (homeOf root version))).1 := by
  have stays : ∀ {a b : Volume} {p : Path} {err}, a.apply (.makeFolders p) = (b, err) →
      Paved root a → Paved root b := by
    intro a b p err hm ha
    have hk := (Volume.makeFolders_keeps a p).2.2
    rw [show a.makeFolders p = (b, err) from hm] at hk
    exact ha.mono hk
  have hrecords : Paved root (v.apply (.makeFolders (folder (homeOf root version) .normal))).1 := by
    rw [folder_eq]
    exact h.makeFolders hr hlast hl (isName_folderName .normal)
      (folder_eq _ .normal ▸ hr.refusal_folder .normal)
  refine Volume.run_cons (P := Paved root) (fun a err ha => ?_) fun a ha => ?_
  · rwa [ha] at hrecords
  rw [ha] at hrecords
  refine Volume.run_cons (P := Paved root) (fun b err hb => stays hb hrecords) fun b hb => ?_
  have hpaved := stays hb hrecords
  have hleads : b.Leads (staging (homeOf root version)) :=
    leads_staging_of_makeFolders (v := a) hr hb
  refine Volume.run_cons (P := Paved root) (fun c err hc => ?_) fun c hc => ?_
  · -- only a file in the place of the staging folder cannot be cleared away, and it stays
    cases hn : b.fileAt? (staging (homeOf root version)).goal with
    | none =>
      obtain ⟨c', hc'⟩ := Volume.clearTree_ok hleads (endsInDot_join isName_tmp (by decide)) hn
      rw [hc] at hc'
      cases hc'
    | some file =>
      rw [Volume.clearTree_of_file hleads (Volume.fileAt?_eq_some_iff.mp hn)] at hc
      cases hc
      exact hpaved
  have hunbarred : Unbarred root c := by
    refine hpaved.unbarred.of_removed fun q => ?_
    have hn := Volume.node?_clearTree b (staging (homeOf root version)) q
    rw [hc] at hn
    exact hn.imp_right And.left
  have hstaging : Paved root (c.apply (.makeFolders (staging (homeOf root version)))).1 :=
    hunbarred.makeFolders hr hlast hl isName_tmp hr.refusal_staging
  refine Volume.run_cons (P := Paved root) (fun x err hx => ?_) fun x hx => ?_
  · rwa [hx] at hstaging
  · rwa [hx] at hstaging

/-- A store that does not open leaves the way to its root paved. -/
theorem Store.way_of_open?_none (hr : Roomy (homeOf root version))
    (hlast : root.pieces.getLast? = some last) (hl : Path.IsName last)
    (hv : ∀ q ∈ root.way, v.node? q = some .folder)
    (ho : Store.open? v root version capacity = (none, w)) :
    ∀ q ∈ root.way, w.node? q = some .folder := by
  rw [Store.open?] at ho
  split at ho
  · rename_i u err hu
    cases ho
    intro q hq
    have hk := (Volume.makeFolders_keeps v root).2.2 q (hv q hq)
    rwa [hu] at hk
  · rename_i u hu
    have hpaved : Paved root u := fun q hq => by rw [Volume.node?_makeFolders hu, if_pos hq]
    have hunbarred : Unbarred root (removeStale u root (versionName version)) :=
      hpaved.unbarred.of_removed fun q =>
        ((removeStale_keeps u root (versionName version)).2 q).imp_right And.left
    have hprepared := hunbarred.preparePlan hr hlast hl
    split at ho
    · cases ho
      exact fun q hq => hpaved q (.inl hq)
    · simp only at ho
      split at ho
      · rename_i x err hx
        cases ho
        rw [homeOf, hx] at hprepared
        exact fun q hq => hprepared q (.inl hq)
      · cases ho

end TierCache.Disk
