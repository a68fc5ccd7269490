import TierCache.Proofs.Disk.Rebuilding
import TierCache.Proofs.Volume.Tidying

/-!
# Preparing the folders of a store

Opening a store removes what other versions left beside its home, makes its folders where they are
missing, and empties the staging folder. The records in its home stay as they are.
-/
namespace TierCache

namespace Volume

theorem run_cons_ok {v w : Volume} {e : Effect} {es : List Effect}
    (h : v.run (e :: es) = (w, none)) :
    ∃ a, v.apply e = (a, none) ∧ a.run es = (w, none) := by
  rw [run] at h
  split at h
  · rename_i a ha
    exact ⟨a, ha, h⟩
  · rename_i hne
    exact absurd h (hne w)

/-- A row of effects stops at the first or goes on after it. -/
theorem run_cons {P : Volume → Prop} {v : Volume} {e : Effect} {es : List Effect}
    (hstop : ∀ a err, v.apply e = (a, some err) → P a)
    (hgo : ∀ a, v.apply e = (a, none) → P (a.run es).1) : P (v.run (e :: es)).1 := by
  rw [run]
  split
  · rename_i a ha
    exact hgo a ha
  · rename_i hne
    cases he : v.apply e with
    | mk a failed =>
      cases failed with
      | none => exact absurd he (hne a)
      | some err => exact hstop a err he

/-- A row of effects fails if it stops at the first or fails after it. -/
theorem run_cons_error {P : Volume → Prop} {v : Volume} {e : Effect} {es : List Effect}
    (hstop : ∀ a err, v.apply e = (a, some err) → P a)
    (hgo : ∀ a, v.apply e = (a, none) → ∃ w err, a.run es = (w, some err) ∧ P w) :
    ∃ w err, v.run (e :: es) = (w, some err) ∧ P w := by
  rw [run]
  split
  · rename_i a ha
    exact hgo a ha
  · rename_i hne
    cases he : v.apply e with
    | mk a failed =>
      cases failed with
      | none => exact absurd he (hne a)
      | some err => exact ⟨a, err, rfl, hstop a err he⟩

end Volume

namespace Disk

variable {root home : Path} {v w : Volume}

theorem isName_of_toList {name : String} {ds : List Char} (h : name.toList = 'v' :: ds) :
    Path.IsName name := by
  constructor
  · rw [Path.isStill, Bool.or_eq_false_iff, decide_eq_false_iff_not, decide_eq_false_iff_not]
    constructor
    · rintro rfl
      cases h
    · rintro rfl
      exact absurd h (by simp)
  · rintro rfl
    exact absurd h (by simp)

theorem isName_versionName (version : UInt32) : Path.IsName (versionName version) :=
  @isName_of_toList _ (toString version.toNat).toList
    (by rw [versionName, String.toList_append]; rfl)

theorem isName_of_isVersionName {name : String} (h : isVersionName name = true) :
    Path.IsName name := by
  rw [isVersionName] at h
  split at h
  · rename_i ds hl
    exact isName_of_toList hl
  · cases h

theorem mem_staleVersions {current : String} {p : Path} :
    p ∈ staleVersions v root current ↔ ∃ name, isVersionName name = true ∧ name ≠ current ∧
      (name, .folder) ∈ v.children root ∧ p = root.join name := by
  rw [staleVersions, List.mem_filterMap]
  simp only [Option.ite_none_right_eq_some, Bool.and_eq_true, decide_eq_true_eq, Option.some.injEq]
  constructor
  · rintro ⟨⟨name, node⟩, hm, ⟨⟨hv, hne⟩, rfl⟩, rfl⟩
    exact ⟨name, hv, hne, hm, rfl⟩
  · rintro ⟨name, hv, hne, hm, rfl⟩
    exact ⟨(name, .folder), hm, ⟨⟨hv, hne⟩, rfl⟩, rfl⟩

theorem goal_of_mem_staleVersions {current : String} {p : Path}
    (h : p ∈ staleVersions v root current) :
    ∃ name, name ≠ current ∧ p.goal = root.goal ++ [name] := by
  obtain ⟨name, hv, hne, -, rfl⟩ := mem_staleVersions.mp h
  exact ⟨name, hne, Path.goal_join root (isName_of_isVersionName hv)⟩

/-- Clears some paths away, those that it can. -/
def clearEach (v : Volume) (ps : List Path) : Volume :=
  ps.foldl (fun v p => (v.run [.clearTree p]).1) v

@[simp] theorem clearEach_cons (v : Volume) (p : Path) (ps : List Path) :
    clearEach v (p :: ps) = clearEach (v.apply (.clearTree p)).1 ps := by
  have hrun : (v.run [.clearTree p]).1 = (v.apply (.clearTree p)).1 := by
    rw [Volume.run]
    obtain ⟨a, _ | err⟩ := v.apply (.clearTree p)
    · rfl
    · rfl
  rw [clearEach, List.foldl_cons, hrun]
  rfl

/-- What goes away was below one of the paths. -/
theorem clearEach_keeps (v : Volume) (ps : List Path) : (clearEach v ps).clock = v.clock ∧
    ∀ q, (clearEach v ps).node? q = v.node? q ∨
      (clearEach v ps).node? q = none ∧ ∃ p ∈ ps, p.goal <+: q := by
  induction ps generalizing v with
  | nil => exact ⟨rfl, fun _ => .inl rfl⟩
  | cons p ps ih =>
    obtain ⟨hc, hq⟩ := ih (v.apply (.clearTree p)).1
    rw [clearEach_cons]
    refine ⟨hc.trans (Volume.medium_apply v (.clearTree p)).1, fun q => ?_⟩
    cases hq q with
    | inl hq =>
      rw [hq]
      exact (Volume.node?_clearTree v p q).imp_right fun h => ⟨h.1, p, List.mem_cons_self, h.2.2⟩
    | inr hq =>
      obtain ⟨hn, p', hp', hpre⟩ := hq
      exact .inr ⟨hn, p', List.mem_cons_of_mem p hp', hpre⟩

/-- What goes away is in the folders of other versions. -/
theorem removeStale_keeps (v : Volume) (root : Path) (current : String) :
    (removeStale v root current).clock = v.clock ∧
      ∀ q, (removeStale v root current).node? q = v.node? q ∨
        (removeStale v root current).node? q = none ∧
          ∃ name, name ≠ current ∧ root.goal ++ [name] <+: q := by
  obtain ⟨hc, hq⟩ := clearEach_keeps v (staleVersions v root current)
  refine ⟨hc, fun q => (hq q).imp_right fun ⟨hn, p, hp, hpre⟩ => ⟨hn, ?_⟩⟩
  obtain ⟨name, hne, hg⟩ := goal_of_mem_staleVersions hp
  exact ⟨name, hne, hg ▸ hpre⟩

theorem mem_way_folder (home : Path) (r : Retention) (q : Place) :
    q ∈ (folder home r).way ↔ q ∈ home.way ∨ q = home.goal := by
  rw [folder_eq]
  exact Path.mem_way_join

/-- The way to the staging folder is that to any folder of the store. -/
theorem leads_staging_of_makeFolders (hr : Roomy home) {r : Retention}
    (h : v.makeFolders (folder home r) = (w, none)) : w.Leads (staging home) := by
  refine ⟨hr.refusal_staging, fun q hq => ?_⟩
  rw [Volume.node?_makeFolders h, if_pos]
  exact .inl ((mem_way_folder home r q).mpr (Path.mem_way_join.mp hq))

theorem mem_folders {q : Place} : q ∈ folders home ↔
    (q ∈ home.way ∨ q = home.goal) ∨ q = (folder home .normal).goal ∨
      q = (folder home .always).goal ∨ q = (staging home).goal := by
  rw [goal_folder, goal_folder, goal_staging]
  simp [folders, folderName, or_assoc]

theorem prefix_staging (home : Path) : home.goal <+: (staging home).goal := by
  rw [goal_staging]
  exact List.prefix_append _ _

theorem not_prefix_staging (home : Path) (r : Retention) :
    ¬ (staging home).goal <+: (folder home r).goal := by
  rw [goal_staging, goal_folder]
  intro h
  have := h.eq_of_length (by simp)
  have := List.append_cancel_left this
  exact folderName_ne_tmp r (by simpa using this.symm)

/-- After the folders were prepared they stand, the staging folder is empty, and all else is as it
was. -/
theorem preparePlan_keeps (hr : Roomy home) (h : v.run (preparePlan home) = (w, none))
    (hv : v.node? (staging home).goal = none → ∀ below, below ≠ [] →
      (staging home).goal ++ below ∉ folders home →
        v.node? ((staging home).goal ++ below) = none) :
    w.clock = v.clock ∧ ∀ q, w.node? q = if q ∈ folders home then some .folder
      else if (staging home).goal <+: q then none else v.node? q := by
  have hclock := (Volume.medium_run v (preparePlan home)).1
  rw [h] at hclock
  obtain ⟨a, ha, h⟩ := Volume.run_cons_ok h
  obtain ⟨b, hb, h⟩ := Volume.run_cons_ok h
  obtain ⟨c, hc, h⟩ := Volume.run_cons_ok h
  obtain ⟨x, hx, h⟩ := Volume.run_cons_ok h
  cases h
  refine ⟨hclock, fun q => ?_⟩
  have hna := Volume.node?_makeFolders (v := v) ha
  have hnb := Volume.node?_makeFolders (v := a) hb
  have hnw := Volume.node?_makeFolders (v := c) hx
  simp only [mem_way_folder] at hna hnb
  have hway : ∀ q, q ∈ (staging home).way ↔ q ∈ home.way ∨ q = home.goal :=
    fun q => Path.mem_way_join
  simp only [hway] at hnw
  rw [hnw]
  by_cases hq : (q ∈ home.way ∨ q = home.goal) ∨ q = (staging home).goal
  · rw [if_pos hq, if_pos]
    exact mem_folders.mpr (hq.imp_right fun h => .inr (.inr h))
  · rw [if_neg hq]
    have hbl : b.Leads (staging home) := leads_staging_of_makeFolders (v := a) hr hb
    have hbv : ∀ q, b.node? q = if (q ∈ home.way ∨ q = home.goal) ∨ q = (folder home .normal).goal ∨
        q = (folder home .always).goal then some .folder else v.node? q := by
      intro q
      rw [hnb, hna]
      by_cases hw : q ∈ home.way ∨ q = home.goal
      · simp [hw]
      · by_cases hn : q = (folder home .normal).goal
        · simp [hn]
        · simp [hw, hn]
    have hcq : c.node? q = if (staging home).goal <+: q then none else b.node? q := by
      refine Volume.node?_of_clearTree hbl (endsInDot_join isName_tmp (by decide)) hc
        (fun h => hq (.inr h)) fun hn hp => ?_
      obtain ⟨below, rfl⟩ := hp
      have hne : below ≠ [] := by
        rintro rfl
        exact hq (.inr (List.append_nil _))
      have hf : (staging home).goal ++ below ∉ folders home := by
        rw [mem_folders]
        rintro (h | h | h | h)
        · exact hq (.inl h)
        · exact not_prefix_staging home .normal ⟨below, h⟩
        · exact not_prefix_staging home .always ⟨below, h⟩
        · exact hq (.inr h)
      have hvn : v.node? (staging home).goal = none := by
        rw [hbv] at hn
        split at hn
        · cases hn
        · exact hn
      rw [hbv, if_neg fun h => hf (mem_folders.mpr (h.imp_right fun h => h.imp_right .inl)),
        hv hvn below hne hf]
    rw [hcq, hbv]
    simp only [mem_folders]
    by_cases hp : (staging home).goal <+: q
    · have hn : q ≠ (folder home .normal).goal := fun h => not_prefix_staging home .normal (h ▸ hp)
      have ha : q ≠ (folder home .always).goal := fun h => not_prefix_staging home .always (h ▸ hp)
      simp [hp, hn, ha, not_or.mp hq]
    · simp only [hp, if_false]
      have hs : q ≠ (staging home).goal := fun h => hq (.inr h)
      simp only [hs, or_false]

theorem prepared_of_node (hr : Roomy home) (hn : ∀ q, w.node? q =
    if q ∈ folders home then some .folder
      else if (staging home).goal <+: q then none else v.node? q) : Prepared home w where
  roomy := hr
  standing := by
    intro q hq
    rw [hn, if_pos hq]
  staged := by
    intro name
    have hp : (staging home).goal <+: home.goal ++ ["tmp", name] := by
      rw [goal_staging]
      exact ⟨[name], by simp⟩
    have hm : home.goal ++ ["tmp", name] ∈ folders home ↔
        home.goal ++ ["tmp", name] ∈ home.way := by
      simp [folders]
    rw [hn, if_pos hp]
    simp only [hm]

/-- The folders can be made where no file is in their place. -/
theorem preparePlan_ok (hr : Roomy home) (hf : ∀ q ∈ folders home, v.fileAt? q = none) :
    ∃ w, v.run (preparePlan home) = (w, none) := by
  have make : ∀ {u : Volume} (r : Retention), (∀ q ∈ folders home, u.fileAt? q = none) →
      ∃ x, u.apply (.makeFolders (folder home r)) = (x, none) ∧
        ∀ q ∈ folders home, x.fileAt? q = none := by
    intro u r hu
    obtain ⟨x, hx⟩ := Volume.makeFolders_ok (hr.refusal_folder r) (hr.named_folder r)
      (fun q hq => hu q (mem_folders.mpr (by
        rw [mem_way_folder] at hq
        cases r with
        | normal => exact hq.imp_right .inl
        | always => exact hq.imp_right fun h => .inr (.inl h))))
      fun _ => ⟨_, isName_of_getLast? home r, isName_folderName r⟩
    refine ⟨x, hx, fun q hq => ?_⟩
    have := (Volume.makeFolders_keeps u (folder home r)).2.1 q
    rw [hx] at this
    rw [this, hu q hq]
  obtain ⟨a, ha, hfa⟩ := make .normal hf
  obtain ⟨b, hb, hfb⟩ := make .always hfa
  have hbl : b.Leads (staging home) := leads_staging_of_makeFolders (v := a) hr hb
  obtain ⟨c, hc⟩ := Volume.clearTree_ok hbl (endsInDot_join isName_tmp (by decide))
    (hfb (staging home).goal (mem_folders.mpr (.inr (.inr (.inr rfl)))))
  have hfc : ∀ q, q ∈ (staging home).way ∨ q = (staging home).goal → c.fileAt? q = none := by
    intro q hq
    have hq : q ∈ folders home := by
      rw [mem_folders]
      exact hq.imp Path.mem_way_join.mp fun h => .inr (.inr h)
    have hcq := Volume.node?_clearTree b (staging home) q
    rw [hc] at hcq
    rcases hcq with hcq | ⟨hcq, -⟩
    · rw [Volume.fileAt?, hcq]
      exact hfb q hq
    · rw [Volume.fileAt?, hcq]
  obtain ⟨w, hw⟩ := Volume.makeFolders_ok hr.refusal_staging
    (Path.longName_join hr.named (by decide)) hfc
    fun _ => ⟨_, Path.getLast?_join home "tmp", isName_tmp⟩
  have hw' : c.apply (.makeFolders (staging home)) = (w, none) := hw
  exact ⟨w, by simp only [preparePlan, Volume.run, ha, hb, hc, hw']⟩

end Disk

end TierCache
