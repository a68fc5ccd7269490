import TierCache.Proofs.Disk.Shelving

/-!
# Removing all records

A folder of records is removed and made again. It comes back empty, but for folders that the path
to the home itself leads through.
-/
namespace TierCache.Disk

variable {s : Store} {v : Volume} {sh : Shelf} {root : Path}

theorem endsInDot_join {p : Path} {name : String} (h : Path.IsName name) (hn : name ≠ "") :
    (p.join name).endsInDot = false := by
  have hd : name ≠ "." := by
    rintro rfl
    exact absurd h.1 (by decide)
  simp [Path.endsInDot, Path.join, hn, hd]

theorem endsInDot_folder (root : Path) (r : Retention) : (folder root r).endsInDot = false := by
  rw [folder_eq]
  exact endsInDot_join (isName_folderName r) (by cases r <;> decide)

theorem isName_of_getLast? (root : Path) (r : Retention) :
    (folder root r).pieces.getLast? = some (folderName r) := by
  rw [folder_eq, Path.getLast?_join]

/-- A folder of records after it was removed and made again. -/
structure Renewed (root : Path) (r : Retention) (v w : Volume) : Prop where
  clock : w.clock = v.clock
  node : ∀ q, w.node? q =
    if (folder root r).goal <+: q ∧ q ≠ (folder root r).goal ∧ q ∉ root.way then none
    else v.node? q

theorem renew (hs : Standing root v) (hr : Roomy root) (r : Retention)
    (effects : List Volume.Effect) : ∃ w,
    v.run (.clearTree (folder root r) :: .makeFolders (folder root r) :: effects) =
      w.run effects ∧ Renewed root r v w := by
  obtain ⟨x, hx, hxc, hxg, hxn⟩ := Volume.clearTree_of_isFolder (hs.isFolder_folder hr r)
    (endsInDot_folder root r)
  have hway : ∀ q, q ∈ (folder root r).way ↔ q ∈ root.way ∨ q = root.goal := by
    intro q
    rw [folder_eq]
    exact Path.mem_way_join
  have hstand : ∀ q, q ∈ (folder root r).way → v.node? q = some .folder := by
    intro q hq
    rcases (hway q).mp hq with hq | rfl
    · exact (hs.root_leads hr).2 q hq
    · exact hs.root_folder
  have hfile : ∀ q, q ∈ (folder root r).way ∨ q = (folder root r).goal → x.fileAt? q = none := by
    intro q hq
    by_cases hg : q = (folder root r).goal
    · rw [hg, hxg]
    · have hv := hstand q (hq.resolve_right hg)
      rw [Volume.fileAt?, hxn q hg]
      by_cases hp : (folder root r).goal <+: q
      · simp [hp]
      · simp [hp, hv]
  obtain ⟨w, hw⟩ := Volume.makeFolders_ok (hr.refusal_folder r) (hr.named_folder r) hfile
    fun _ => ⟨_, isName_of_getLast? root r, isName_folderName r⟩
  refine ⟨w, ?_, ?_, fun q => ?_⟩
  · have hm : x.apply (.makeFolders (folder root r)) = (w, none) := hw
    simp only [Volume.run, hx, hm]
  · have := (Volume.makeFolders_keeps x (folder root r)).1
    rw [hw] at this
    exact this.trans hxc
  · rw [Volume.node?_makeFolders hw]
    simp only [hway]
    by_cases hg : q = (folder root r).goal
    · simp [hg, hs.node?_folder r]
    · rw [hxn q hg]
      have hroot : root.goal ≠ (folder root r).goal ∧ ¬ (folder root r).goal <+: root.goal := by
        rw [goal_folder]
        constructor
        · intro he
          have := congrArg List.length he
          simp at this
        · intro hp
          have := hp.length_le
          rw [List.length_append, List.length_singleton] at this
          omega
      by_cases hq : q = root.goal
      · simp [hq, hs.root_folder, hroot]
      · by_cases hm : q ∈ root.way
        · simp [hm, (hs.root_leads hr).2 q hm]
        · simp [hm, hq, hg]

namespace Renewed

variable {r : Retention} {w : Volume}

theorem standing (h : Renewed root r v w) (hs : Standing root v) : Standing root w := by
  intro q hq
  rw [h.node, if_neg, hs q hq]
  rintro ⟨hp, hne, hway⟩
  rw [goal_folder] at hp hne
  simp only [folders, List.mem_append, List.mem_cons, List.not_mem_nil, or_false] at hq
  have shorter : ∀ {xs : List String}, xs.length ≤ root.goal.length + 1 →
      root.goal ++ [folderName r] <+: xs → xs = root.goal ++ [folderName r] := by
    intro xs hx hp
    refine (hp.eq_of_length_le ?_).symm
    simpa using hx
  rcases hq with hq | rfl | rfl | rfl | rfl
  · exact hway hq
  · exact hne (shorter (by omega) hp)
  · exact hne (shorter (by simp) hp)
  · exact hne (shorter (by simp) hp)
  · exact hne (shorter (by simp) hp)

/-- A place under another name in the home stays. -/
theorem node?_other (h : Renewed root r v w) {name : String} (hn : name ≠ folderName r)
    (below : List String) :
    w.node? (root.goal ++ name :: below) = v.node? (root.goal ++ name :: below) := by
  rw [h.node, if_neg]
  rintro ⟨hp, -, -⟩
  rw [goal_folder, List.prefix_append_right_inj, List.cons_prefix_cons] at hp
  exact hn hp.1.symm

theorem node?_recordPlace (h : Renewed root r v w) (d : Digest) :
    w.node? (recordPlace root d r) =
      if recordPlace root d r ∈ root.way then v.node? (recordPlace root d r) else none := by
  have hp : (folder root r).goal <+: recordPlace root d r ∧
      recordPlace root d r ≠ (folder root r).goal := by
    rw [goal_folder]
    constructor
    · exact ⟨[d.text], by simp [recordPlace]⟩
    · intro he
      have := congrArg List.length he
      simp [recordPlace] at this
  rw [h.node]
  by_cases hm : recordPlace root d r ∈ root.way
  · simp [hm]
  · simp [hm, hp]

theorem outside (h : Renewed root r v w) {q : Place} (hq : ¬ root.goal <+: q) :
    w.node? q = v.node? q := by
  rw [h.node, if_neg]
  rintro ⟨hp, -, -⟩
  rw [goal_folder] at hp
  exact hq ((List.prefix_append _ _).trans hp)

end Renewed

/-- The volume after all records were removed. -/
theorem run_wipePlan (hs : Standing s.root v) (hr : Roomy s.root) :
    ∃ u w, v.run s.wipePlan = (w, none) ∧ Renewed s.root .normal v u ∧
      Renewed s.root .always u w := by
  obtain ⟨u, hu, hru⟩ := renew hs hr .normal
    [.clearTree (folder s.root .always), .makeFolders (folder s.root .always)]
  obtain ⟨w, hw, hrw⟩ := renew (hru.standing hs) hr .always []
  exact ⟨u, w, hu.trans hw, hru, hrw⟩

theorem Holds.wipe (h : Holds s v sh) :
    ∃ s' w, Slot.act (some s) v .wipe = ((sh.act v.clock .wipe).1, some s', w) ∧
      Holds.Result s v (sh.act v.clock .wipe).2 s' w := by
  have hs := h.agrees.standing
  obtain ⟨u, w, hw, hu, hrw⟩ := run_wipePlan hs h.agrees.roomy
  have hws : Standing s.root w := hrw.standing (hu.standing hs)
  have hrec : ∀ d r, w.node? (recordPlace s.root d r) =
      if recordPlace s.root d r ∈ s.root.way then some .folder else none := by
    intro d r
    by_cases hm : recordPlace s.root d r ∈ s.root.way
    · rw [if_pos hm]
      exact hws _ (List.mem_append_left _ hm)
    · rw [if_neg hm]
      cases r with
      | normal =>
        rw [recordPlace, hrw.node?_other (by decide), ← recordPlace, hu.node?_recordPlace,
          if_neg hm]
      | always => rw [hrw.node?_recordPlace, if_neg hm]
  have hfile : ∀ d r, w.fileAt? (recordPlace s.root d r) = none := by
    intro d r
    rw [Volume.fileAt?, hrec]
    split
    · rename_i hn
      split at hn
      · cases hn
      · cases hn
    · rfl
  have htmp : ∀ name, w.node? (s.root.goal ++ ["tmp", name]) =
      v.node? (s.root.goal ++ ["tmp", name]) := by
    intro name
    rw [hrw.node?_other (by decide), hu.node?_other (by decide)]
  have ha : Agrees { s with index := .empty } w :=
    { roomy := h.agrees.roomy
      standing := hws
      sound := .empty
      kept := fun d info hi => by cases hi
      only := fun d r hsome => by
        rw [hfile] at hsome
        cases hsome
      staged := fun name => (htmp name).trans (h.agrees.staged name) }
  have hc : canStage { s with index := .empty } w = canStage s v :=
    h.agrees.canStage_eq ha rfl
  refine ⟨{ s with index := .empty }, w, ?_, ?_, rfl, ?_, ?_⟩
  · simp only [Slot.act, Slot.wipe, Store.wipe, hw, Shelf.act]
  · refine ⟨ha, h.capacity, rfl, fun e he => absurd he List.not_mem_nil, fun d r => ?_,
      fun d r => ?_⟩
    · show sh.pinned d r = _
      rw [h.pinned, isBlocked, hc, hrec]
      by_cases hm : recordPlace s.root d r ∈ s.root.way
      · simp [hm]
      · simp [hm]
    · show sh.pinned d r = _
      rw [h.pinned, hc]
  · exact hrw.clock.trans hu.clock
  · exact fun q hq => (hrw.outside hq).trans (hu.outside hq)

end TierCache.Disk
