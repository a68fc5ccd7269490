import TierCache.Proofs.Disk.Restart

/-!
# Writes that are cut off

A write that is cut off leaves the records as they were, or has put the new one in its place, with
or without the copy under the other retention. Wherever it stops, opening the store again comes
upon the old bytes or the new ones, in one copy, and all other records are as before. Which of two
copies is kept is for their times to say.
-/
namespace TierCache.Disk

variable {s s' : Store} {v w w' : Volume} {d : Digest} {r : Retention} {bytes : List UInt8}
variable {root : Path} {version : UInt32} {capacity : Nat}

/-- The volumes that a write may leave behind: after some of its effects, with some of the bytes
staged, or with the staged file of a failed write removed again. -/
inductive CutOff (s : Store) (v : Volume) (d : Digest) (bytes : List UInt8) (r : Retention) :
    Volume → Prop where
  | after (n : Nat) : CutOff s v d bytes r
      (v.run ((s.writePlan (s.stagePath v) d bytes r).take n)).1
  | within (n : Nat) : CutOff s v d bytes r
      (v.run [.createFile (s.stagePath v), .append (s.stagePath v) (bytes.take n)]).1
  | undone {w : Volume} {err : VolumeError}
      (h : v.run (s.writePlan (s.stagePath v) d bytes r) = (w, some err)) :
      CutOff s v d bytes r (w.discard (s.stagePath v))

/-- A volume with a record half replaced: its copies are the old ones, or the new one and perhaps
the old one of the other retention. -/
structure Torn (s : Store) (v : Volume) (d : Digest) (bytes : List UInt8) (r : Retention)
    (w : Volume) : Prop where
  standing : Standing s.root w
  others : ∀ d' r', d' ≠ d →
    w.fileAt? (recordPlace s.root d' r') = v.fileAt? (recordPlace s.root d' r')
  copies : (∀ r', w.fileAt? (recordPlace s.root d r') = v.fileAt? (recordPlace s.root d r')) ∨
    w.fileAt? (recordPlace s.root d r) = some (bytes, v.clock) ∧
      (w.fileAt? (recordPlace s.root d r.other) = v.fileAt? (recordPlace s.root d r.other) ∨
        w.fileAt? (recordPlace s.root d r.other) = none)

namespace Torn

/-- Nothing has happened to the records yet. -/
theorem of_unmoved (h : Standing s.root w) (hf : ∀ d' r', w.fileAt? (recordPlace s.root d' r') =
    v.fileAt? (recordPlace s.root d' r')) : Torn s v d bytes r w :=
  ⟨h, fun d' r' _ => hf d' r', .inl (hf d)⟩

theorem of_node (h : Agrees s v) (hn : ∀ q, w.node? q = v.node? q) : Torn s v d bytes r w := by
  refine of_unmoved (h.standing.mono fun q hq => (hn q).trans hq) fun d' r' => ?_
  rw [Volume.fileAt?, hn]
  rfl

theorem of_staged {staged : List UInt8} (h : Agrees s v) (hw : Staged s v staged w) :
    Torn s v d bytes r w := by
  refine of_unmoved (hw.standing h) fun d' r' => ?_
  have hne : recordPlace s.root d' r' ≠ stagePlace s v := recordPlace_ne_staged _ _ d' r' _
  rw [hw.fileAt?, if_neg hne]

/-- The record stands in its place, and the copy of the other retention is still there. -/
theorem of_moved (h : Agrees s v) (hf : v.node? (recordPlace s.root d r) ≠ some .folder)
    (hn : ∀ q, w.node? q =
      if q = recordPlace s.root d r then some (.file bytes v.clock) else v.node? q) :
    Torn s v d bytes r w := by
  have hfile : ∀ q, q ≠ recordPlace s.root d r → w.fileAt? q = v.fileAt? q := by
    intro q hq
    rw [Volume.fileAt?, hn, if_neg hq]
    rfl
  refine ⟨fun q hq => ?_, fun d' r' hd => ?_, .inr ⟨?_, .inl ?_⟩⟩
  · have hne : q ≠ recordPlace s.root d r := by
      rintro rfl
      exact hf (h.standing _ hq)
    rw [hn, if_neg hne, h.standing q hq]
  · exact hfile _ fun he => hd (recordPlace_injective he).1
  · rw [Volume.fileAt?, hn, if_pos rfl]
  · exact hfile _ fun he => other_ne r (recordPlace_injective he).2

theorem of_written (h : Agrees s v) (hw : Written s v d bytes r w) : Torn s v d bytes r w := by
  refine ⟨h.standing.mono fun q hq => (hw.folders q).mpr hq, fun d' r' hd => ?_, .inr ⟨?_, .inr ?_⟩⟩
  · rw [hw.files, if_neg fun he => hd (recordPlace_injective he).1,
      if_neg fun he => hd (recordPlace_injective he).1]
  · rw [hw.files, if_pos rfl]
  · rw [hw.files, if_neg fun he => other_ne r (recordPlace_injective he).2, if_pos rfl]

end Torn

/-- A write that cannot be staged stops before anything has happened. -/
theorem Agrees.torn_unstaged (h : Agrees s v) (hc : canStage s v = false)
    (es : List Volume.Effect) :
    Torn s v d bytes r (v.run (.createFile (s.stagePath v) :: es)).1 := by
  obtain ⟨err, he⟩ := createFile_error hc
  simp only [Volume.run, he]
  exact .of_node h fun _ => rfl

/-- The stages of a write that can be staged, one effect after the other. -/
theorem Agrees.torn_staged (h : Agrees s v) (hc : canStage s v = true) (n : Nat) :
    Torn s v d bytes r (v.run ((s.writePlan (s.stagePath v) d bytes r).take n)).1 := by
  obtain ⟨a, ha, hsa⟩ := h.createFile hc
  obtain ⟨b, hb, hsb⟩ := hsa.append (hsa.leads h hc) bytes
  match n with
  | 0 => exact .of_node h fun _ => rfl
  | 1 =>
    simp only [Store.writePlan, List.take_succ_cons, List.take_zero, Volume.run, ha]
    exact .of_staged h hsa
  | 2 =>
    simp only [Store.writePlan, List.take_succ_cons, List.take_zero, Volume.run, ha, hb]
    exact .of_staged h hsb
  | 3 =>
    simp only [Store.writePlan, List.take_succ_cons, List.take_zero, Volume.run, ha, hb]
    by_cases hd : v.node? (recordPlace s.root d r) = some .folder
    · obtain ⟨err, hm⟩ := hsb.moveFile_error h hc hd
      simp only [hm]
      exact .of_staged h hsb
    · obtain ⟨c, hm, hn, -⟩ := hsb.moveFile h hc hd
      simp only [hm]
      exact .of_moved h hd hn
  | n + 4 =>
    have hall : (s.writePlan (s.stagePath v) d bytes r).take (n + 4) =
        s.writePlan (s.stagePath v) d bytes r := List.take_of_length_le (by simp [Store.writePlan])
    rw [hall]
    by_cases hd : v.node? (recordPlace s.root d r) = some .folder
    · obtain ⟨err, hm⟩ := hsb.moveFile_error h hc hd
      simp only [Store.writePlan, Volume.run, ha, hb, hm]
      exact .of_staged h hsb
    · obtain ⟨w, hw, hwritten⟩ := h.run_writePlan (isBlocked_eq_false.mpr ⟨hc, hd⟩) bytes
      rw [hw]
      exact .of_written h hwritten

/-- Wherever a write stops, the record is torn at worst. -/
theorem Agrees.torn (h : Agrees s v) (hw : CutOff s v d bytes r w) : Torn s v d bytes r w := by
  cases hw with
  | after n =>
    cases hc : canStage s v with
    | true => exact h.torn_staged hc n
    | false =>
      cases n with
      | zero => exact .of_node h fun _ => rfl
      | succ n => exact h.torn_unstaged hc _
  | within n =>
    cases hc : canStage s v with
    | true =>
      obtain ⟨a, ha, hsa⟩ := h.createFile hc
      obtain ⟨b, hb, hsb⟩ := hsa.append (hsa.leads h hc) (bytes.take n)
      simp only [Volume.run, ha, hb]
      exact .of_staged h hsb
    | false => exact h.torn_unstaged hc _
  | undone hrun =>
    cases hb : isBlocked s v d r with
    | true =>
      obtain ⟨w', err, hw', hn, -⟩ := h.run_writePlan_error hb bytes
      rw [hrun] at hw'
      cases hw'
      exact .of_node h hn
    | false =>
      obtain ⟨w', hw', -⟩ := h.run_writePlan hb bytes
      rw [hrun] at hw'
      cases hw'

/-- A write that is not cut off comes to its last stage, and only evicts after that. -/
theorem Agrees.put_cutOff (h : Agrees s v) (d : Digest) (bytes : List UInt8) (r : Retention) :
    ∃ w, CutOff s v d bytes r w ∧
      (s.put v d bytes r = (.failed, s, w) ∨
        s.put v d bytes r =
          (.committed, Store.shrink { s with index := s.index.insert d ⟨bytes.length, r⟩ } w)) := by
  have hmake := Volume.makeFolders_of_isFolder (h.standing.isFolder_staging h.roomy)
  cases hrun : v.run (s.writePlan (s.stagePath v) d bytes r) with
  | mk w stop =>
    cases stop with
    | some err =>
      refine ⟨w.discard (s.stagePath v), .undone hrun, .inl ?_⟩
      simp only [Store.put, hmake, hrun]
    | none =>
      have hafter : CutOff s v d bytes r w := by
        have hall : CutOff s v d bytes r _ := .after 4
        rwa [List.take_of_length_le (by simp [Store.writePlan]), hrun] at hall
      refine ⟨w, hafter, .inr ?_⟩
      simp only [Store.put, hmake, hrun]

/-- Any choice of one copy of each record in a home fits. -/
def Accommodates (capacity : Nat) (home : Path) (w : Volume) : Prop :=
  ∀ rows : List Row, (rows.map Row.digest).Nodup →
    (∀ e ∈ rows, w.fileAt? (recordPlace home e.digest e.retention) = some (e.bytes, e.time)) →
      total (fun e => e.bytes.length) rows ≤ capacity

/-- A store that was opened with one copy of each record that stood in its home, and no other. -/
structure Repaired (w : Volume) (s' : Store) (w' : Volume) : Prop where
  agrees : Agrees s' w'
  found : ∀ d r f, w'.fileAt? (recordPlace s'.root d r) = some f →
    w.fileAt? (recordPlace s'.root d r) = some f
  complete : ∀ d r f, w.fileAt? (recordPlace s'.root d r) = some f →
    ∃ r' f', w'.fileAt? (recordPlace s'.root d r') = some f'

/-- With room for one copy of each record, opening a store keeps one copy of each. -/
theorem open_repaired (hr : Roomy (homeOf root version)) (hs : Standing (homeOf root version) w)
    (hc : capacity ≠ 0) (hfit : Accommodates capacity (homeOf root version) w) :
    ∃ s' w', Store.open? w root version capacity = (some s', w') ∧
      s'.root = homeOf root version ∧ Repaired w s' w' := by
  have hfollow : Volume.refusal root = none := Path.refusal_of_join (hs.root_leads hr).1
  obtain ⟨s', w', ho⟩ := open_of_standing hr hs hfollow hc
  have hstaging : w.node? (staging (homeOf root version)).goal ≠ none := by
    rw [hs.node?_staging]
    nofun
  obtain ⟨rows, hop⟩ := opened hr (fun hn => absurd hn hstaging) ho
  obtain ⟨b, p, hh⟩ := hop.holds
  have hrows : ∀ e ∈ (Shelf.addAll ⟨capacity, [], b, p⟩ rows).rows,
      w.fileAt? (recordPlace (homeOf root version) e.digest e.retention) =
        some (e.bytes, e.time) := fun e he =>
    (hop.found e).mp ((Shelf.mem_addAll he).resolve_left List.not_mem_nil)
  have hempty : (Shelf.mk capacity [] b p).Distinct := List.nodup_nil
  have hdistinct := hempty.addAll rows
  have hsettled : (Shelf.addAll ⟨capacity, [], b, p⟩ rows).Settled := by
    refine .inl ?_
    rw [Shelf.addAll_eq]
    exact hfit _ hdistinct hrows
  rw [Shelf.shrink_of_settled hsettled] at hh
  refine ⟨s', w', ho, hop.root_eq, hh.agrees, fun d r f hf => ?_, fun d r f hf => ?_⟩
  · rw [hop.root_eq]
    exact hrows ⟨d, r, f.1, f.2⟩ (hh.mem_rows.mpr hf)
  · rw [hop.root_eq] at hf
    have hm : (⟨d, r, f.1, f.2⟩ : Row) ∈ rows := (hop.found _).mpr hf
    have hkept : ∃ e ∈ (Shelf.addAll ⟨capacity, [], b, p⟩ rows).rows, e.digest = d :=
      Shelf.exists_mem_addAll (.inr hm)
    obtain ⟨e, he, hd⟩ := hkept
    have hfile := hh.files e he
    rw [hd] at hfile
    exact ⟨e.retention, _, hfile⟩

namespace Agrees

theorem get?_eq_some_iff (h : Agrees s v) {n : Nat} : s.index.get? d = some ⟨n, r⟩ ↔
    ∃ bytes time, v.fileAt? (recordPlace s.root d r) = some (bytes, time) ∧ bytes.length = n := by
  constructor
  · exact h.kept d ⟨n, r⟩
  · rintro ⟨bytes, time, hf, rfl⟩
    obtain ⟨size, hi⟩ := h.only d r (by rw [hf]; rfl)
    obtain ⟨bytes', time', hf', hsize⟩ := h.kept d _ hi
    cases hf.symm.trans hf'
    rw [hi, hsize]

theorem get_eq_some_iff (h : Agrees s v) : (s.get v d).1 = some bytes ↔
    ∃ r time, v.fileAt? (recordPlace s.root d r) = some (bytes, time) := by
  rw [Store.get]
  cases hi : s.index.get? d with
  | none =>
    refine iff_of_false (fun h => by cases h) ?_
    rintro ⟨r, time, hf⟩
    rw [h.fileAt?_of_none hi r] at hf
    cases hf
  | some info =>
    obtain ⟨bytes', time, hf, -, hread⟩ := h.read_eq hi
    simp only [Store.pathOf] at hread
    simp only [Store.pathOf, hread, Option.some.injEq]
    constructor
    · rintro rfl
      exact ⟨info.retention, time, hf⟩
    · rintro ⟨r', time', hf'⟩
      by_cases hr : r' = info.retention
      · rw [hr, hf] at hf'
        cases hf'
        rfl
      · rw [h.fileAt?_of_ne hi hr] at hf'
        cases hf'

/-- The same files make the same answers. -/
theorem get_congr (h : Agrees s v) (h' : Agrees s' w') (hf : ∀ r,
    w'.fileAt? (recordPlace s'.root d r) = v.fileAt? (recordPlace s.root d r)) :
    (s'.get w' d).1 = (s.get v d).1 ∧ s'.index.get? d = s.index.get? d := by
  constructor
  · apply Option.ext
    intro bytes
    rw [h'.get_eq_some_iff, h.get_eq_some_iff]
    simp only [hf]
  · apply Option.ext
    rintro ⟨n, r⟩
    rw [h'.get?_eq_some_iff, h.get?_eq_some_iff, hf]

/-- A record has one retention. -/
theorem retention_eq (h : Agrees s v) {r r' : Retention} {f f' : List UInt8 × Int}
    (hf : v.fileAt? (recordPlace s.root d r) = some f)
    (hf' : v.fileAt? (recordPlace s.root d r') = some f') : r' = r := by
  obtain ⟨size, hi⟩ := h.only d r (by rw [hf]; rfl)
  obtain ⟨size', hi'⟩ := h.only d r' (by rw [hf']; rfl)
  cases hi.symm.trans hi'
  rfl

theorem children_staging (h : Agrees s v) : v.children (staging s.root) = [] ↔
    ∀ name, s.root.goal ++ ["tmp", name] ∉ s.root.way := by
  have hnode : ∀ name n, (name, n) ∈ v.children (staging s.root) ↔
      v.node? (s.root.goal ++ ["tmp", name]) = some n := by
    intro name n
    rw [Volume.mem_children_iff (h.standing.leads_staging h.roomy), goal_staging,
      List.append_assoc]
    rfl
  rw [List.eq_nil_iff_forall_not_mem]
  constructor
  · intro hnone name hway
    refine hnone (name, .folder) ((hnode name .folder).mpr ?_)
    rw [h.staged, if_pos hway]
  · rintro hway ⟨name, n⟩ hm
    rw [hnode, h.staged, if_neg (hway name)] at hm
    cases hm

end Agrees

/-- Room for all that is indexed and for the new bytes is enough. -/
theorem Torn.accommodates (h : Agrees s v) (ht : Torn s v d bytes r w)
    (hc : s.index.totalSize + bytes.length ≤ capacity) : Accommodates capacity s.root w := by
  intro rows hn hrows
  have hnodup : rows.Nodup :=
    List.Pairwise.of_map Row.digest (fun _ _ hne he => hne (congrArg Row.digest he)) hn
  let old : Row → Bool := fun e =>
    v.fileAt? (recordPlace s.root e.digest e.retention) = some (e.bytes, e.time)
  have hold : total (fun e => e.bytes.length) (rows.filter old) ≤ s.index.totalSize := by
    have hsize := total_map (fun p : Digest × RecordInfo => p.2.size) Row.entry (rows.filter old)
    refine Nat.le_trans (Nat.le_of_eq hsize.symm) ?_
    rw [h.sound.totalSize_eq]
    refine total_le_of_subset _ ?_ fun p hp => ?_
    · have hkeys : (((rows.filter old).map Row.entry).map Prod.fst).Nodup := by
        rw [List.map_map]
        exact hn.sublist (List.filter_sublist.map _)
      exact List.Pairwise.of_map Prod.fst (fun _ _ hne he => hne (congrArg Prod.fst he)) hkeys
    · obtain ⟨e, he, rfl⟩ := List.mem_map.mp hp
      have hv := of_decide_eq_true (List.mem_filter.mp he).2
      exact h.sound.mem_entries.mpr (h.get?_eq_some_iff.mpr ⟨e.bytes, e.time, hv, rfl⟩)
  have hnew : total (fun e => e.bytes.length) (rows.filter fun e => !old e) ≤ bytes.length := by
    have hone : rows.filter (fun e => !old e) ⊆ [⟨d, r, bytes, v.clock⟩] := by
      intro e he
      obtain ⟨hm, hne⟩ := List.mem_filter.mp he
      have hne : v.fileAt? (recordPlace s.root e.digest e.retention) ≠ some (e.bytes, e.time) := by
        simpa [old] using hne
      have hw := hrows e hm
      have hd : e.digest = d := by
        by_cases hd : e.digest = d
        · exact hd
        · exact absurd ((ht.others _ _ hd).symm.trans hw) hne
      rw [hd] at hne hw
      -- a row of the record that did not stand before is the new copy
      rcases ht.copies with hsame | ⟨hnew, hold⟩
      · exact absurd ((hsame _).symm.trans hw) hne
      · rcases eq_or_eq_other r e.retention with hr | hr
        · rw [hr, hnew] at hw
          cases e
          cases hw
          cases hd
          cases hr
          exact List.mem_singleton_self _
        · rw [hr] at hne hw
          rcases hold with hold | hold
          · exact absurd (hold.symm.trans hw) hne
          · rw [hold] at hw
            cases hw
    exact Nat.le_trans (total_le_of_subset _ (hnodup.sublist List.filter_sublist) hone)
      (Nat.le_of_eq (Nat.add_zero _))
  have := total_filter_add (fun e : Row => e.bytes.length) old rows
  omega

/-- What is found after a write of a digest was cut off. -/
structure Recovered (s : Store) (v : Volume) (d : Digest) (bytes : List UInt8) (s' : Store)
    (w' : Volume) : Prop where
  root : s'.root = s.root
  agrees : Agrees s' w'
  content : (s'.get w' d).1 = (s.get v d).1 ∨ (s'.get w' d).1 = some bytes
  single : ∀ r, (w'.fileAt? (recordPlace s.root d r)).isSome →
    w'.fileAt? (recordPlace s.root d r.other) = none
  others : ∀ d', d' ≠ d → (s'.get w' d').1 = (s.get v d').1 ∧
    s'.index.get? d' = s.index.get? d' ∧
    ∀ r, w'.fileAt? (recordPlace s.root d' r) = v.fileAt? (recordPlace s.root d' r)
  /-- The staging folder is empty, if it was so before the write. -/
  staging : v.children (staging s.root) = [] → w'.children (staging s.root) = []

namespace Repaired

/-- A record that was not torn is kept as it was. -/
theorem fileAt?_eq (hp : Repaired w s' w') (h : Agrees s v) (hroot : s'.root = s.root)
    (hf : ∀ r, w.fileAt? (recordPlace s.root d r) = v.fileAt? (recordPlace s.root d r))
    (r : Retention) :
    w'.fileAt? (recordPlace s.root d r) = v.fileAt? (recordPlace s.root d r) := by
  have hfound := hp.found d
  have hcomplete := hp.complete d
  rw [hroot] at hfound hcomplete
  apply Option.ext
  intro f
  constructor
  · intro hw
    rw [← hf]
    exact hfound r f hw
  · intro hv
    obtain ⟨r', f', hw⟩ := hcomplete r f ((hf r).trans hv)
    have hv' := (hf r').symm.trans (hfound r' f' hw)
    cases h.retention_eq hv hv'
    rw [hw, ← hv', hv]

theorem recovered (hp : Repaired w s' w') (h : Agrees s v) (ht : Torn s v d bytes r w)
    (hroot : s'.root = s.root) : Recovered s v d bytes s' w' where
  root := hroot
  agrees := hp.agrees
  content := by
    rcases ht.copies with hsame | ⟨hnew, hold⟩
    · refine .inl (h.get_congr hp.agrees fun r' => ?_).1
      rw [hroot]
      exact hp.fileAt?_eq h hroot hsame r'
    · -- the copy that was kept is one of those that stood there
      rw [← hroot] at hnew
      obtain ⟨r', f, hkept⟩ := hp.complete d r _ hnew
      have hstood := hp.found d r' f hkept
      have hget : (s'.get w' d).1 = some f.1 := hp.agrees.get_eq_some_iff.mpr ⟨r', f.2, hkept⟩
      rcases eq_or_eq_other r r' with rfl | rfl
      · rw [hnew] at hstood
        cases hstood
        exact .inr hget
      · rw [hroot] at hstood
        rcases hold with hold | hold
        · rw [hold] at hstood
          exact .inl (hget.trans (h.get_eq_some_iff.mpr ⟨_, f.2, hstood⟩).symm)
        · rw [hold] at hstood
          cases hstood
  single := fun r' hsome => by
    rw [← hroot] at hsome ⊢
    obtain ⟨size, hi⟩ := hp.agrees.only d r' hsome
    exact hp.agrees.fileAt?_of_ne hi (other_ne r')
  others := fun d' hd => by
    have hfiles := hp.fileAt?_eq (d := d') h hroot fun r' => ht.others d' r' hd
    obtain ⟨hget, hindex⟩ := h.get_congr (d := d') hp.agrees fun r' => by
      rw [hroot]
      exact hfiles r'
    exact ⟨hget, hindex, hfiles⟩
  staging := fun hempty => by
    rw [h.children_staging] at hempty
    rw [← hroot, hp.agrees.children_staging, hroot]
    exact hempty

end Repaired

/-- A store comes through a write that was cut off, wherever that was: opened again with room for
its records, it has the old bytes or the new ones, and all else as before. -/
theorem interrupted_put (h : Agrees s v) (hroot : s.root = homeOf root version)
    (hw : CutOff s v d bytes r w) (hc : capacity ≠ 0) (hfit : Accommodates capacity s.root w) :
    ∃ s' w', Store.open? w root version capacity = (some s', w') ∧
      Recovered s v d bytes s' w' := by
  have ht := h.torn hw
  have hr := h.roomy
  have hs := ht.standing
  rw [hroot] at hr hs hfit
  obtain ⟨s', w', ho, hroot', hp⟩ := open_repaired hr hs hc hfit
  exact ⟨s', w', ho, hp.recovered h ht (hroot'.trans hroot.symm)⟩

/-- A store that was opened on nothing and has taken one record. -/
theorem put_store {bytes : List UInt8} (d : Digest) (r : Retention) (hb : bytes.length ≤ 100) :
    ∃ s₀ v₀ s v, Store.open? Volume.empty ⟨["store"]⟩ 1 100 = (some s₀, v₀) ∧
      s₀.put v₀ d bytes r = (.committed, s, v) ∧ Agrees s v ∧ s.root = homeOf ⟨["store"]⟩ 1 ∧
      s.index.totalSize = bytes.length ∧ (s.get v d).1 = some bytes := by
  obtain ⟨s₀, v₀, ho⟩ := open_store
  obtain ⟨rows, hop⟩ := opened roomy_store (fun hn below => rooted_empty.node?_append hn below) ho
  obtain ⟨b, p, hh⟩ := hop.holds_empty fun below hb => node?_empty (by simp [hb])
  obtain ⟨w, hw, hput⟩ := hh.agrees.put_of_free (isBlocked_store ho d r) bytes
  have hi := (hh.insert hw).shrink
  rw [Shelf.shrink_of_settled (.inl (by simpa [Shelf.size, Shelf.add] using hb))] at hi
  have hroot := Holds.root_shrink { s₀ with index := s₀.index.insert d ⟨bytes.length, r⟩ } w
  generalize Store.shrink { s₀ with index := s₀.index.insert d ⟨bytes.length, r⟩ } w = kept
    at hput hi hroot
  obtain ⟨s, v⟩ := kept
  refine ⟨s₀, v₀, s, v, ho, hput, hi.agrees, hroot.trans hop.root_eq, ?_, ?_⟩
  · rw [hi.agrees.sound.totalSize_eq, hi.entries]
    rfl
  · exact hi.agrees.get_eq_some_iff.mpr ⟨r, _, hi.files _ (List.mem_singleton_self _)⟩

/-- The copy of the other retention is not removed yet. -/
theorem interrupted_put_store :
    ∃ s₀ v₀ s v, Store.open? Volume.empty ⟨["store"]⟩ 1 100 = (some s₀, v₀) ∧
      s₀.put v₀ (.ofKey "a") [1, 2] .normal = (.committed, s, v) ∧ ∃ s' w', Store.open?
        (v.run ((s.writePlan (s.stagePath v) (.ofKey "a") [3] .always).take 3)).1
          ⟨["store"]⟩ 1 100 = (some s', w') ∧ Recovered s v (.ofKey "a") [3] s' w' := by
  have hbytes : [(1 : UInt8), 2].length ≤ 100 := by decide
  obtain ⟨s₀, v₀, s, v, ho, hput, h, hroot, hsize, -⟩ := put_store (.ofKey "a") .normal hbytes
  have hw : CutOff s v (.ofKey "a") [3] .always _ := .after 3
  exact ⟨s₀, v₀, s, v, ho, hput, interrupted_put h hroot hw (by decide)
    ((h.torn hw).accommodates h (by rw [hsize]; decide))⟩

/-- Records without bytes fit into no capacity at all, with which no store is opened. -/
theorem interrupted_put_nothing :
    ∃ s₀ v₀ s v w, Store.open? Volume.empty ⟨["store"]⟩ 1 100 = (some s₀, v₀) ∧
      s₀.put v₀ (.ofKey "a") [] .normal = (.committed, s, v) ∧ Agrees s v ∧
      CutOff s v (.ofKey "a") [] .normal w ∧ Accommodates 0 s.root w ∧
      (s.get v (.ofKey "a")).1 = some [] ∧ (Store.open? w ⟨["store"]⟩ 1 0).1 = none := by
  have hbytes : ([] : List UInt8).length ≤ 100 := by decide
  obtain ⟨s₀, v₀, s, v, ho, hput, h, -, hsize, hget⟩ := put_store (.ofKey "a") .normal hbytes
  have hw : CutOff s v (.ofKey "a") [] .normal _ := .after 4
  refine ⟨s₀, v₀, s, v, _, ho, hput, h, hw, (h.torn hw).accommodates h (by rw [hsize]; decide),
    hget, ?_⟩
  rw [Store.open?]
  split
  · rfl
  · rfl

end TierCache.Disk
