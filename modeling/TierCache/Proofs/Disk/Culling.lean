import TierCache.Proofs.Disk.Trimming

/-!
# Removing the records that a predicate accepts

The predicate is asked about the bytes of every record that can be read. The accepted records go
with their files; all other records keep their place in the order of use, and nothing else on the
volume is touched. So those that go are the same in whatever order they go, and none is left that
would be accepted.
-/
namespace TierCache

/-- Files are gone from some places, and all else on the volume is as it was. -/
structure Volume.Lost (gone : Place → Prop) (v w : Volume) : Prop where
  files : ∀ q, gone q → (v.fileAt? q).isSome
  lost : ∀ q, gone q → w.node? q = none
  kept : ∀ q, ¬ gone q → w.node? q = v.node? q
  medium : w.clock = v.clock ∧ w.free = v.free

namespace Volume.Lost

variable {gone gone' : Place → Prop} {v w u : Volume}

theorem nothing (v : Volume) : Lost (fun _ => False) v v :=
  ⟨fun _ => False.elim, fun _ => False.elim, fun _ _ => rfl, rfl, rfl⟩

theorem congr (h : Lost gone v w) (hg : ∀ q, gone' q ↔ gone q) : Lost gone' v w :=
  ⟨fun q hq => h.files q ((hg q).mp hq), fun q hq => h.lost q ((hg q).mp hq),
    fun q hq => h.kept q fun hq' => hq ((hg q).mpr hq'), h.medium⟩

theorem fileAt?_eq (h : Lost gone v w) {q : Place} (hq : ¬ gone q) : w.fileAt? q = v.fileAt? q := by
  rw [fileAt?, h.kept q hq]
  rfl

theorem fileAt?_none (h : Lost gone v w) {q : Place} (hq : gone q) : w.fileAt? q = none := by
  rw [fileAt?, h.lost q hq]

/-- No folder is gone. -/
theorem folder (h : Lost gone v w) (q : Place) :
    w.node? q = some .folder ↔ v.node? q = some .folder := by
  by_cases hq : gone q
  · rw [h.lost q hq]
    refine ⟨nofun, fun hv => ?_⟩
    have hf := h.files q hq
    rw [fileAt?_of_folder hv] at hf
    cases hf
  · rw [h.kept q hq]

theorem leads (h : Lost gone v w) (p : Path) : w.Leads p ↔ v.Leads p := by
  simp only [Leads, h.folder]

theorem trans (h : Lost gone v w) (h' : Lost gone' w u) :
    Lost (fun q => gone q ∨ gone' q) v u := by
  have apart : ∀ q, gone' q → ¬ gone q := by
    intro q hq' hq
    have hf := h'.files q hq'
    rw [h.fileAt?_none hq] at hf
    cases hf
  refine ⟨fun q hq => ?_, fun q hq => ?_, fun q hq => ?_,
    h'.medium.1.trans h.medium.1, h'.medium.2.trans h.medium.2⟩
  · rcases hq with hq | hq
    · exact h.files q hq
    · rw [← h.fileAt?_eq (apart q hq)]
      exact h'.files q hq
  · by_cases hq' : gone' q
    · exact h'.lost q hq'
    · rw [h'.kept q hq']
      exact h.lost q (hq.resolve_right hq')
  · rw [not_or] at hq
    rw [h'.kept q hq.2, h.kept q hq.1]

/-- What is gone cannot be read, and what is not reads as before. -/
theorem read_eq_ok_iff (h : Lost gone v w) {p : Path} {bytes : List UInt8} :
    w.read p = .ok bytes ↔ v.read p = .ok bytes ∧ ¬ gone p.goal := by
  rw [Volume.read_eq_ok_iff, Volume.read_eq_ok_iff, h.leads, and_assoc]
  refine and_congr_right fun _ => ?_
  by_cases hq : gone p.goal
  · simp [h.fileAt?_none hq, hq]
  · simp [h.fileAt?_eq hq, hq]

end Volume.Lost

namespace Disk

theorem medium_discardAll (v : Volume) (ps : List Path) :
    (discardAll v ps).clock = v.clock ∧ (discardAll v ps).free = v.free := by
  induction ps generalizing v with
  | nil => exact ⟨rfl, rfl⟩
  | cons p ps ih =>
    obtain ⟨hclock, hfree⟩ := ih (v.discard p)
    obtain ⟨hclock', hfree'⟩ := Volume.medium_discard v p
    exact ⟨hclock.trans hclock', hfree.trans hfree'⟩

/-- Files that can be read are gone once they are discarded. -/
theorem lost_discardAll {v : Volume} {ps : List Path}
    (h : ∀ p ∈ ps, ∃ bytes, v.read p = .ok bytes) :
    Volume.Lost (fun q => ∃ p ∈ ps, q = p.goal) v (discardAll v ps) := by
  have hf := fileAt?_discardAll v ps
  have readable : ∀ p ∈ ps, v.Leads p ∧ (v.fileAt? p.goal).isSome := by
    intro p hp
    obtain ⟨bytes, hread⟩ := h p hp
    obtain ⟨hl, time, hfile⟩ := Volume.read_eq_ok_iff.mp hread
    exact ⟨hl, by rw [hfile]; rfl⟩
  refine ⟨?_, ?_, fun q hq => ?_, medium_discardAll v ps⟩
  · rintro q ⟨p, hp, rfl⟩
    exact (readable p hp).2
  · rintro q ⟨p, hp, rfl⟩
    obtain ⟨hl, hfile⟩ := readable p hp
    refine Volume.node?_eq_none (by rw [hf, if_pos ⟨p, hp, hl, rfl⟩]) fun hw => ?_
    rw [Volume.fileAt?_of_folder ((folder_discardAll v ps p.goal).mp hw)] at hfile
    cases hfile
  · refine Volume.node?_congr (folder_discardAll v ps q) ?_
    rw [hf, if_neg]
    rintro ⟨p, hp, -, he⟩
    exact hq ⟨p, hp, he⟩

variable {s s' : Store} {v w u : Volume} {p : Digest → List UInt8 → Bool}
variable {e : Digest × RecordInfo}

/-- Whether a record can be read and is accepted by a predicate. -/
def Store.accepts (s : Store) (v : Volume) (p : Digest → List UInt8 → Bool)
    (e : Digest × RecordInfo) : Bool :=
  match v.read (s.pathOf e.1 e.2.retention) with
  | .ok bytes => p e.1 bytes
  | .error _ => false

theorem Store.accepts_iff : s.accepts v p e = true ↔
    ∃ bytes, v.read (s.pathOf e.1 e.2.retention) = .ok bytes ∧ p e.1 bytes = true := by
  rw [accepts]
  cases v.read (s.pathOf e.1 e.2.retention) with
  | ok bytes => simp
  | error err => simp

/-- The records of a store that are accepted, in the order of their use. -/
def Store.accepted (s : Store) (v : Volume) (p : Digest → List UInt8 → Bool) :
    List (Digest × RecordInfo) := s.index.entries.filter (s.accepts v p)

theorem Store.matching_eq (s : Store) (v : Volume) (p : Digest → List UInt8 → Bool) :
    s.matching v p = (s.index.records.pairs.filter (s.accepts v p)).map Prod.fst := by
  have hm := filterMap_map_eq (f := fun e : Digest × RecordInfo =>
      match v.read (s.pathOf e.1 e.2.retention) with
      | .ok bytes => if p e.1 bytes then some e.1 else none
      | .error _ => none)
    (g := id) (p := s.accepts v p) (k := Prod.fst) (l := s.index.records.pairs)
  rw [List.map_id] at hm
  refine hm fun e _ => ?_
  rw [accepts, id]
  split <;> rfl

theorem Store.accepted_perm (hs : s.index.Sound) (v : Volume)
    (p : Digest → List UInt8 → Bool) :
    (s.index.records.pairs.filter (s.accepts v p)).Perm (s.accepted v p) :=
  hs.perm_entries.symm.filter _

/-- A digest stands for one record. -/
theorem Store.mem_matching (hs : s.index.Sound) (he : e ∈ s.index.entries) :
    e.1 ∈ s.matching v p ↔ s.accepts v p e = true := by
  rw [matching_eq, ((accepted_perm hs v p).map Prod.fst).mem_iff, List.mem_map]
  constructor
  · rintro ⟨e', he', heq⟩
    obtain ⟨hmem, ha⟩ := List.mem_filter.mp he'
    exact eq_of_nodup_map hs.nodup_entries hmem he heq ▸ ha
  · exact fun ha => ⟨e, List.mem_filter.mpr ⟨he, ha⟩, rfl⟩

/-- A store that has lost the records that were accepted, and no others. -/
structure Culled (p : Digest → List UInt8 → Bool) (v : Volume) (s s' : Store) : Prop where
  root : s'.root = s.root
  capacity : s'.capacity = s.capacity
  /-- What stays has its size and its retention, and its place in the order of use. -/
  survivors : s'.index.entries = s.index.entries.filter fun e => !s.accepts v p e
  totalSize : s'.index.totalSize + Index.sizes (s.accepted v p) = s.index.totalSize
  sound : s'.index.Sound

theorem Store.culled_removeIf (hs : s.index.Sound) (v : Volume)
    (p : Digest → List UInt8 → Bool) : Culled p v s (s.removeIf v p).2.1 := by
  have hsound := hs.forgetAll (s.matching v p)
  have hsurvivors : ((s.matching v p).foldl Index.forget s.index).entries =
      s.index.entries.filter fun e => !s.accepts v p e := by
    rw [hs.entries_forgetAll]
    refine List.filter_congr fun e he => ?_
    rw [Bool.eq_iff_iff, decide_eq_true_eq, mem_matching hs he, Bool.not_eq_true',
      Bool.not_eq_true]
  rw [removeIf, Agrees.evictAll_index]
  refine ⟨rfl, rfl, hsurvivors, ?_, hsound⟩
  rw [hsound.totalSize_eq, hs.totalSize_eq, hsurvivors, Nat.add_comm]
  exact (total_filter_add _ _ _).symm

/-- The places of the files of the records that are accepted. -/
def Store.AcceptedAt (s : Store) (v : Volume) (p : Digest → List UInt8 → Bool) (q : Place) : Prop :=
  ∃ e ∈ s.accepted v p, q = recordPlace s.root e.1 e.2.retention

/-- The files of the accepted records go, and nothing else. -/
theorem Store.lost_removeIf (hs : s.index.Sound) (v : Volume) (p : Digest → List UInt8 → Bool) :
    Volume.Lost (s.AcceptedAt v p) v (s.removeIf v p).2.2 := by
  have hn : ((s.index.records.pairs.filter (s.accepts v p)).map Prod.fst).Nodup :=
    s.index.records.nodup.sublist (List.filter_sublist.map Prod.fst)
  have hfiles := volume_evictAll (v := v) hn fun e he =>
    Table.get?_eq_some_iff.mpr (List.mem_filter.mp he).1
  rw [removeIf, matching_eq, hfiles]
  refine (lost_discardAll fun path hpath => ?_).congr fun q => ?_
  · obtain ⟨e, he, rfl⟩ := List.mem_map.mp hpath
    obtain ⟨bytes, hread, -⟩ := accepts_iff.mp (List.mem_filter.mp he).2
    exact ⟨bytes, hread⟩
  · simp only [AcceptedAt, ← (accepted_perm hs v p).mem_iff, List.mem_map]
    constructor
    · rintro ⟨e, he, rfl⟩
      exact ⟨_, ⟨e, he, rfl⟩, (goal_recordPath _ _ _).symm⟩
    · rintro ⟨_, ⟨e, he, rfl⟩, rfl⟩
      exact ⟨e, he, goal_recordPath _ _ _⟩

theorem Store.fst_removeIf (hs : s.index.Sound) (v : Volume) (p : Digest → List UInt8 → Bool) :
    (s.removeIf v p).1 = (s.accepted v p).length := by
  rw [removeIf, matching_eq, List.length_map, (accepted_perm hs v p).length_eq]

/-- Where a record is not gone it is accepted as before, and a record that is gone is not. -/
theorem Store.accepts_of_lost {gone : Place → Prop} (h : Volume.Lost gone v w) :
    s.accepts w p e = true ↔
      s.accepts v p e = true ∧ ¬ gone (recordPlace s.root e.1 e.2.retention) := by
  simp only [accepts_iff, h.read_eq_ok_iff, pathOf, goal_recordPath]
  constructor
  · rintro ⟨bytes, ⟨hread, hq⟩, hp⟩
    exact ⟨⟨bytes, hread, hp⟩, hq⟩
  · rintro ⟨⟨bytes, hread, hp⟩, hq⟩
    exact ⟨bytes, ⟨hread, hq⟩, hp⟩

/-- A store without accepted records is not changed. -/
theorem Store.removeIf_of_none (hs : s.index.Sound)
    (h : ∀ e ∈ s.index.entries, s.accepts v p e = false) : s.removeIf v p = (0, s, v) := by
  have hm : s.matching v p = [] := by
    rw [matching_eq, List.map_eq_nil_iff, List.filter_eq_nil_iff]
    exact fun e he => Bool.not_eq_true _ ▸ h e (hs.perm_entries.mem_iff.mpr he)
  rw [removeIf, hm]
  rfl

end Disk

end TierCache
