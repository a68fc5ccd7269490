import TierCache.Proofs.Disk.Reopening

/-!
# Index and files in step

After any run of an open store the index says what the files say. Three views of the records are
kept, the index itself, the order of use with the total size, and the two folders, and no call
brings them apart.
-/
namespace TierCache.Disk

variable {s : Store} {v w : Volume} {sh : Shelf} {root : Path}

/-- The changes of the index that subtract sizes. -/
inductive Edit where
  | insert (d : Digest) (info : RecordInfo)
  | forget (d : Digest)

def Index.edit (ix : Index) : Edit → Index
  | .insert d info => ix.insert d info
  | .forget d => ix.forget d

theorem Index.Sound.edits {ix : Index} (h : ix.Sound) (edits : List Edit) :
    (edits.foldl Index.edit ix).Sound := by
  induction edits generalizing ix with
  | nil => exact h
  | cons e edits ih =>
    cases e with
    | insert d info => exact ih (h.insert d info)
    | forget d => exact ih (h.forget d)

/-- What holds of a store after a run, told by the calls of the code alone. -/
structure Exact (v₀ : Volume) (events : List Event) (s : Store) (v : Volume) : Prop where
  /-- A record is indexed exactly where its file stands, and nowhere else. -/
  indexed : ∀ d n r, s.index.get? d = some ⟨n, r⟩ ↔
    (∃ bytes, v.read (s.pathOf d r) = .ok bytes ∧ bytes.length = n) ∧
      ∀ bytes, v.read (s.pathOf d r.other) ≠ .ok bytes
  /-- It holds what was written last, or what was found. -/
  content : ∀ d r bytes, v.read (s.pathOf d r) = .ok bytes →
    lastWritten d events = some bytes ∨
      lastWritten d events = none ∧
        ∃ time, v₀.fileAt? (recordPlace s.root d r) = some (bytes, time)
  totalSize : s.index.totalSize = total (fun p => p.2.size) s.index.records.pairs
  recency_nodup : s.index.recency.toList.Nodup
  mem_recency : ∀ d, d ∈ s.index.recency.toList ↔ s.contains d = true
  staging : ∀ name bytes time, (name, Node.file bytes time) ∉ v.children (staging s.root)
  /-- What is contained is got, with the bytes of its file. -/
  get : ∀ d, s.contains d = true ↔ ∃ bytes r, (s.get v d).1 = some bytes ∧
    v.read (s.pathOf d r) = .ok bytes
  get_none : ∀ d, s.contains d = false → (s.get v d).1 = none
  /-- The statistics are those of the files in the two folders. -/
  stats : Slot.stats (some s) =
    { enabled := true
      entries := (foundIn v s.root .normal).length + (foundIn v s.root .always).length
      retainedEntries := (foundIn v s.root .always).length
      sizeBytes := total (fun f => f.info.size) (foundIn v s.root .normal) +
        total (fun f => f.info.size) (foundIn v s.root .always)
      capacityBytes := s.capacity }
  /-- No size is subtracted from a smaller total, whatever is inserted and forgotten next, and also
  while the index is built. -/
  no_underflow : ∀ ix ∈ [Index.empty, s.index], ∀ (edits : List Edit) d,
    (edits.foldl Index.edit ix).sizeOf d ≤ (edits.foldl Index.edit ix).totalSize

namespace Holds

theorem perm_rows (h : Holds s v sh) :
    (rowsIn v s.root .normal ++ rowsIn v s.root .always).Perm sh.rows := by
  have hl : ∀ r, v.Leads (folder s.root r) := h.agrees.standing.leads_folder h.agrees.roomy
  have hn : (rowsOf v s.root).Nodup :=
    List.Pairwise.of_map Row.key (fun _ _ hne he => hne (he ▸ rfl)) (nodup_rowsOf v s.root)
  refine (List.mergeSort_perm _ _).symm.trans
    ((List.perm_ext_iff_of_nodup hn h.distinct.nodup).mpr fun e => ?_)
  rw [mem_rowsOf hl, h.mem_rows]

theorem stats_found (h : Holds s v sh) : Slot.stats (some s) =
    { enabled := true
      entries := (foundIn v s.root .normal).length + (foundIn v s.root .always).length
      retainedEntries := (foundIn v s.root .always).length
      sizeBytes := total (fun f => f.info.size) (foundIn v s.root .normal) +
        total (fun f => f.info.size) (foundIn v s.root .always)
      capacityBytes := s.capacity } := by
  have hp := h.perm_rows
  have hn : (rowsIn v s.root .normal).filter (·.retention = .always) = [] := by
    rw [List.filter_eq_nil_iff]
    intro e he
    rw [retention_of_mem_rowsIn he]
    exact Bool.false_ne_true
  have ha : (rowsIn v s.root .always).filter (·.retention = .always) =
      rowsIn v s.root .always := by
    rw [List.filter_eq_self]
    intro e he
    rw [retention_of_mem_rowsIn he]
    rfl
  have hret := (hp.filter (·.retention = .always)).length_eq
  rw [List.filter_append, hn, ha, List.nil_append] at hret
  have hlen := hp.length_eq
  rw [List.length_append] at hlen
  have hsize := total_perm (fun e : Row => e.bytes.length) hp
  rw [total_append] at hsize
  rw [h.stats_eq, Shelf.stats, ← hret, ← hlen, Shelf.size, ← hsize, h.capacity]
  simp only [foundIn_eq, List.length_map, total_map, Row.found]

theorem read_iff (h : Holds s v sh) {d : Digest} {r : Retention} {bytes : List UInt8} :
    v.read (s.pathOf d r) = .ok bytes ↔ ∃ e ∈ sh.rows, e.key = (d, r) ∧ e.bytes = bytes := by
  rw [Volume.read_eq_ok_iff, Store.pathOf, goal_recordPath]
  constructor
  · rintro ⟨-, time, hf⟩
    exact ⟨⟨d, r, bytes, time⟩, h.mem_rows.mpr hf, rfl, rfl⟩
  · rintro ⟨e, he, hk, rfl⟩
    cases hk
    exact ⟨h.agrees.leads _ _, e.time, h.files e he⟩

theorem indexed_iff (h : Holds s v sh) (d : Digest) (n : Nat) (r : Retention) :
    s.index.get? d = some ⟨n, r⟩ ↔
      (∃ bytes, v.read (s.pathOf d r) = .ok bytes ∧ bytes.length = n) ∧
        ∀ bytes, v.read (s.pathOf d r.other) ≠ .ok bytes := by
  rw [h.get?_eq, Option.map_eq_some_iff]
  constructor
  · rintro ⟨e, hf, he⟩
    have hm := Shelf.mem_of_find? hf
    have hd := Shelf.digest_of_find? hf
    cases he
    refine ⟨⟨e.bytes, h.read_iff.mpr ⟨e, hm, by rw [Row.key, hd], rfl⟩, rfl⟩, fun bytes hr => ?_⟩
    obtain ⟨e', hm', hk', -⟩ := h.read_iff.mp hr
    rw [Row.key, Prod.mk.injEq] at hk'
    have := h.distinct.eq hm' hm (hk'.1.trans hd.symm)
    rw [this] at hk'
    exact other_ne _ hk'.2.symm
  · rintro ⟨⟨bytes, hr, rfl⟩, -⟩
    obtain ⟨e, hm, hk, rfl⟩ := h.read_iff.mp hr
    cases hk
    exact ⟨e, h.distinct.find?_of_mem hm, rfl⟩

theorem get_eq (h : Holds s v sh) (d : Digest) :
    (s.get v d).1 = (sh.find? d).map Row.bytes := by
  obtain ⟨s', w, hact, -⟩ := h.get d
  have := congrArg Prod.fst hact
  simp only [Slot.act, Slot.get, Shelf.act] at this
  cases hf : sh.find? d with
  | none =>
    rw [hf] at this
    exact Answer.bytes.inj this
  | some e =>
    rw [hf] at this
    exact Answer.bytes.inj this

end Holds

/-- A store opened on any directory keeps its index in step with its files, through any run. -/
theorem run_exact {version : UInt32} {capacity : Nat} (hr : Roomy (homeOf root version))
    (hv : v.Rooted) (ho : Store.open? v root version capacity = (some s, w))
    (calls : List (Int × Action)) : ∃ events s' w',
      Slot.run (some s) w calls = (events, some s', w') ∧ Exact v events s' w' := by
  obtain ⟨rows, hop⟩ := opened hr (fun hn below => hv.node?_append hn below) ho
  obtain ⟨b, p, hh⟩ := hop.holds
  obtain ⟨s', w', hrun, hh', hroot, -⟩ := hh.run calls
  have hroot' : s'.root = homeOf root version := hroot.trans hop.root_eq
  refine ⟨_, s', w', hrun,
    { indexed := hh'.indexed_iff
      content := fun d r bytes hread => ?_
      totalSize := hh'.agrees.sound.totalSize
      recency_nodup := hh'.agrees.sound.recency.nodup
      mem_recency := fun d => ?_
      staging := fun name bytes time hm => ?_
      get := fun d => ?_
      get_none := fun d hc => ?_
      stats := hh'.stats_found
      no_underflow := fun ix hix edits d => ?_ }⟩
  · obtain ⟨e, he, hk, rfl⟩ := hh'.read_iff.mp hread
    cases hk
    rcases Shelf.rows_run calls he with hl | ⟨hl, e', he', hk', hb'⟩
    · exact .inl hl
    · refine .inr ⟨hl, e'.time, ?_⟩
      have hm : e' ∈ rows :=
        (Shelf.mem_addAll (Shelf.mem_rows_without.mp he').1).resolve_left List.not_mem_nil
      have hf := (hop.found e').mp hm
      rw [Row.key, Row.key, Prod.mk.injEq] at hk'
      rw [← hk'.1, ← hk'.2, hroot', hf, hb']
  · rw [hh'.agrees.sound.used, Store.contains, Index.contains_iff]
  · rw [Volume.mem_children_iff (hh'.agrees.standing.leads_staging hh'.agrees.roomy), goal_staging,
      List.append_assoc] at hm
    have hs := hh'.agrees.fileAt?_staged name
    have hf := Volume.fileAt?_eq_some_iff.mpr hm
    exact absurd (hs.symm.trans hf) (by simp)
  · rw [hh'.contains_eq, hh'.get_eq]
    constructor
    · intro hsome
      obtain ⟨e, he⟩ := Option.isSome_iff_exists.mp hsome
      have hd := Shelf.digest_of_find? he
      refine ⟨e.bytes, e.retention, by rw [he]; rfl, ?_⟩
      exact hh'.read_iff.mpr ⟨e, Shelf.mem_of_find? he, by rw [Row.key, hd], rfl⟩
    · rintro ⟨bytes, r, hg, -⟩
      obtain ⟨e, he, -⟩ := Option.map_eq_some_iff.mp hg
      rw [he]
      rfl
  · rw [hh'.contains_eq, Option.isSome_eq_false_iff, Option.isNone_iff_eq_none] at hc
    rw [hh'.get_eq, hc]
    rfl
  · simp only [List.mem_cons, List.not_mem_nil, or_false] at hix
    rcases hix with rfl | rfl
    · exact (Index.Sound.empty.edits edits).sizeOf_le d
    · exact (hh'.agrees.sound.edits edits).sizeOf_le d

theorem run_exact_store : ∃ s w, Store.open? Volume.empty ⟨["store"]⟩ 1 100 = (some s, w) ∧
    ∃ events s' w', Slot.run (some s) w [(1, .put (.ofKey "a") [1, 2] .normal),
        (2, .put (.ofKey "a") [3] .always), (2, .get (.ofKey "a"))] = (events, some s', w') ∧
      Exact Volume.empty events s' w' := by
  obtain ⟨s, w, ho⟩ := open_store
  exact ⟨s, w, ho, run_exact roomy_store rooted_empty ho _⟩

end TierCache.Disk
