import TierCache.Proofs.Disk.Shelf
import TierCache.Proofs.Disk.Writing

/-!
# A store and its files hold a shelf

The index holds the rows of a shelf and the files their bytes. Every call of the store answers as
the shelf does, and what comes after holds what the shelf comes to. Nothing outside the store's
home is touched.
-/
namespace TierCache.Disk

structure Holds (s : Store) (v : Volume) (sh : Shelf) : Prop where
  agrees : Agrees s v
  capacity : s.capacity = sh.capacity
  entries : s.index.entries = sh.rows.map Row.entry
  files : ∀ e ∈ sh.rows,
    v.fileAt? (recordPlace s.root e.digest e.retention) = some (e.bytes, e.time)
  blocked : ∀ d r, sh.blocked d r = isBlocked s v d r
  pinned : ∀ d r, sh.pinned d r = (!canStage s v || decide (recordPlace s.root d r ∈ s.root.way))

/-- Nothing has changed outside a home. -/
structure Frame (root : Path) (v w : Volume) : Prop where
  clock : w.clock = v.clock
  outside : ∀ q, ¬ root.goal <+: q → w.node? q = v.node? q

namespace Frame

variable {root : Path} {u v w : Volume}

theorem refl (root : Path) (v : Volume) : Frame root v v := ⟨rfl, fun _ _ => rfl⟩

theorem trans (h : Frame root u v) (h' : Frame root v w) : Frame root u w :=
  ⟨h'.clock.trans h.clock, fun q hq => (h'.outside q hq).trans (h.outside q hq)⟩

theorem of_files (hc : w.clock = v.clock)
    (hd : ∀ q, w.node? q = some .folder ↔ v.node? q = some .folder)
    (hf : ∀ q, (∀ d r, q ≠ recordPlace root d r) → w.fileAt? q = v.fileAt? q) :
    Frame root v w where
  clock := hc
  outside := by
    intro q hq
    refine Volume.node?_congr (hd q) (hf q ?_)
    rintro d r rfl
    exact hq (List.prefix_append _ _)

end Frame

namespace Holds

variable {s s' : Store} {v w : Volume} {sh : Shelf} {d : Digest} {r : Retention}
variable {bytes : List UInt8}

theorem distinct (h : Holds s v sh) : sh.Distinct := by
  have hn := h.agrees.sound.nodup_entries
  rw [h.entries, List.map_map] at hn
  exact hn

theorem get?_eq (h : Holds s v sh) (d : Digest) :
    s.index.get? d = (sh.find? d).map fun e => e.entry.2 := by
  cases hf : sh.find? d with
  | none =>
    rw [Option.map_none, Option.eq_none_iff_forall_ne_some]
    intro info hi
    rw [← h.agrees.sound.mem_entries, h.entries, List.mem_map] at hi
    obtain ⟨e, he, heq⟩ := hi
    exact Shelf.find?_eq_none_iff.mp hf e he (congrArg Prod.fst heq)
  | some e =>
    rw [Option.map_some, ← h.agrees.sound.mem_entries, h.entries, List.mem_map]
    exact ⟨e, Shelf.mem_of_find? hf, by rw [← Shelf.digest_of_find? hf]; rfl⟩

/-- The rows are the files that stand in records' places. -/
theorem mem_rows (h : Holds s v sh) {e : Row} : e ∈ sh.rows ↔
    v.fileAt? (recordPlace s.root e.digest e.retention) = some (e.bytes, e.time) := by
  refine ⟨h.files e, fun hf => ?_⟩
  obtain ⟨size, hi⟩ := h.agrees.only e.digest e.retention (by rw [hf]; rfl)
  rw [h.get?_eq, Option.map_eq_some_iff] at hi
  obtain ⟨e', he', hinfo⟩ := hi
  have hd : e'.digest = e.digest := Shelf.digest_of_find? he'
  have hr : e'.retention = e.retention := congrArg RecordInfo.retention hinfo
  have hf' := h.files e' (Shelf.mem_of_find? he')
  rw [hd, hr, hf, Option.some.injEq, Prod.mk.injEq] at hf'
  have he : e = e' := by
    cases e
    cases e'
    simp only at hd hr hf'
    rw [hd, hr, hf'.1, hf'.2]
  exact he ▸ Shelf.mem_of_find? he'

/-- The same shelf is held in the same files. -/
theorem fileAt?_eq (h : Holds s v sh) (h' : Holds s' w sh) (hr : s'.root = s.root) (d : Digest)
    (r : Retention) : w.fileAt? (recordPlace s.root d r) = v.fileAt? (recordPlace s.root d r) := by
  apply Option.ext
  rintro ⟨bytes, time⟩
  have hv := h.mem_rows (e := ⟨d, r, bytes, time⟩)
  have hw := h'.mem_rows (e := ⟨d, r, bytes, time⟩)
  rw [hr] at hw
  exact hw.symm.trans hv

theorem contains_eq (h : Holds s v sh) (d : Digest) : s.contains d = (sh.find? d).isSome := by
  rw [Store.contains, Bool.eq_iff_iff, Index.contains_iff, h.get?_eq, ← Option.isSome_iff_exists,
    Option.isSome_map]

theorem totalSize_eq (h : Holds s v sh) : s.index.totalSize = sh.size := by
  rw [h.agrees.sound.totalSize_eq, h.entries, total_map]
  rfl

theorem toEvict_eq (h : Holds s v sh) : s.index.toEvict s.capacity = sh.victims := by
  rw [Index.toEvict, Shelf.victims, h.totalSize_eq, h.capacity, Index.evictable_eq, h.entries,
    List.filter_map, List.map_map]
  rfl

theorem size_records (h : Holds s v sh) : s.index.records.size = sh.rows.length := by
  rw [Table.size, ← h.agrees.sound.perm_entries.length_eq, h.entries, List.length_map]

theorem retainedEntries_eq (h : Holds s v sh) :
    s.retainedEntries = (sh.rows.filter (·.retention = .always)).length := by
  have hp := (h.agrees.sound.perm_entries.map Prod.snd).filter fun info => info.retention = .always
  rw [h.entries, List.map_map, List.filter_map] at hp
  rw [Store.retainedEntries, Table.values, ← hp.length_eq, List.length_map]
  rfl

theorem of_agrees (h : Holds s v sh) (h' : Agrees s' w) (hr : s'.root = s.root)
    (hc : s'.capacity = s.capacity) (hd : ∀ q, w.node? q = some .folder ↔ v.node? q = some .folder)
    {rows : List Row} (he : s'.index.entries = rows.map Row.entry)
    (hf : ∀ e ∈ rows, w.fileAt? (recordPlace s.root e.digest e.retention) =
      some (e.bytes, e.time)) : Holds s' w { sh with rows } where
  agrees := h'
  capacity := hc.trans h.capacity
  entries := he
  files := fun e hm => hr ▸ hf e hm
  blocked := fun d r => (h.blocked d r).trans (h.agrees.isBlocked_eq h' hr hd).symm
  pinned := by
    intro d r
    rw [h.agrees.canStage_eq h' hr, hr]
    exact h.pinned d r

theorem evictAll (h : Holds s v sh) (ds : List Digest) :
    Holds (s.evictAll v ds).1 (s.evictAll v ds).2 (sh.without ds) := by
  have hi := Agrees.evictAll_index s v ds
  refine h.of_agrees (h.agrees.evictAll ds) (by rw [hi]) (by rw [hi])
    (Agrees.folder_evictAll s v ds) ?_ ?_
  · rw [h.agrees.entries_evictAll, h.entries, List.filter_map]
    rfl
  · intro e he
    obtain ⟨he, hd⟩ := Shelf.mem_rows_without.mp he
    rw [h.agrees.fileAt?_evictAll, if_neg, h.files e he]
    rintro ⟨d, hm, hq⟩
    exact hd (recordPlace_mem.mp hq ▸ hm)

theorem frame_evictAll (h : Agrees s v) (ds : List Digest) :
    Frame s.root v (s.evictAll v ds).2 := by
  refine .of_files (Agrees.clock_evictAll s v ds) (Agrees.folder_evictAll s v ds) fun q hq => ?_
  rw [h.fileAt?_evictAll, if_neg]
  rintro ⟨d, -, hm⟩
  obtain ⟨r, he⟩ := mem_recordPlaces.mp hm
  exact hq d r he

@[simp] theorem root_evictAll (s : Store) (v : Volume) (ds : List Digest) :
    (s.evictAll v ds).1.root = s.root := by
  rw [Agrees.evictAll_index]

theorem shrink (h : Holds s v sh) : Holds (s.shrink v).1 (s.shrink v).2 sh.shrink := by
  rw [Store.shrink, h.toEvict_eq]
  exact h.evictAll sh.victims

@[simp] theorem root_shrink (s : Store) (v : Volume) : (s.shrink v).1.root = s.root :=
  root_evictAll s v _

theorem frame_shrink (h : Agrees s v) : Frame s.root v (s.shrink v).2 := frame_evictAll h _

theorem insert (h : Holds s v sh) (hw : Written s v d bytes r w) :
    Holds { s with index := s.index.insert d ⟨bytes.length, r⟩ } w
      (sh.add ⟨d, r, bytes, v.clock⟩) := by
  refine h.of_agrees (h.agrees.insert hw) rfl rfl hw.folders ?_ ?_
  · show (s.index.insert d ⟨bytes.length, r⟩).entries = _
    rw [h.agrees.sound.entries_insert, h.entries, List.map_append, List.filter_map]
    rfl
  · intro e he
    rw [hw.files]
    rcases Shelf.mem_rows_add.mp he with ⟨he, hd⟩ | rfl
    · rw [if_neg fun heq => hd (recordPlace_injective heq).1,
        if_neg fun heq => hd (recordPlace_injective heq).1, h.files e he]
    · rw [if_pos rfl]

theorem frame_written (hw : Written s v d bytes r w) : Frame s.root v w := by
  refine .of_files hw.clock hw.folders fun q hq => ?_
  rw [hw.files, if_neg (hq d r), if_neg (hq d r.other)]

/-- A volume with the same nodes will do. -/
theorem congr_node (h : Holds s v sh) (hn : ∀ q, w.node? q = v.node? q) : Holds s w sh := by
  have hf : ∀ q, w.fileAt? q = v.fileAt? q := fun q => by rw [Volume.fileAt?, hn]; rfl
  have hd : ∀ q, w.node? q = some .folder ↔ v.node? q = some .folder := fun q => by rw [hn]
  have ha : Agrees s w := h.agrees.congr (h.agrees.standing.mono fun q hq => (hd q).mpr hq)
    (fun d r => by rw [hf]) fun name => hn _
  exact h.of_agrees ha rfl rfl hd h.entries fun e he => by rw [hf, h.files e he]

/-- What a call comes to: its answer, and a store that holds a shelf, with nothing changed outside
its home. -/
structure Result (s : Store) (v : Volume) (sh : Shelf) (s' : Store) (w : Volume) : Prop where
  holds : Holds s' w sh
  root : s'.root = s.root
  frame : Frame s.root v w

theorem put (h : Holds s v sh) (d : Digest) (bytes : List UInt8) (r : Retention) :
    ∃ s' w, Slot.act (some s) v (.put d bytes r) =
        ((sh.act v.clock (.put d bytes r)).1, some s', w) ∧
      Result s v (sh.act v.clock (.put d bytes r)).2 s' w := by
  cases hb : isBlocked s v d r with
  | true =>
    obtain ⟨w, hp, hn, hc⟩ := h.agrees.put_of_blocked hb bytes
    refine ⟨s, w, ?_, ?_, rfl, hc, fun q _ => hn q⟩
    · simp only [Slot.act, Slot.put, hp, Shelf.act, h.blocked, hb, if_true]
    · simp only [Shelf.act, h.blocked, hb, if_true]
      exact h.congr_node hn
  | false =>
    obtain ⟨w, hw, hp⟩ := h.agrees.put_of_free hb bytes
    have hi := h.insert hw
    have hr := root_shrink { s with index := s.index.insert d ⟨bytes.length, r⟩ } w
    have hfs := frame_shrink hi.agrees
    refine ⟨_, _, ?_, ?_, hr, (frame_written hw).trans hfs⟩
    · simp only [Slot.act, Slot.put, hp, Shelf.act, h.blocked, hb, Bool.false_eq_true, if_false]
    · simp only [Shelf.act, h.blocked, hb, Bool.false_eq_true, if_false]
      exact hi.shrink

theorem get (h : Holds s v sh) (d : Digest) :
    ∃ s' w, Slot.act (some s) v (.get d) = ((sh.act v.clock (.get d)).1, some s', w) ∧
      Result s v (sh.act v.clock (.get d)).2 s' w := by
  have hg := h.get?_eq d
  cases hf : sh.find? d with
  | none =>
    rw [hf, Option.map_none] at hg
    refine ⟨s, v, ?_, ?_, rfl, .refl s.root v⟩
    · simp only [Slot.act, Slot.get, Store.get, hg, Shelf.act, hf]
    · simp only [Shelf.act, hf]
      exact h
  | some e =>
    rw [hf, Option.map_some] at hg
    have he := Shelf.mem_of_find? hf
    have hd := Shelf.digest_of_find? hf
    obtain ⟨bytes, time, hb, -, hread⟩ := h.agrees.read_eq hg
    have hrow := h.files e he
    have hbytes : bytes = e.bytes := by
      rw [hd] at hrow
      have := hb.symm.trans hrow
      rw [Option.some.injEq, Prod.mk.injEq] at this
      exact this.1
    subst hbytes
    have hfile := h.agrees.fileAt?_touch d e.retention
    have hfold := Volume.folder_touch v (s.pathOf d e.retention)
    have ha : Agrees { s with index := s.index.touch d } (v.touch (s.pathOf d e.retention)) :=
      h.agrees.touch hg
    refine ⟨{ s with index := s.index.touch d }, v.touch (s.pathOf d e.retention), ?_, ?_, rfl, ?_⟩
    · have hread' : v.read (({ s with index := s.index.touch d } : Store).pathOf d e.retention) =
        .ok e.bytes := hread
      simp only [Slot.act, Slot.get, Store.get, hg, Shelf.act, hf, Row.entry, hread']
      rfl
    · simp only [Shelf.act, hf]
      refine h.of_agrees ha rfl rfl hfold ?_ ?_
      · show (s.index.touch d).entries = _
        rw [h.agrees.sound.entries_touch hg, h.entries, List.map_append, List.filter_map, ← hd]
        rfl
      · intro e' he'
        rw [hfile]
        rcases Shelf.mem_rows_add.mp he' with ⟨he', hne⟩ | rfl
        · rw [if_neg fun heq => hne ((recordPlace_injective heq).1.trans hd.symm), h.files e' he']
        · rw [hd] at hrow ⊢
          rw [if_pos rfl, hrow]
          rfl
    · refine .of_files (Volume.medium_touch v _).1 hfold fun q hq => ?_
      rw [hfile, if_neg (hq d e.retention)]

theorem remove (h : Holds s v sh) (d : Digest) :
    ∃ s' w, Slot.act (some s) v (.remove d) = ((sh.act v.clock (.remove d)).1, some s', w) ∧
      Result s v (sh.act v.clock (.remove d)).2 s' w := by
  refine ⟨_, _, ?_, h.evictAll [d], root_evictAll s v [d], frame_evictAll h.agrees [d]⟩
  simp only [Slot.act, Slot.remove, Store.remove, h.contains_eq, Shelf.act]
  rfl

theorem read_eq (h : Holds s v sh) {e : Row} (he : e ∈ sh.rows) :
    v.read (s.pathOf e.digest e.retention) = .ok e.bytes := by
  rw [Volume.read_eq_ok_iff, Store.pathOf, goal_recordPath]
  exact ⟨h.agrees.leads e.digest e.retention, e.time, h.files e he⟩

theorem matching_perm (h : Holds s v sh) (p : Digest → List UInt8 → Bool) :
    (s.matching v p).Perm (sh.matching p) := by
  refine (h.agrees.sound.perm_entries.symm.filterMap _).trans (List.Perm.of_eq ?_)
  rw [h.entries]
  refine filterMap_map_eq (p := fun e => p e.digest e.bytes) (k := Row.digest) fun e he => ?_
  simp only [Row.entry, h.read_eq he]
  rfl

theorem removeIf (h : Holds s v sh) (p : Digest → List UInt8 → Bool) :
    ∃ s' w, Slot.act (some s) v (.removeIf p) = ((sh.act v.clock (.removeIf p)).1, some s', w) ∧
      Result s v (sh.act v.clock (.removeIf p)).2 s' w := by
  have hp := h.matching_perm p
  have hw : sh.without (s.matching v p) = sh.without (sh.matching p) := by
    rw [Shelf.without, Shelf.without]
    simp only [hp.mem_iff]
  refine ⟨_, _, ?_, hw ▸ h.evictAll (s.matching v p), root_evictAll s v _,
    frame_evictAll h.agrees _⟩
  simp only [Slot.act, Slot.removeIf, Store.removeIf, Shelf.act, hp.length_eq]

end Holds

end TierCache.Disk
