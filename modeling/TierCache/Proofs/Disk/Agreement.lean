import TierCache.Proofs.Disk.Index
import TierCache.Proofs.Disk.Standing

/-!
# The index and the files agree

A store agrees with a volume if its folders stand, its index is sound, a record is indexed exactly
where its file stands, with the size of the file, and nothing is staged: the staging folder holds
only what the path to the home itself leads through. Each operation of the store keeps the
agreement, and what it does to the files is told place by place.
-/
namespace TierCache.Disk

structure Agrees (s : Store) (v : Volume) : Prop where
  roomy : Roomy s.root
  standing : Standing s.root v
  sound : s.index.Sound
  kept : ∀ d info, s.index.get? d = some info → ∃ bytes time,
    v.fileAt? (recordPlace s.root d info.retention) = some (bytes, time) ∧
      bytes.length = info.size
  only : ∀ d r, (v.fileAt? (recordPlace s.root d r)).isSome →
    ∃ size, s.index.get? d = some ⟨size, r⟩
  staged : ∀ name, v.node? (s.root.goal ++ ["tmp", name]) =
    if s.root.goal ++ ["tmp", name] ∈ s.root.way then some .folder else none

namespace Agrees

variable {s : Store} {v w : Volume} {d : Digest}

/-- Only the records' places and the staging folder matter. -/
theorem congr (h : Agrees s v) (hd : Standing s.root w)
    (hf : ∀ d r, (w.fileAt? (recordPlace s.root d r)).map (·.1.length) =
      (v.fileAt? (recordPlace s.root d r)).map (·.1.length))
    (hs : ∀ name, w.node? (s.root.goal ++ ["tmp", name]) =
      v.node? (s.root.goal ++ ["tmp", name])) : Agrees s w where
  roomy := h.roomy
  standing := hd
  sound := h.sound
  kept := by
    intro d info hi
    obtain ⟨bytes, time, hv, hb⟩ := h.kept d info hi
    have := hf d info.retention
    rw [hv, Option.map_some, Option.map_eq_some_iff] at this
    obtain ⟨⟨bytes', time'⟩, hw, he⟩ := this
    exact ⟨bytes', time', hw, he.trans hb⟩
  only := by
    intro d r hw
    refine h.only d r ?_
    have := congrArg Option.isSome (hf d r)
    rw [Option.isSome_map, Option.isSome_map] at this
    rwa [← this]
  staged := fun name => (hs name).trans (h.staged name)

theorem fileAt?_staged (h : Agrees s v) (name : String) :
    v.fileAt? (s.root.goal ++ ["tmp", name]) = none := by
  rw [Volume.fileAt?, h.staged]
  split
  · rename_i hn
    split at hn
    · cases hn
    · cases hn
  · rfl

/-- Where the folders are the same and nothing is staged, the staging folder is the same. -/
theorem node?_staged (h : Agrees s v)
    (hd : ∀ q, w.node? q = some .folder ↔ v.node? q = some .folder)
    (hf : ∀ name, w.fileAt? (s.root.goal ++ ["tmp", name]) = none) (name : String) :
    w.node? (s.root.goal ++ ["tmp", name]) = v.node? (s.root.goal ++ ["tmp", name]) :=
  Volume.node?_congr (hd _) ((hf name).trans (h.fileAt?_staged name).symm)

/-- A record that is not indexed has no file. -/
theorem fileAt?_of_none (h : Agrees s v) (hd : s.index.get? d = none) (r : Retention) :
    v.fileAt? (recordPlace s.root d r) = none := by
  cases hf : v.fileAt? (recordPlace s.root d r) with
  | none => rfl
  | some f =>
    obtain ⟨size, hi⟩ := h.only d r (by rw [hf]; rfl)
    rw [hd] at hi
    cases hi

/-- An indexed record has no file under the other retention. -/
theorem fileAt?_of_ne (h : Agrees s v) {info : RecordInfo} (hd : s.index.get? d = some info)
    {r : Retention} (hr : r ≠ info.retention) : v.fileAt? (recordPlace s.root d r) = none := by
  cases hf : v.fileAt? (recordPlace s.root d r) with
  | none => rfl
  | some f =>
    obtain ⟨size, hi⟩ := h.only d r (by rw [hf]; rfl)
    rw [hd, Option.some.injEq] at hi
    exact absurd (by rw [hi]) hr

theorem leads (h : Agrees s v) (d : Digest) (r : Retention) : v.Leads (s.pathOf d r) :=
  h.standing.leads_recordPath h.roomy d r

theorem fileAt?_discard (h : Agrees s v) (d : Digest) (r : Retention) (q : Place) :
    (v.discard (s.pathOf d r)).fileAt? q =
      if q = recordPlace s.root d r then none else v.fileAt? q := by
  rw [Volume.fileAt?_discard, Store.pathOf, goal_recordPath]
  simp [show v.Leads (recordPath s.root d r) from h.leads d r]

theorem read_eq (h : Agrees s v) {info : RecordInfo} (hd : s.index.get? d = some info) :
    ∃ bytes time, v.fileAt? (recordPlace s.root d info.retention) = some (bytes, time) ∧
      bytes.length = info.size ∧ v.read (s.pathOf d info.retention) = .ok bytes := by
  obtain ⟨bytes, time, hf, hb⟩ := h.kept d info hd
  refine ⟨bytes, time, hf, hb, ?_⟩
  rw [Volume.read_eq_ok_iff]
  exact ⟨h.leads d info.retention, time, (goal_recordPath s.root d info.retention).symm ▸ hf⟩

/-- Reading a record renews its time. -/
theorem fileAt?_touch (h : Agrees s v) (d : Digest) (r : Retention) (q : Place) :
    (v.touch (s.pathOf d r)).fileAt? q = if q = recordPlace s.root d r
      then (v.fileAt? q).map fun f => (f.1, v.clock) else v.fileAt? q := by
  have hp : (s.pathOf d r).goal = recordPlace s.root d r := goal_recordPath s.root d r
  rw [Volume.fileAt?_touch, hp]
  simp [h.leads d r]

theorem touch (h : Agrees s v) {d : Digest} {info : RecordInfo} (hd : s.index.get? d = some info) :
    Agrees { s with index := s.index.touch d } (v.touch (s.pathOf d info.retention)) := by
  have hfold := Volume.folder_touch v (s.pathOf d info.retention)
  have hv : Agrees s (v.touch (s.pathOf d info.retention)) := by
    refine h.congr (h.standing.mono fun q hq => (hfold q).mpr hq) ?_ ?_
    · intro d' r'
      rw [h.fileAt?_touch]
      split
      · rw [Option.map_map]
        rfl
      · rfl
    · refine h.node?_staged hfold fun name => ?_
      have hne := (recordPlace_ne_staged s.root s.root d info.retention name).symm
      rw [h.fileAt?_touch, if_neg hne, h.fileAt?_staged]
  exact ⟨hv.roomy, hv.standing, hv.sound.touch hd, hv.kept, hv.only, hv.staged⟩

theorem evict_index (s : Store) (v : Volume) (d : Digest) :
    (s.evict v d).1 = { s with index := s.index.forget d } := by
  rw [Store.evict]
  cases hd : s.index.get? d with
  | some info => rfl
  | none =>
    have : s.index.contains d = false := by
      rw [← Bool.not_eq_true, Index.contains_iff, hd]
      rintro ⟨info, hi⟩
      cases hi
    simp [Index.forget, this]

theorem folder_evict (s : Store) (v : Volume) (d : Digest) (q : Place) :
    (s.evict v d).2.node? q = some .folder ↔ v.node? q = some .folder := by
  rw [Store.evict]
  split
  · exact Volume.folder_discard v _ q
  · rfl

@[simp] theorem clock_evict (s : Store) (v : Volume) (d : Digest) :
    (s.evict v d).2.clock = v.clock := by
  rw [Store.evict]
  split
  · exact (Volume.medium_discard v _).1
  · rfl

/-- All copies of the record are gone, and no other file. -/
theorem fileAt?_evict (h : Agrees s v) (d : Digest) (q : Place) :
    (s.evict v d).2.fileAt? q =
      if q ∈ recordPlaces s.root d then none else v.fileAt? q := by
  rw [Store.evict]
  cases hd : s.index.get? d with
  | none =>
    simp only
    split
    · rename_i hq
      obtain ⟨r, rfl⟩ := mem_recordPlaces.mp hq
      exact h.fileAt?_of_none hd r
    · rfl
  | some info =>
    simp only
    rw [h.fileAt?_discard]
    by_cases hq : q = recordPlace s.root d info.retention
    · rw [if_pos hq, if_pos (mem_recordPlaces.mpr ⟨_, hq⟩)]
    · rw [if_neg hq]
      split
      · rename_i hr
        obtain ⟨r, rfl⟩ := mem_recordPlaces.mp hr
        exact h.fileAt?_of_ne hd fun he => hq (by rw [he])
      · rfl

theorem evict (h : Agrees s v) (d : Digest) : Agrees (s.evict v d).1 (s.evict v d).2 := by
  have hf := h.fileAt?_evict d
  rw [evict_index]
  refine ⟨h.roomy, h.standing.mono fun q hq => (folder_evict s v d q).mpr hq,
    h.sound.forget d, ?_, ?_, ?_⟩
  · intro d' info hi
    rw [Index.get?_forget] at hi
    split at hi
    · cases hi
    · rename_i hne
      obtain ⟨bytes, time, hv, hb⟩ := h.kept d' info hi
      refine ⟨bytes, time, ?_, hb⟩
      rw [hf, if_neg (fun hm => hne (recordPlace_mem.mp hm)), hv]
  · intro d' r hs
    rw [hf] at hs
    split at hs
    · cases hs
    · rename_i hne
      obtain ⟨size, hi⟩ := h.only d' r hs
      refine ⟨size, ?_⟩
      rw [Index.get?_forget, if_neg (fun he => hne (recordPlace_mem.mpr he)), hi]
  · intro name
    rw [h.node?_staged (folder_evict s v d)
      (fun name => by rw [hf, h.fileAt?_staged, ite_self]), h.staged]

@[simp] theorem root_evict (s : Store) (v : Volume) (d : Digest) :
    (s.evict v d).1.root = s.root := by
  rw [evict_index]

@[simp] theorem evictAll_cons (s : Store) (v : Volume) (d : Digest) (ds : List Digest) :
    s.evictAll v (d :: ds) = (s.evict v d).1.evictAll (s.evict v d).2 ds := rfl

theorem evictAll (h : Agrees s v) (ds : List Digest) :
    Agrees (s.evictAll v ds).1 (s.evictAll v ds).2 := by
  induction ds generalizing s v with
  | nil => exact h
  | cons d ds ih =>
    rw [evictAll_cons]
    exact ih (h.evict d)

theorem evictAll_index (s : Store) (v : Volume) (ds : List Digest) :
    (s.evictAll v ds).1 = { s with index := ds.foldl Index.forget s.index } := by
  induction ds generalizing s v with
  | nil => rfl
  | cons d ds ih => rw [evictAll_cons, ih, evict_index]; rfl

theorem folder_evictAll (s : Store) (v : Volume) (ds : List Digest) (q : Place) :
    (s.evictAll v ds).2.node? q = some .folder ↔ v.node? q = some .folder := by
  induction ds generalizing s v with
  | nil => rfl
  | cons d ds ih => rw [evictAll_cons, ih, folder_evict]

@[simp] theorem clock_evictAll (s : Store) (v : Volume) (ds : List Digest) :
    (s.evictAll v ds).2.clock = v.clock := by
  induction ds generalizing s v with
  | nil => rfl
  | cons d ds ih => rw [evictAll_cons, ih, clock_evict]

theorem fileAt?_evictAll (h : Agrees s v) (ds : List Digest) (q : Place) :
    (s.evictAll v ds).2.fileAt? q =
      if ∃ d ∈ ds, q ∈ recordPlaces s.root d then none else v.fileAt? q := by
  induction ds generalizing s v with
  | nil => simp [Store.evictAll]
  | cons d ds ih =>
    rw [evictAll_cons, ih (h.evict d), root_evict, h.fileAt?_evict d]
    by_cases hq : q ∈ recordPlaces s.root d
    · simp [hq]
    · simp [hq]

theorem entries_evictAll (h : Agrees s v) (ds : List Digest) :
    (s.evictAll v ds).1.index.entries = s.index.entries.filter (·.1 ∉ ds) := by
  rw [evictAll_index]
  exact h.sound.entries_forgetAll ds

end Agrees

end TierCache.Disk
