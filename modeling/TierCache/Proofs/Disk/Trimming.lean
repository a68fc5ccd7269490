import TierCache.Proofs.Disk.Reopening

/-!
# What a store evicts

The excess of an index is the shortest row of evictable records, from the least recently used on,
whose sizes bring the total down to the capacity, or all of them. A store that is shrunk loses its
excess and nothing else, whatever its volume looks like. So a store is settled after every call: it
fits its capacity, or has nothing left to evict.
-/
namespace TierCache.Disk

namespace Index

variable {ix : Index} {capacity : Nat} {gone gone' : List (Digest × RecordInfo)}

/-- The records that may be evicted, least recently used first. -/
def loose (ix : Index) : List (Digest × RecordInfo) :=
  ix.entries.filter (·.2.retention = .normal)

def sizes (es : List (Digest × RecordInfo)) : Nat := total (fun e => e.2.size) es

/-- The records that are too many for a capacity. -/
structure Excess (ix : Index) (capacity : Nat) (gone : List (Digest × RecordInfo)) : Prop where
  oldest : gone <+: ix.loose
  enough : ix.totalSize ≤ capacity + sizes gone ∨ gone = ix.loose
  shortest : ∀ less, less <+: ix.loose → less.length < gone.length →
    capacity + sizes less < ix.totalSize

/-- The index fits, or has nothing that may be evicted. -/
def Settled (ix : Index) (capacity : Nat) : Prop :=
  ix.totalSize ≤ capacity ∨ ∀ d info, ix.get? d = some info → info.retention = .always

theorem exists_excess (ix : Index) (capacity : Nat) :
    ∃ gone, ix.Excess capacity gone ∧ ix.toEvict capacity = gone.map Prod.fst := by
  obtain ⟨gone, rest, hl, hv, henough, hneeded⟩ := victims_split Prod.fst
    (fun e : Digest × RecordInfo => e.2.size) (ix.totalSize - capacity) ix.loose
  have hfirst : gone <+: ix.loose := hl ▸ List.prefix_append gone rest
  refine ⟨gone, ⟨hfirst, ?_, fun less hless hlen => ?_⟩, ?_⟩
  · rcases henough with rfl | h
    · exact .inr (by rw [hl, List.append_nil])
    · exact .inl (by unfold sizes; omega)
  · obtain ⟨more, rfl⟩ := List.prefix_of_prefix_length_le hless hfirst (Nat.le_of_lt hlen)
    cases more with
    | nil => simp at hlen
    | cons e after =>
      have := hneeded less e after rfl
      unfold sizes
      omega
  · rw [toEvict, evictable_eq]
    exact hv

namespace Excess

variable {e : Digest × RecordInfo}

theorem eq_nil (h : ix.Excess capacity gone) (hfits : ix.totalSize ≤ capacity) : gone = [] := by
  refine Decidable.byContradiction fun hne => ?_
  have := h.shortest [] List.nil_prefix (List.length_pos_iff.mpr hne)
  omega

theorem length_le (h : ix.Excess capacity gone) (h' : ix.Excess capacity gone') :
    gone.length ≤ gone'.length := by
  refine Nat.le_of_not_lt fun hlt => ?_
  have hless := h.shortest gone' h'.oldest hlt
  rcases h'.enough with hfits | rfl
  · omega
  · exact absurd h.oldest.length_le (Nat.not_le_of_lt hlt)

/-- There is one excess. -/
theorem unique (h : ix.Excess capacity gone) (h' : ix.Excess capacity gone') : gone = gone' :=
  (List.prefix_of_prefix_length_le h.oldest h'.oldest (h.length_le h')).eq_of_length_le
    (h'.length_le h)

theorem sublist (h : ix.Excess capacity gone) : gone.Sublist ix.entries :=
  h.oldest.sublist.trans List.filter_sublist

theorem normal (h : ix.Excess capacity gone) (he : e ∈ gone) : e.2.retention = .normal :=
  of_decide_eq_true (List.mem_filter.mp (h.oldest.subset he)).2

theorem get? (h : ix.Excess capacity gone) (hs : ix.Sound) (he : e ∈ gone) :
    ix.get? e.1 = some e.2 :=
  hs.mem_entries.mp (h.sublist.subset he)

/-- The others stay, in their order. -/
theorem entries_forgetAll (h : ix.Excess capacity gone) (hs : ix.Sound) :
    ((gone.map Prod.fst).foldl forget ix).entries = ix.entries.filter (· ∉ gone) := by
  rw [hs.entries_forgetAll]
  refine List.filter_congr fun e he => decide_eq_decide.mpr (not_congr ?_)
  rw [List.mem_map]
  constructor
  · rintro ⟨e', he', heq⟩
    exact eq_of_nodup_map hs.nodup_entries (h.sublist.subset he') he heq ▸ he'
  · exact fun hg => ⟨e, hg, rfl⟩

theorem totalSize_forgetAll (h : ix.Excess capacity gone) (hs : ix.Sound) :
    ((gone.map Prod.fst).foldl forget ix).totalSize + sizes gone = ix.totalSize := by
  rw [(hs.forgetAll _).totalSize_eq, hs.totalSize_eq, hs.entries_forgetAll]
  exact total_filter_notMem_add (fun e : Digest × RecordInfo => e.2.size) hs.nodup_entries h.sublist

theorem settled_forgetAll (h : ix.Excess capacity gone) (hs : ix.Sound) :
    ((gone.map Prod.fst).foldl forget ix).Settled capacity := by
  rcases h.enough with hfits | hall
  · have := h.totalSize_forgetAll hs
    exact .inl (by omega)
  · refine .inr fun d info hi => ?_
    rw [← (hs.forgetAll _).mem_entries, h.entries_forgetAll hs, List.mem_filter,
      decide_eq_true_eq] at hi
    cases hr : info.retention with
    | always => rfl
    | normal =>
      refine absurd ?_ hi.2
      rw [hall]
      exact List.mem_filter.mpr ⟨hi.1, decide_eq_true hr⟩

end Excess

namespace Settled

theorem toEvict (h : ix.Settled capacity) (hs : ix.Sound) : ix.toEvict capacity = [] := by
  obtain ⟨gone, hex, he⟩ := exists_excess ix capacity
  rw [he, List.map_eq_nil_iff]
  rcases h with hfits | hret
  · exact hex.eq_nil hfits
  · refine List.eq_nil_iff_forall_not_mem.mpr fun e hm => ?_
    have hn := hex.normal hm
    rw [hret e.1 e.2 (hex.get? hs hm)] at hn
    cases hn

theorem empty (capacity : Nat) : Index.empty.Settled capacity := .inl (Nat.zero_le _)

theorem touch (h : ix.Settled capacity) (d : Digest) : (ix.touch d).Settled capacity := h

theorem forget (h : ix.Settled capacity) (d : Digest) : (ix.forget d).Settled capacity := by
  rcases h with hfits | hret
  · refine .inl (Nat.le_trans ?_ hfits)
    rw [Index.forget]
    split
    · exact Nat.sub_le _ _
    · exact Nat.le_refl _
  · refine .inr fun d' info hi => ?_
    rw [get?_forget] at hi
    split at hi
    · cases hi
    · exact hret d' info hi

theorem forgetAll (h : ix.Settled capacity) (ds : List Digest) :
    (ds.foldl Index.forget ix).Settled capacity := by
  induction ds generalizing ix with
  | nil => exact h
  | cons d ds ih => exact ih (h.forget d)

end Settled

end Index

variable {s s' : Store} {v w : Volume} {gone : List (Digest × RecordInfo)}

/-- A store without its excess, and the volume without the files of these records. -/
structure Trimmed (s : Store) (v : Volume) (gone : List (Digest × RecordInfo)) (s' : Store)
    (w : Volume) : Prop where
  root : s'.root = s.root
  capacity : s'.capacity = s.capacity
  excess : s.index.Excess s.capacity gone
  /-- A store that fits loses nothing. -/
  fits : s.index.totalSize ≤ s.capacity → gone = []
  survivors : s'.index.entries = s.index.entries.filter (· ∉ gone)
  retained : ∀ e ∈ s.index.entries, e.2.retention = .always → e ∈ s'.index.entries
  totalSize : s'.index.totalSize + Index.sizes gone = s.index.totalSize
  files : w = discardAll v (gone.map fun e => s.pathOf e.1 .normal)
  sound : s'.index.Sound
  settled : s'.index.Settled s'.capacity
  /-- To shrink the store once more changes nothing, also on another volume. -/
  again : ∀ u, s'.shrink u = (s', u)

namespace Store

/-- The files go one after the other. -/
theorem volume_evictAll (hn : (gone.map Prod.fst).Nodup)
    (hg : ∀ e ∈ gone, s.index.get? e.1 = some e.2) :
    (s.evictAll v (gone.map Prod.fst)).2 =
      discardAll v (gone.map fun e => s.pathOf e.1 e.2.retention) := by
  induction gone generalizing s v with
  | nil => rfl
  | cons e gone ih =>
    obtain ⟨hfirst, hrest⟩ := List.forall_mem_cons.mp hg
    rw [List.map_cons, List.nodup_cons] at hn
    have hev : s.evict v e.1 =
        ({ s with index := s.index.forget e.1 }, v.discard (s.pathOf e.1 e.2.retention)) := by
      rw [evict, hfirst]
    rw [List.map_cons, Agrees.evictAll_cons, hev]
    refine ih hn.2 fun e' he' => ?_
    rw [Index.get?_forget, if_neg, hrest e' he']
    exact fun heq => hn.1 (heq ▸ List.mem_map_of_mem he')

theorem shrink_settled (hs : s.index.Sound) (h : s.index.Settled s.capacity) (v : Volume) :
    s.shrink v = (s, v) := by
  rw [shrink, h.toEvict hs]
  rfl

theorem shrink_trimmed (hs : s.index.Sound) (v : Volume) :
    ∃ gone, Trimmed s v gone (s.shrink v).1 (s.shrink v).2 := by
  obtain ⟨gone, hex, he⟩ := s.index.exists_excess s.capacity
  have hnormal : (gone.map fun e => s.pathOf e.1 e.2.retention) =
      gone.map fun e => s.pathOf e.1 .normal :=
    List.map_congr_left fun e hm => by rw [hex.normal hm]
  have hfiles := volume_evictAll (v := v) (hs.nodup_entries.sublist (hex.sublist.map Prod.fst))
    fun e => hex.get? hs
  have hsettled := hex.settled_forgetAll hs
  refine ⟨gone, ?_⟩
  rw [shrink, he, hfiles, Agrees.evictAll_index, hnormal]
  exact
    { root := rfl
      capacity := rfl
      excess := hex
      fits := hex.eq_nil
      survivors := hex.entries_forgetAll hs
      retained := by
        intro e hm hr
        rw [hex.entries_forgetAll hs, List.mem_filter, decide_eq_true_eq]
        refine ⟨hm, fun hg => ?_⟩
        have hn := hex.normal hg
        rw [hr] at hn
        cases hn
      totalSize := hex.totalSize_forgetAll hs
      files := rfl
      sound := hs.forgetAll _
      settled := hsettled
      again := shrink_settled (hs.forgetAll _) hsettled }

/-- A committed write has run its plan, and then shrinks the store that has the new record. -/
theorem put_committed {d : Digest} {bytes : List UInt8} {r : Retention}
    (h : s.put v d bytes r = (.committed, s', w)) :
    ∃ u x, v.makeFolders (staging s.root) = (u, none) ∧
      u.run (s.writePlan (s.stagePath u) d bytes r) = (x, none) ∧
      ({ s with index := s.index.insert d ⟨bytes.length, r⟩ } : Store).shrink x = (s', w) := by
  rw [put] at h
  split at h
  · cases h
  · rename_i u hu
    simp only at h
    split at h
    · cases h
    · rename_i x hx
      exact ⟨u, x, hu, hx, (Prod.mk.inj h).2⟩

/-- A write that was not committed leaves the store alone. -/
theorem put_uncommitted {d : Digest} {bytes : List UInt8} {r : Retention} {outcome : WriteResult}
    (h : s.put v d bytes r = (outcome, s', w)) (hne : outcome ≠ .committed) : s' = s := by
  rw [put] at h
  split at h
  · cases h
    rfl
  · simp only at h
    split at h
    · cases h
      rfl
    · exact absurd (Prod.mk.inj h).1.symm hne

/-- The index of the records that were found. -/
def indexed (found : List Found) : Index :=
  found.foldl (fun ix f => ix.insert f.digest f.info) .empty

/-- The records on a volume, in the order of their times. -/
def foundAt (v : Volume) (home : Path) : List Found :=
  inOrder (foundIn v home .normal ++ foundIn v home .always)

/-- A store with all that is found on a volume, before it is shrunk. -/
def gather (s : Store) (v : Volume) : Store × Volume :=
  (foundAt v s.root).foldl (fun (s, v) f => s.adopt v f)
    (s, discardAll v (strays v s.root .normal ++ strays v s.root .always))

theorem rebuild_eq (s : Store) (v : Volume) : s.rebuild v = (s.gather v).1.shrink (s.gather v).2 :=
  rfl

theorem sound_insertAll {ix : Index} (h : ix.Sound) (found : List Found) :
    (found.foldl (fun ix f => ix.insert f.digest f.info) ix).Sound := by
  induction found generalizing ix with
  | nil => exact h
  | cons f found ih => exact ih (h.insert f.digest f.info)

theorem adoptAll_fst (found : List Found) (s : Store) (v : Volume) :
    (found.foldl (fun (s, v) f => s.adopt v f) (s, v)).1 =
      { s with index := found.foldl (fun ix f => ix.insert f.digest f.info) s.index } := by
  induction found generalizing s v with
  | nil => rfl
  | cons f found ih => exact ih _ _

/-- An opened store has taken in what it found in the order of the times, and is then shrunk. -/
theorem open?_gathered {root : Path} {version : UInt32} {capacity : Nat}
    (h : Store.open? v root version capacity = (some s, w)) :
    ∃ u x, v.makeFolders root = (u, none) ∧
      (removeStale u root (versionName version)).run (preparePlan (homeOf root version)) =
        (x, none) ∧
      (Store.mk (homeOf root version) capacity (indexed (foundAt x (homeOf root version)))).shrink
        ((Store.mk (homeOf root version) capacity .empty).gather x).2 = (s, w) := by
  obtain ⟨-, u, x, hu, hx, hbuilt⟩ := open?_steps h
  rw [rebuild_eq] at hbuilt
  have hindex := adoptAll_fst (foundAt x (homeOf root version))
    (Store.mk (homeOf root version) capacity .empty)
    (discardAll x (strays x (homeOf root version) .normal ++
      strays x (homeOf root version) .always))
  rw [gather, hindex] at hbuilt
  exact ⟨u, x, hu, hx, hbuilt⟩

/-- A write evicts what is too much once its record is there, as the most recently used one. -/
theorem put_trimmed (hs : s.index.Sound) {d : Digest} {bytes : List UInt8} {r : Retention}
    (h : s.put v d bytes r = (.committed, s', w)) : ∃ u x gone,
      v.makeFolders (staging s.root) = (u, none) ∧
      u.run (s.writePlan (s.stagePath u) d bytes r) = (x, none) ∧
      (s.index.insert d ⟨bytes.length, r⟩).entries =
        s.index.entries.filter (·.1 ≠ d) ++ [(d, ⟨bytes.length, r⟩)] ∧
      Trimmed { s with index := s.index.insert d ⟨bytes.length, r⟩ } x gone s' w := by
  obtain ⟨u, x, hu, hx, hw⟩ := put_committed h
  obtain ⟨gone, ht⟩ := shrink_trimmed (s := { s with index := s.index.insert d ⟨bytes.length, r⟩ })
    (hs.insert d ⟨bytes.length, r⟩) x
  rw [hw] at ht
  exact ⟨u, x, gone, hu, hx, hs.entries_insert d _, ht⟩

/-- Opening evicts what is too much of all that is found. -/
theorem open?_trimmed {root : Path} {version : UInt32} {capacity : Nat}
    (h : Store.open? v root version capacity = (some s, w)) : ∃ u x gone,
      v.makeFolders root = (u, none) ∧
      (removeStale u root (versionName version)).run (preparePlan (homeOf root version)) =
        (x, none) ∧
      Trimmed (.mk (homeOf root version) capacity (indexed (foundAt x (homeOf root version))))
        ((Store.mk (homeOf root version) capacity .empty).gather x).2 gone s w := by
  obtain ⟨u, x, hu, hx, hbuilt⟩ := open?_gathered h
  have hsound := sound_insertAll .empty (foundAt x (homeOf root version))
  obtain ⟨gone, ht⟩ := shrink_trimmed
    (s := .mk (homeOf root version) capacity (indexed (foundAt x (homeOf root version)))) hsound
    ((Store.mk (homeOf root version) capacity .empty).gather x).2
  rw [hbuilt] at ht
  exact ⟨u, x, gone, hu, hx, ht⟩

/-- A store that has nothing to evict. -/
structure AtRest (s : Store) : Prop where
  sound : s.index.Sound
  settled : s.index.Settled s.capacity

namespace AtRest

variable {d : Digest}

theorem evictAll (h : s.AtRest) (v : Volume) (ds : List Digest) : (s.evictAll v ds).1.AtRest := by
  rw [Agrees.evictAll_index]
  exact ⟨h.sound.forgetAll ds, h.settled.forgetAll ds⟩

theorem shrink_eq (h : s.AtRest) (v : Volume) : s.shrink v = (s, v) :=
  shrink_settled h.sound h.settled v

theorem put (h : s.AtRest) (v : Volume) (d : Digest) (bytes : List UInt8) (r : Retention) :
    (s.put v d bytes r).2.1.AtRest := by
  rcases hp : s.put v d bytes r with ⟨outcome, s', w⟩
  by_cases hc : outcome = .committed
  · subst hc
    obtain ⟨u, x, gone, -, -, -, ht⟩ := put_trimmed h.sound hp
    exact ⟨ht.sound, ht.settled⟩
  · rw [put_uncommitted hp hc]
    exact h

theorem get (h : s.AtRest) (v : Volume) (d : Digest) : (s.get v d).2.1.AtRest := by
  rw [Store.get]
  split
  · exact h
  · rename_i info hi
    have ht : ({ s with index := s.index.touch d } : Store).AtRest :=
      ⟨h.sound.touch hi, h.settled.touch d⟩
    simp only
    split
    · exact ht
    · exact ⟨ht.sound.forget d, ht.settled.forget d⟩
    · exact ht

theorem wipe (h : s.AtRest) (v : Volume) : (s.wipe v).2.1.AtRest := by
  rw [Store.wipe]
  split
  · exact h
  · exact ⟨.empty, .empty s.capacity⟩

end AtRest

end Store

namespace Slot

/-- What calls make of an opened slot, whatever becomes of the volume between them. -/
inductive Reached : Slot → Prop
  | opened (v : Volume) (root : Path) (version : UInt32) (capacity : Nat) :
    Reached (Store.open? v root version capacity).1
  | call {slot : Slot} (h : Reached slot) (v : Volume) (a : Action) : Reached (slot.act v a).2.1

/-- Every call leaves a store at rest. -/
theorem atRest_act (h : s.AtRest) (v : Volume) (a : Action) :
    ∃ t, (Slot.act (some s) v a).2.1 = some t ∧ t.AtRest := by
  cases a with
  | put d bytes r => exact ⟨_, rfl, h.put v d bytes r⟩
  | get d => exact ⟨_, rfl, h.get v d⟩
  | contains d => exact ⟨_, rfl, h⟩
  | remove d => exact ⟨_, rfl, h.evictAll v [d]⟩
  | removeIf p => exact ⟨_, rfl, h.evictAll v (s.matching v p)⟩
  | wipe => exact ⟨_, rfl, h.wipe v⟩
  | shrink => exact ⟨_, rfl, h.evictAll v _⟩

theorem Reached.atRest {slot : Slot} (h : slot.Reached) : ∀ s ∈ slot, s.AtRest := by
  induction h with
  | opened v root version capacity =>
    intro s hs
    obtain ⟨u, x, gone, -, -, ht⟩ := Store.open?_trimmed (Prod.ext hs rfl)
    exact ⟨ht.sound, ht.settled⟩
  | @call slot h v a ih =>
    cases slot with
    | none =>
      intro s hs
      rw [act_none] at hs
      cases hs
    | some s =>
      obtain ⟨t, ht, hrest⟩ := atRest_act (ih s rfl) v a
      intro s' hs'
      rw [ht] at hs'
      cases hs'
      exact hrest

end Slot

/-- A store that is shrunk, or has taken in a new record as the most recent one, or has taken in
all that it found, loses its excess. So no call leaves a store with an excess. -/
theorem evicts_exactly (hs : s.index.Sound) (v : Volume) :
    (∃ gone, Trimmed s v gone (s.shrink v).1 (s.shrink v).2) ∧
    (∀ d bytes r s' w, s.put v d bytes r = (.committed, s', w) →
      ∃ u x gone, v.makeFolders (staging s.root) = (u, none) ∧
        u.run (s.writePlan (s.stagePath u) d bytes r) = (x, none) ∧
        (s.index.insert d ⟨bytes.length, r⟩).entries =
          s.index.entries.filter (·.1 ≠ d) ++ [(d, ⟨bytes.length, r⟩)] ∧
        Trimmed { s with index := s.index.insert d ⟨bytes.length, r⟩ } x gone s' w) ∧
    (∀ root version capacity s' w, Store.open? v root version capacity = (some s', w) →
      ∃ u x gone, v.makeFolders root = (u, none) ∧
        (removeStale u root (versionName version)).run (preparePlan (homeOf root version)) =
          (x, none) ∧
        Trimmed (.mk (homeOf root version) capacity
            (Store.indexed (Store.foundAt x (homeOf root version))))
          ((Store.mk (homeOf root version) capacity .empty).gather x).2 gone s' w) ∧
    ∀ slot : Slot, slot.Reached → ∀ s ∈ slot, s.AtRest ∧ ∀ u, s.shrink u = (s, u) :=
  ⟨Store.shrink_trimmed hs v, fun _ _ _ _ _ => Store.put_trimmed hs,
    fun _ _ _ _ _ => Store.open?_trimmed,
    fun _ h s hs => ⟨h.atRest s hs, (h.atRest s hs).shrink_eq⟩⟩

/-- Three bytes too many, with a retained record between two that may be evicted. -/
def crowded : Store where
  root := ⟨["store"]⟩
  capacity := 6
  index := ((Index.empty.insert (.ofKey "a") ⟨3, .normal⟩).insert (.ofKey "b") ⟨4, .always⟩).insert
    (.ofKey "c") ⟨2, .normal⟩

theorem evicts_exactly_crowded : crowded.index.Sound ∧
    (∃ gone, Trimmed crowded .empty gone (crowded.shrink .empty).1 (crowded.shrink .empty).2) ∧
    (crowded.shrink .empty).1.index.entries.map Prod.snd = [⟨4, .always⟩, ⟨2, .normal⟩] := by
  have hs : crowded.index.Sound := ((Index.Sound.empty.insert _ _).insert _ _).insert _ _
  exact ⟨hs, (evicts_exactly hs .empty).1, by decide +kernel⟩

end TierCache.Disk
