import TierCache.Proofs.Disk.Eviction
import TierCache.Proofs.Disk.Restart
import TierCache.Proofs.Disk.Sweeping
import TierCache.Proofs.Disk.Upkeep

/-!
# A store opens on whatever it finds

The home of a store may hold anything: copies of one record in both folders, files that are no
records, folders, half of a write, and more bytes than the capacity. A store that opens there holds
the latest copies of the records, as far as its capacity reaches, and its home holds nothing else
that could be taken for a record. Opened again, it is the same.
-/
namespace TierCache.Disk

/-- The file of the record is in a home. -/
def Row.StandsIn (e : Row) (home : Path) (v : Volume) : Prop :=
  v.fileAt? (recordPlace home e.digest e.retention) = some (e.bytes, e.time)

/-- Files of different records have different times. -/
def Timed (home : Path) (v : Volume) : Prop :=
  ∀ a b : Row, a.StandsIn home v → b.StandsIn home v → a.time = b.time → a.digest = b.digest

/-- The rows are the records in a home that no other copy outdates, in the order of their times. -/
structure Latest (home : Path) (v : Volume) (rows : List Row) : Prop where
  mem_iff : ∀ e, e ∈ rows ↔ e.StandsIn home v ∧ ∀ a : Row, a.StandsIn home v → ¬ a.Outdates e
  ascending : rows.Pairwise fun a b => a.time < b.time

variable {v w : Volume} {root : Path} {version : UInt32} {capacity : Nat} {s : Store}

theorem Shelf.distinct_adopted (capacity : Nat) (rows : List Row)
    (blocked pinned : Digest → Retention → Bool) :
    (Shelf.addAll ⟨capacity, [], blocked, pinned⟩ rows).Distinct := by
  have hnil : (Shelf.mk capacity [] blocked pinned).Distinct := List.nodup_nil
  exact hnil.addAll rows

theorem Opened.latest {rows : List Row} (h : Opened v root version capacity s w rows)
    (ht : Timed (homeOf root version) v) (blocked pinned : Digest → Retention → Bool) :
    Latest (homeOf root version) v (Shelf.addAll ⟨capacity, [], blocked, pinned⟩ rows).rows where
  mem_iff := by
    intro e
    rw [Shelf.mem_addAll_latest h.ordered h.distinct rfl, h.found]
    exact and_congr_right fun _ => forall_congr' fun a => imp_congr_left (h.found a)
  ascending := by
    have hsub := Shelf.addAll_sublist ⟨capacity, [], blocked, pinned⟩ rows
    have hne := List.pairwise_map.mp (Shelf.distinct_adopted capacity rows blocked pinned)
    refine ((h.sorted.sublist hsub).and hne).imp_of_mem fun {a b} ha hb hab => ?_
    have hta := ht a b ((h.found a).mp (hsub.subset ha)) ((h.found b).mp (hsub.subset hb))
    have hle := hab.1
    have : a.time ≠ b.time := fun he => hab.2 (hta he)
    omega

/-- Times have a bound. -/
theorem exists_now (rows : List Row) : ∃ now, ∀ e ∈ rows, e.time ≤ now := by
  induction rows with
  | nil => exact ⟨0, fun e he => absurd he List.not_mem_nil⟩
  | cons a rows ih =>
    obtain ⟨now, hnow⟩ := ih
    refine ⟨max a.time now, fun e he => ?_⟩
    rcases List.mem_cons.mp he with rfl | he
    · omega
    · have := hnow e he
      omega

/-- What opening a store comes to, whatever stood there before. -/
structure Salvaged (v : Volume) (root : Path) (version : UInt32) (capacity : Nat) (s : Store)
    (w : Volume) : Prop where
  /-- The latest copies, those apart that give way to the capacity, are listed with their sizes in
  the order of their times, and there are no files of other records. -/
  records : ∃ (sh : Shelf) (gone : List Row), sh.capacity = capacity ∧
    Latest (homeOf root version) v sh.rows ∧ sh.Evicted gone ∧
    s.index.entries = (sh.without (gone.map Row.digest)).rows.map Row.entry ∧
    ∀ e : Row, e.StandsIn (homeOf root version) w ↔ e ∈ (sh.without (gone.map Row.digest)).rows
  listed : ∀ d info, s.index.get? d = some info ↔ (d, info) ∈ s.index.entries
  swept : Swept v root version w
  /-- Opening again changes no record, and no call can tell. It changes nothing else either, unless
  the way to the root leads through a folder of another version; then such folders may go. -/
  again : ∃ s' x, Store.open? w root version capacity = (some s', x) ∧
    (∀ q, (Tangled root version → ¬ InOther w root version q) → x.node? q = w.node? q) ∧
    (∀ d r, x.fileAt? (recordPlace (homeOf root version) d r) =
      w.fileAt? (recordPlace (homeOf root version) d r)) ∧ x.clock = w.clock ∧ x.free = w.free ∧
    s'.index.entries = s.index.entries ∧ Slot.stats (some s') = Slot.stats (some s) ∧
    ∀ calls, (Slot.run (some s') x calls).1 = (Slot.run (some s) w calls).1

/-- A store opens on whatever it finds, if the files of different records have different times and
all that it removes can be reached. -/
theorem salvaged (hr : Roomy (homeOf root version)) (hv : v.Rooted)
    (hsw : Sweepable v root version) (ht : Timed (homeOf root version) v)
    (ho : Store.open? v root version capacity = (some s, w)) :
    Salvaged v root version capacity s w := by
  obtain ⟨rows, hop⟩ := opened hr (fun hn below => hv.node?_append hn below) ho
  obtain ⟨blocked, pinned, hh⟩ := hop.holds
  have hswept := swept hr hv hsw ho
  have hlatest := hop.latest ht blocked pinned
  have hcap := congrArg Shelf.capacity (Shelf.addAll_eq ⟨capacity, [], blocked, pinned⟩ rows)
  have hdistinct := Shelf.distinct_adopted capacity rows blocked pinned
  generalize Shelf.addAll ⟨capacity, [], blocked, pinned⟩ rows = sh at *
  obtain ⟨gone, hev, hgone⟩ := Shelf.exists_evicted hdistinct
  exact
    { records := by
        have hrows := fun e : Row => hh.mem_rows (e := e).symm
        have hentries := hh.entries
        rw [hgone] at hrows hentries
        rw [hop.root_eq] at hrows
        exact ⟨sh, gone, hcap, hlatest, hev, hentries, hrows⟩
      listed := fun d info => hh.agrees.sound.mem_entries.symm
      swept := hswept
      again := by
        obtain ⟨now, hnow⟩ := exists_now sh.shrink.rows
        have hsteady : sh.shrink.Steady now :=
          ⟨⟨hlatest.ascending.filter _, hnow⟩, Shelf.settled_shrink sh, hh.distinct⟩
        have hscap : s.capacity = capacity := hh.capacity.trans hcap
        obtain ⟨s', x, ho', hh', hroot⟩ := reopened hh hsteady hop.root_eq hop.followed
          (hscap ▸ hop.positive)
        rw [hscap] at ho'
        have hw := (Store.kept_open? v root version capacity).rooted hv
        have hmedium := (Store.kept_open? w root version capacity).medium
        rw [ho] at hw
        rw [ho'] at hmedium
        have hrec := hh.fileAt?_eq hh' hroot
        rw [hop.root_eq] at hrec
        refine ⟨s', x, ho', fun q hq => ?_, hrec, hmedium.1, hmedium.2, ?_, ?_, fun calls => ?_⟩
        · refine hswept.again (hswept.reswept hr hw ho') hrec ?_
          by_cases ht : Tangled root version
          · exact hq ht
          · exact hswept.not_inOther ht q
        · rw [hh'.entries, hh.entries]
        · rw [hh'.stats_eq, hh.stats_eq]
        · obtain ⟨_, _, h₁, -⟩ := hh.run calls
          obtain ⟨_, _, h₂, -⟩ := hh'.run calls
          rw [h₁, h₂] }

/-- The folder of another version beside the home, and in the home a file that is no record and two
copies of a record, of one time. -/
def cluttered (d : Digest) : Volume :=
  (((((((Volume.empty.setNode ["store"] .folder).setNode ["store", "v2"] .folder).setNode
    ["store", "v1"] .folder).setNode ["store", "v1", "records"] .folder).setNode
    ["store", "v1", "retained"] .folder).setNode
    ["store", "v1", "records", "note"] (.file [0] 5)).setNode
    ["store", "v1", "records", d.text] (.file [1] 5)).setNode
    ["store", "v1", "retained", d.text] (.file [2, 3] 5)

theorem node?_cluttered (d : Digest) (q : Place) : (cluttered d).node? q =
    if q = ["store", "v1", "retained", d.text] then some (.file [2, 3] 5)
    else if q = ["store", "v1", "records", d.text] then some (.file [1] 5)
    else if q = ["store", "v1", "records", "note"] then some (.file [0] 5)
    else if q ∈ [[], ["store"], ["store", "v1"], ["store", "v1", "records"],
      ["store", "v1", "retained"], ["store", "v2"]] then some .folder else none := by
  simp only [cluttered, Volume.node?_setNode (List.cons_ne_nil _ _)]
  by_cases hq : q = []
  · simp [hq]
  · simp only [node?_empty hq, List.mem_cons, List.not_mem_nil, hq, or_false, false_or]
    grind

theorem rooted_cluttered (d : Digest) : (cluttered d).Rooted := by
  refine .setNode (.setNode (.setNode (.setNode (.setNode (.setNode (.setNode (.setNode rooted_empty
    ?_ ?_ ?_) ?_ ?_ ?_) ?_ ?_ ?_) ?_ ?_ ?_) ?_ ?_ ?_) ?_ ?_ ?_) ?_ ?_ ?_) ?_ ?_ ?_
  all_goals simp [Volume.node?_setNode, node?_empty]

theorem slot_store (r : Retention) (name : String) :
    slot (homeOf ⟨["store"]⟩ 1) r name = ["store", "v1", folderName r, name] := by
  have hgoal : (homeOf ⟨["store"]⟩ 1).goal = ["store", "v1"] := by decide
  rw [slot, hgoal]
  rfl

theorem sweepable_cluttered (d : Digest) : Sweepable (cluttered d) ⟨["store"]⟩ 1 where
  others := by
    intro name hother hn
    have hgoal : (⟨["store"]⟩ : Path).goal ++ [name] = ["store", name] := rfl
    have hne : name ≠ "v1" := hother.2
    rw [hgoal, node?_cluttered] at hn
    have hname : name = "v2" := by simpa [hne] using hn
    rw [hname]
    decide
  strays := by
    intro r name hn hsome
    have hne : name ≠ d.text := by
      rintro rfl
      rw [Digest.parse?_eq_some_iff.mpr rfl] at hn
      cases hn
    rw [slot_store, Volume.fileAt?, node?_cluttered] at hsome
    have hname : folderName r = "records" ∧ name = "note" := by
      by_cases h : folderName r = "records" ∧ name = "note"
      · exact h
      · simp [hne, h] at hsome
    have hr : r = .normal := folderName_injective hname.1
    rw [hr, hname.2]
    exact ⟨⟨by decide, by decide⟩, by decide⟩

theorem timed_cluttered (d : Digest) : Timed (homeOf ⟨["store"]⟩ 1) (cluttered d) := by
  have only : ∀ e : Row, e.StandsIn (homeOf ⟨["store"]⟩ 1) (cluttered d) → e.digest = d := by
    intro e he
    have hnote : e.digest.text ≠ "note" := by
      intro h
      have hlen := e.digest.length_text
      rw [h] at hlen
      exact absurd hlen (by decide)
    rw [Row.StandsIn, ← slot_text, slot_store, Volume.fileAt?, node?_cluttered] at he
    by_cases hd : e.digest.text = d.text
    · exact Digest.text_injective hd
    · simp [hd, hnote] at he
  exact fun a b ha hb _ => (only a ha).trans (only b hb).symm

theorem open_cluttered (d : Digest) : ∃ s w,
    Store.open? (cluttered d) ⟨["store"]⟩ 1 100 = (some s, w) := by
  have hfolders : folders (homeOf ⟨["store"]⟩ 1) = [[], ["store"], ["store", "v1"],
    ["store", "v1", "records"], ["store", "v1", "retained"], ["store", "v1", "tmp"]] := by decide
  have hway : (⟨["store"]⟩ : Path).way = [[]] := rfl
  have hgoal : (⟨["store"]⟩ : Path).goal = ["store"] := rfl
  have hroot : (cluttered d).isFolder ⟨["store"]⟩ = true := by
    refine Volume.isFolder_iff.mpr ⟨⟨by decide, fun q hq => ?_⟩, ?_⟩
    · rw [hway, List.mem_singleton] at hq
      rw [hq, Volume.node?_root]
    · rw [hgoal, node?_cluttered]
      simp
  refine open_of_free roomy_store (Volume.makeFolders_of_isFolder hroot) (by decide) fun q hq => ?_
  rw [hfolders] at hq
  rw [Volume.fileAt?, node?_cluttered]
  simp only [List.mem_cons, List.not_mem_nil, or_false] at hq
  rcases hq with rfl | rfl | rfl | rfl | rfl | rfl <;> simp

theorem salvaged_cluttered : ¬ Tangled ⟨["store"]⟩ 1 ∧ ∃ s w,
    Store.open? (cluttered (.ofKey "a")) ⟨["store"]⟩ 1 100 = (some s, w) ∧
    Salvaged (cluttered (.ofKey "a")) ⟨["store"]⟩ 1 100 s w := by
  refine ⟨?_, ?_⟩
  · rintro ⟨q, hq, name, -, hpre⟩
    have hway : (⟨["store"]⟩ : Path).way = [[]] := rfl
    rw [hway, List.mem_singleton] at hq
    rw [hq, List.prefix_nil] at hpre
    simp at hpre
  · obtain ⟨s, w, ho⟩ := open_cluttered (.ofKey "a")
    exact ⟨s, w, ho, salvaged roomy_store (rooted_cluttered _) (sweepable_cluttered _)
      (timed_cluttered _) ho⟩

/-- Two folders of other versions, and no files. -/
def versioned : Volume :=
  ((Volume.empty.makeFolders ⟨["cache", "v3"]⟩).1.makeFolders ⟨["cache", "v2"]⟩).1

theorem node?_versioned (q : Place) : versioned.node? q =
    if q ∈ [[], ["cache"], ["cache", "v2"], ["cache", "v3"]] then some .folder else none := by
  have hfirst : Volume.empty.makeFolders ⟨["cache", "v3"]⟩ =
      ((Volume.empty.makeFolders ⟨["cache", "v3"]⟩).1, none) := Prod.ext rfl (by decide)
  have hsecond : (Volume.empty.makeFolders ⟨["cache", "v3"]⟩).1.makeFolders ⟨["cache", "v2"]⟩ =
      (versioned, none) := Prod.ext rfl (by decide)
  rw [Volume.node?_makeFolders hsecond, Volume.node?_makeFolders hfirst]
  simp only [show (⟨["cache", "v2"]⟩ : Path).way = [[], ["cache"]] from rfl,
    show (⟨["cache", "v2"]⟩ : Path).goal = ["cache", "v2"] from rfl,
    show (⟨["cache", "v3"]⟩ : Path).way = [[], ["cache"]] from rfl,
    show (⟨["cache", "v3"]⟩ : Path).goal = ["cache", "v3"] from rfl]
  by_cases hq : q = []
  · simp [hq]
  · simp only [node?_empty hq, List.mem_cons, List.not_mem_nil, or_false, hq, false_or]
    grind

theorem fileAt?_versioned (q : Place) : versioned.fileAt? q = none := by
  rw [Volume.fileAt?, node?_versioned]
  split
  · rename_i hn
    split at hn <;> cases hn
  · rfl

/-- The way to the folders leads through one of them. -/
def tangled : Path := ⟨["cache", "v2", ".."]⟩

theorem sweepable_versioned : Sweepable versioned tangled 1 where
  others := by
    intro name _ hn
    have hplace : tangled.goal ++ [name] = ["cache", name] := rfl
    rw [hplace, node?_versioned] at hn
    by_cases hname : name = "v2"
    · rw [hname]
      decide
    · have hname : name = "v3" := by simpa [hname] using hn
      rw [hname]
      decide
  strays := by
    intro r name _ hsome
    rw [fileAt?_versioned] at hsome
    cases hsome

/-- A folder is taken away and made anew, so that it is the first to be listed. -/
def renewed (v : Volume) (p : Path) : Volume := ((v.apply (.clearTree p)).1.makeFolders p).1

/-- Where the way to the root leads through the folder of another version, that folder is made again
as soon as it has gone, and stays. Until it is, no folder beside it can be reached. So others stay
too that are listed after it, and go when the same folders are listed the other way round. -/
theorem salvaged_tangled : ∃ s w s' x,
    (Roomy (homeOf tangled 1) ∧ versioned.Rooted ∧ Sweepable versioned tangled 1 ∧
      Timed (homeOf tangled 1) versioned) ∧
    (Store.open? versioned tangled 1 5 = (some s, w) ∧
      InOther versioned tangled 1 ["cache", "v2"] ∧ w.node? ["cache", "v2"] = some .folder) ∧
    (renewed w ⟨["cache", "v3"]⟩).nodes.pairs.Perm w.nodes.pairs ∧
    Store.open? (renewed w ⟨["cache", "v3"]⟩) tangled 1 5 = (some s', x) ∧
    w.node? ["cache", "v3"] = some .folder ∧ x.node? ["cache", "v3"] = none := by
  have hr : Roomy (homeOf tangled 1) := ⟨by decide, by decide, by decide⟩
  have hv : versioned.Rooted := (rooted_empty.makeFolders _).makeFolders _
  have hroot : versioned.isFolder tangled = true := by decide
  have hway : ["cache", "v2"] ∈ folders (homeOf tangled 1) := by decide
  have htimed : Timed (homeOf tangled 1) versioned := by
    intro a b ha
    rw [Row.StandsIn, fileAt?_versioned] at ha
    cases ha
  obtain ⟨s, w, ho⟩ := open_of_free hr (Volume.makeFolders_of_isFolder hroot)
    (show 5 ≠ 0 by decide) fun q _ => fileAt?_versioned q
  have hw : (Store.open? versioned tangled 1 5).2 = w := congrArg Prod.snd ho
  have hperm : (renewed (Store.open? versioned tangled 1 5).2 ⟨["cache", "v3"]⟩).nodes.pairs.Perm
      (Store.open? versioned tangled 1 5).2.nodes.pairs := by decide +kernel
  have hstays : (Store.open? versioned tangled 1 5).2.node? ["cache", "v3"] = some .folder := by
    decide +kernel
  have hagain : (Store.open? (renewed (Store.open? versioned tangled 1 5).2 ⟨["cache", "v3"]⟩)
      tangled 1 5).1.isSome := by decide +kernel
  have hgoes : (Store.open? (renewed (Store.open? versioned tangled 1 5).2 ⟨["cache", "v3"]⟩)
      tangled 1 5).2.node? ["cache", "v3"] = none := by decide +kernel
  rw [hw] at hperm hstays hagain hgoes
  obtain ⟨s', hs'⟩ := Option.isSome_iff_exists.mp hagain
  exact ⟨s, w, s', _, ⟨hr, hv, sweepable_versioned, htimed⟩,
    ⟨ho, ⟨"v2", ⟨by decide, by decide⟩, by decide, List.prefix_refl _⟩,
      (swept hr hv sweepable_versioned ho).standing _ hway⟩,
    hperm, Prod.ext hs' rfl, hstays, hgoes⟩

end TierCache.Disk
