import TierCache.Proofs.Disk.Reopening

/-!
# Restarts are not seen

The times of the files follow the order of use: what is written or read gets a later time than all
before, and goes to the end of the order. So the index that is built from the times is the one
that was given up, and every later call answers as it would have.
-/
namespace TierCache.Disk

namespace Shelf

variable {sh : Shelf} {now now' : Int}

/-- The times of the files ascend in the order of use, and none is later than now. -/
structure Dated (sh : Shelf) (now : Int) : Prop where
  ascending : sh.rows.Pairwise fun a b => a.time < b.time
  past : ∀ e ∈ sh.rows, e.time ≤ now

namespace Dated

theorem of_rows_nil (h : sh.rows = []) (now : Int) : sh.Dated now := by
  constructor
  · rw [h]
    exact List.Pairwise.nil
  · intro e he
    rw [h] at he
    cases he

theorem mono (h : sh.Dated now) (hn : now < now') : sh.Dated now' := by
  refine ⟨h.ascending, fun e he => ?_⟩
  have := h.past e he
  omega

theorem without (h : sh.Dated now) (ds : List Digest) : (sh.without ds).Dated now :=
  ⟨h.ascending.filter _, fun e he => h.past e (mem_rows_without.mp he).1⟩

/-- The row that is used now comes last. -/
theorem add (h : sh.Dated now) (hn : now < now') {e : Row} (he : e.time = now') :
    (sh.add e).Dated now' := by
  constructor
  · rw [Shelf.add, List.pairwise_append]
    refine ⟨h.ascending.filter _, List.pairwise_singleton _ _, fun a ha b hb => ?_⟩
    have := h.past a (List.mem_filter.mp ha).1
    rw [List.mem_singleton.mp hb]
    omega
  · intro a ha
    rcases mem_rows_add.mp ha with ⟨ha, -⟩ | rfl
    · have := h.past a ha
      omega
    · omega

end Dated

/-- What a call needs to know of the calls before it. -/
structure Steady (sh : Shelf) (now : Int) : Prop where
  dated : sh.Dated now
  settled : sh.Settled
  distinct : sh.Distinct

theorem Distinct.nodup_entries (h : sh.Distinct) : (sh.rows.map Row.entry).Nodup := by
  have hm : ((sh.rows.map Row.entry).map Prod.fst).Nodup := by
    rw [List.map_map]
    exact h
  exact List.Pairwise.of_map Prod.fst (fun _ _ hne he => hne (congrArg Prod.fst he)) hm

/-- A record that is read goes to the end, and takes no more room. -/
theorem settled_add_of_mem (hd : sh.Distinct) (hs : sh.Settled) {e : Row} (he : e ∈ sh.rows)
    (t : Int) : (sh.add { e with time := t }).Settled := by
  refine hs.of_perm ?_ rfl
  refine (List.perm_ext_iff_of_nodup (hd.add _).nodup_entries hd.nodup_entries).mpr fun p => ?_
  simp only [List.mem_map, mem_rows_add]
  constructor
  · rintro ⟨a, ⟨ha, -⟩ | rfl, rfl⟩
    · exact ⟨a, ha, rfl⟩
    · exact ⟨e, he, rfl⟩
  · rintro ⟨a, ha, rfl⟩
    by_cases hae : a.digest = e.digest
    · have := hd.eq ha he hae
      subst this
      exact ⟨_, .inr rfl, rfl⟩
    · exact ⟨a, .inl ⟨ha, hae⟩, rfl⟩

namespace Steady

theorem mono (h : sh.Steady now) (hn : now < now') : sh.Steady now' :=
  ⟨h.dated.mono hn, h.settled, h.distinct⟩

theorem without (h : sh.Steady now) (ds : List Digest) : (sh.without ds).Steady now :=
  ⟨h.dated.without ds, h.settled.without ds, h.distinct.without ds⟩

theorem act (h : sh.Steady now) (hn : now < now') (a : Action) :
    (sh.act now' a).2.Steady now' := by
  cases a with
  | put d bytes r =>
    simp only [Shelf.act]
    split
    · exact h.mono hn
    · have ha := h.dated.add (e := ⟨d, r, bytes, now'⟩) hn rfl
      exact ⟨ha.without _, settled_shrink _, (h.distinct.add _).without _⟩
  | get d =>
    simp only [Shelf.act]
    cases hf : sh.find? d with
    | none => exact h.mono hn
    | some e =>
      have ha := h.dated.add (e := { e with time := now' }) hn rfl
      exact ⟨ha, settled_add_of_mem h.distinct h.settled (mem_of_find? hf) now', h.distinct.add _⟩
  | contains d => exact h.mono hn
  | remove d => exact (h.mono hn).without _
  | removeIf p => exact (h.mono hn).without _
  | wipe => exact ⟨.of_rows_nil rfl now', .inl (Nat.zero_le _), List.nodup_nil⟩
  | shrink => exact (h.mono hn).without _

end Steady

end Shelf

variable {s : Store} {v w : Volume} {sh : Shelf} {root : Path} {version : UInt32} {capacity : Nat}

/-- The records that are found again are the rows of the shelf, in the same order. -/
theorem rows_eq {rows : List Row} (h : Holds s v sh)
    (hd : sh.rows.Pairwise fun a b => a.time < b.time) (hs : s.root = homeOf root version)
    {s' : Store} (ho : Opened v root version capacity s' w rows) :
    rows = sh.rows := by
  have hp := ho.perm h hs
  refine List.Perm.eq_of_pairwise ?_ ho.sorted (hd.imp Int.le_of_lt) hp
  intro a b ha hb hab hba
  have ht : (sh.rows.map Row.time).Nodup := List.pairwise_map.mpr (hd.imp Int.ne_of_lt)
  exact eq_of_nodup_map ht (hp.mem_iff.mp ha) hb (Int.le_antisymm hab hba)

/-- A store that is opened again where it was left holds the same shelf. -/
theorem reopened {now : Int} (h : Holds s v sh) (hn : sh.Steady now)
    (hs : s.root = homeOf root version) (hf : Volume.refusal root = none) (hc : s.capacity ≠ 0) :
    ∃ s' w, Store.open? v root version s.capacity = (some s', w) ∧ Holds s' w sh ∧
      s'.root = s.root := by
  have hr := hs ▸ h.agrees.roomy
  have hst := hs ▸ h.agrees.standing
  obtain ⟨s', w, ho⟩ := open_of_standing hr hst hf hc
  obtain ⟨rows, hop⟩ := opened hr (fun hn => by rw [hst.node?_staging] at hn; cases hn) ho
  obtain ⟨b, p, hh⟩ := hop.holds
  have hrows := rows_eq h hn.dated.ascending hs hop
  have hroot : s'.root = s.root := hop.root_eq.trans hs.symm
  refine ⟨s', w, ho, ?_, hroot⟩
  have hadd : Shelf.addAll ⟨s.capacity, [], b, p⟩ rows = ⟨s.capacity, sh.rows, b, p⟩ := by
    rw [Shelf.addAll_eq, Shelf.rows_addAll (by rw [hrows]; exact hn.distinct), hrows]
    rfl
  have hset : (Shelf.mk s.capacity sh.rows b p).Settled := h.capacity ▸ hn.settled
  rw [hadd, Shelf.shrink_of_settled hset] at hh
  have hcan : canStage s' w = canStage s v := h.agrees.canStage_eq hh.agrees hroot
  have hb : b = sh.blocked := by
    funext d r
    refine (hh.blocked d r).trans (Eq.trans ?_ (h.blocked d r).symm)
    have hrec := hop.records d r
    rw [← hs] at hrec
    have hfold : w.node? (recordPlace s.root d r) = some .folder ↔
        v.node? (recordPlace s.root d r) = some .folder := by
      refine hrec.trans ⟨fun hx => hx.elim id fun hw => ?_, .inl⟩
      exact h.agrees.standing _ (List.mem_append_left _ hw)
    rw [isBlocked, isBlocked, hcan, hroot]
    simp only [hfold]
  have hp : p = sh.pinned := by
    funext d r
    refine (hh.pinned d r).trans (Eq.trans ?_ (h.pinned d r).symm)
    rw [hcan, hroot]
  rw [hb, hp, h.capacity] at hh
  exact hh

/-- A call, or closing the store and opening it again. -/
inductive Move where
  | call (now : Int) (a : Action)
  | reopen

/-- The calls alone. -/
def callsOf : List Move → List (Int × Action)
  | [] => []
  | .call now a :: moves => (now, a) :: callsOf moves
  | .reopen :: moves => callsOf moves

/-- A run in which the store is opened again where the moves say so. -/
def runMoves (root : Path) (version : UInt32) (capacity : Nat) (slot : Slot) (v : Volume) :
    List Move → List Event × Slot × Volume
  | [] => ([], slot, v)
  | .call now a :: moves =>
    let (answer, slot, v) := slot.act { v with clock := now } a
    let (events, slot', w) := runMoves root version capacity slot v moves
    (⟨a, answer, slot.stats, slot.inventory v⟩ :: events, slot', w)
  | .reopen :: moves =>
    let (slot, v) := Store.open? v root version capacity
    runMoves root version capacity slot v moves

/-- What a run with restarts comes to, told by the shelf, which knows of no restart. -/
theorem Holds.runMoves {now : Int} (h : Holds s v sh) (hn : sh.Steady now)
    (hs : s.root = homeOf root version) (hf : Volume.refusal root = none) (hc : s.capacity ≠ 0)
    (moves : List Move) (ht : (now :: (callsOf moves).map Prod.fst).Pairwise (· < ·)) :
    ∃ s' w now', Disk.runMoves root version s.capacity (some s) v moves =
        ((sh.run (callsOf moves)).1, some s', w) ∧
      Holds s' w (sh.run (callsOf moves)).2 ∧ (sh.run (callsOf moves)).2.Steady now' ∧
      s'.root = s.root ∧ s'.capacity = s.capacity := by
  induction moves generalizing s v sh now with
  | nil => exact ⟨s, v, now, rfl, h, hn, rfl, rfl⟩
  | cons m moves ih =>
    cases m with
    | call t a =>
      rw [callsOf, List.map_cons, List.pairwise_cons] at ht
      have hcl : Holds s { v with clock := t } sh := h.congr_node fun _ => rfl
      obtain ⟨s₁, w₁, hact, hres⟩ := hcl.act a
      have hst := hn.act (ht.1 t List.mem_cons_self) a
      have hcap : s₁.capacity = s.capacity := by
        rw [hres.holds.capacity, h.capacity]
        exact Shelf.capacity_act sh t a
      obtain ⟨s₂, w₂, now', hrun, hh, hst', hroot, hcap'⟩ :=
        ih hres.holds hst (hres.root.trans hs) (hcap ▸ hc) ht.2
      rw [hcap] at hrun
      refine ⟨s₂, w₂, now', ?_, hh, hst', hroot.trans hres.root, hcap'.trans hcap⟩
      simp only [Disk.runMoves, hact, hrun, callsOf, Shelf.run, hres.holds.stats_eq,
        hres.holds.inventory_eq]
    | reopen =>
      obtain ⟨s₁, w₁, ho, hh, hroot⟩ := reopened h hn hs hf hc
      have hcap : s₁.capacity = s.capacity := by rw [hh.capacity, h.capacity]
      obtain ⟨s₂, w₂, now', hrun, hh', hst', hroot', hcap'⟩ :=
        ih hh hn (hroot.trans hs) (hcap ▸ hc) ht
      rw [hcap] at hrun
      refine ⟨s₂, w₂, now', ?_, hh', hst', hroot'.trans hroot, hcap'.trans hcap⟩
      simp only [Disk.runMoves, ho, hrun, callsOf]

/-- On an empty directory a store starts with nothing. -/
theorem Opened.holds_empty {rows : List Row} (h : Opened v root version capacity s w rows)
    (hv : ∀ below, below ≠ [] → v.node? (root.goal ++ below) = none) :
    ∃ blocked pinned, Holds s w ⟨capacity, [], blocked, pinned⟩ := by
  have hrows : rows = [] := by
    rw [List.eq_nil_iff_forall_not_mem]
    intro e he
    have hf := (h.found e).mp he
    rw [recordPlace, goal_homeOf, List.append_assoc, Volume.fileAt?, hv _ (by simp)] at hf
    cases hf
  obtain ⟨b, p, hh⟩ := h.holds
  rw [hrows] at hh
  exact ⟨b, p, hh⟩

/-- A store that was first opened on an empty directory may be opened again after any run, as often
as one likes, if each call has a later time than the one before. It finds the records as they
were, in the same order, and removes none. All calls, before and after, answer as they would have
without. -/
theorem restart_unobservable (hr : Roomy (homeOf root version))
    (hv : ∀ below, below ≠ [] → v.node? (root.goal ++ below) = none)
    (ho : Store.open? v root version capacity = (some s, w))
    (moves : List Move) (ht : ((callsOf moves).map Prod.fst).Pairwise (· < ·)) :
    ∃ s₁ v₁ s₂ v₂,
      runMoves root version capacity (some s) w moves =
        ((Slot.run (some s) w (callsOf moves)).1, some s₁, v₁) ∧
      Store.open? v₁ root version capacity = (some s₂, v₂) ∧
      Slot.inventory (some s₂) v₂ = Slot.inventory (some s₁) v₁ ∧
      Slot.stats (some s₂) = Slot.stats (some s₁) ∧
      (∀ d r, v₂.fileAt? (recordPlace (homeOf root version) d r) =
        v₁.fileAt? (recordPlace (homeOf root version) d r)) ∧
      ∀ later, (Slot.run (some s₂) v₂ later).1 = (Slot.run (some s₁) v₁ later).1 := by
  obtain ⟨rows, hop⟩ := opened hr (fun _ below => by
    rw [goal_staging, goal_homeOf, List.append_assoc, List.append_assoc]
    exact hv _ (by simp)) ho
  obtain ⟨b, p, hh⟩ := hop.holds_empty hv
  have hcap : s.capacity = capacity := hh.capacity
  have hpos : s.capacity ≠ 0 := hcap ▸ hop.positive
  -- Any time before the first call will do to start from.
  have hstart : ∃ now, (now :: (callsOf moves).map Prod.fst).Pairwise (· < ·) := by
    cases hc : (callsOf moves).map Prod.fst with
    | nil => exact ⟨0, List.pairwise_singleton _ _⟩
    | cons t ts =>
      rw [hc] at ht
      refine ⟨t - 1, List.pairwise_cons.mpr ⟨fun t' ht' => ?_, ht⟩⟩
      rcases List.mem_cons.mp ht' with rfl | ht'
      · omega
      · have := (List.pairwise_cons.mp ht).1 t' ht'
        omega
  obtain ⟨now, hnow⟩ := hstart
  have hsteady : (Shelf.mk capacity [] b p).Steady now :=
    ⟨.of_rows_nil rfl now, .inl (Nat.zero_le _), List.nodup_nil⟩
  obtain ⟨s₁, v₁, now₁, hrun, hh₁, hst₁, hroot₁, hcap₁⟩ :=
    hh.runMoves hsteady hop.root_eq hop.followed hpos moves hnow
  obtain ⟨s₀, v₀, hrun₀, -⟩ := hh.run (callsOf moves)
  have hcap₁' := hcap₁.trans hcap
  obtain ⟨s₂, v₂, ho₂, hh₂, hroot₂⟩ := reopened hh₁ hst₁ (hroot₁.trans hop.root_eq) hop.followed
    (hcap₁.symm ▸ hpos)
  rw [hcap₁'] at ho₂
  rw [hcap] at hrun
  have hhome : homeOf root version = s₁.root := (hroot₁.trans hop.root_eq).symm
  refine ⟨s₁, v₁, s₂, v₂, ?_, ho₂, ?_, ?_, ?_, fun later => ?_⟩
  · rw [hrun, hrun₀]
  · rw [hh₂.inventory_eq, hh₁.inventory_eq]
  · rw [hh₂.stats_eq, hh₁.stats_eq]
  · rw [hhome]
    exact hh₁.fileAt?_eq hh₂ hroot₂
  · obtain ⟨_, _, h₂, -⟩ := hh₂.run later
    obtain ⟨_, _, h₁, -⟩ := hh₁.run later
    rw [h₁, h₂]

theorem restart_unobservable_store :
    ∃ s w, Store.open? Volume.empty ⟨["store"]⟩ 1 100 = (some s, w) ∧ ∃ s₁ v₁ s₂ v₂,
      runMoves ⟨["store"]⟩ 1 100 (some s) w
          [.call 1 (.put (.ofKey "a") [1, 2] .normal), .reopen, .call 2 (.get (.ofKey "a"))] =
        ((Slot.run (some s) w [(1, .put (.ofKey "a") [1, 2] .normal), (2, .get (.ofKey "a"))]).1,
          some s₁, v₁) ∧
      Store.open? v₁ ⟨["store"]⟩ 1 100 = (some s₂, v₂) ∧
      ∀ later, (Slot.run (some s₂) v₂ later).1 = (Slot.run (some s₁) v₁ later).1 := by
  obtain ⟨s, w, ho⟩ := open_store
  have hv : ∀ below, below ≠ [] →
      Volume.empty.node? ((⟨["store"]⟩ : Path).goal ++ below) = none :=
    fun below hb => node?_empty (by simp [hb])
  obtain ⟨s₁, v₁, s₂, v₂, hrun, ho₂, -, -, -, hlater⟩ := restart_unobservable roomy_store hv ho
    [.call 1 (.put (.ofKey "a") [1, 2] .normal), .reopen, .call 2 (.get (.ofKey "a"))] (by decide)
  exact ⟨s, w, ho, s₁, v₁, s₂, v₂, hrun, ho₂, hlater⟩

end TierCache.Disk
