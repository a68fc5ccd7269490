import TierCache.Proofs.Cache.Moves
import TierCache.Proofs.Lingering.Twins

/-!
# Sweeping a cache cannot be seen

A sweep finds nothing to evict in any store, and takes nothing but references to dead values out of
the overflow tier. The dead stay dead: a number that no one uses is not given again while the cache
lives. So a cache that was swept and one that was not answer alike from then on.
-/
namespace TierCache

open Disk

variable {α : Type} {p : Design α} {c c' d : Cache α} {key : String}

/-- Someone uses the value of the number: a caller, memory, or the window. -/
def Cache.Lives (c : Cache α) (id : Nat) : Prop :=
  id ∈ c.held ∨ (∃ k e, c.memory.entries.get? k = some e ∧ e.value.id = id) ∨
    ∃ k v, c.overflow.window.get? k = some v ∧ v.id = id

theorem Table.any_values_iff {κ β : Type} [DecidableEq κ] {t : Table κ β} {f : β → Bool} :
    t.values.any f = true ↔ ∃ k b, t.get? k = some b ∧ f b = true := by
  rw [List.any_eq_true]
  constructor
  · rintro ⟨b, hb, hf⟩
    obtain ⟨⟨k, b⟩, hm, rfl⟩ := List.mem_map.mp hb
    exact ⟨k, b, get?_eq_some_iff.mpr hm, hf⟩
  · rintro ⟨k, b, hb, hf⟩
    exact ⟨b, List.mem_map.mpr ⟨(k, b), get?_eq_some_iff.mp hb, rfl⟩, hf⟩

theorem Cache.isAlive_iff {v : Shared α} :
    c.overflow.isAlive c.inUse v = true ↔ c.Lives v.id := by
  simp only [Lingering.isAlive, inUse, Lives, Bool.or_eq_true, Table.any_values_iff,
    List.contains_iff_mem, decide_eq_true_eq, or_assoc]

/-- The same cache, with another overflow tier. -/
def Cache.withOverflow (c : Cache α) (o : Lingering α) : Cache α := { c with overflow := o }

/-- Another overflow tier would do as well: whatever is in use counts, and so will all numbers that
are still to be given. -/
structure Cache.Spare (counts : Nat → Prop) (c : Cache α) (o : Lingering α) : Prop where
  overflow : Lingering.Twins counts c.overflow o
  resident : c.memory.All fun _ v => counts v.id
  window : c.overflow.AllInWindow fun _ v => counts v.id
  held : ∀ id ∈ c.held, counts id
  fresh : ∀ id, c.nextId ≤ id → counts id

namespace Cache

/-- Caches that differ in nothing but in the dead values that their overflow tiers track. -/
def Twins (counts : Nat → Prop) (c d : Cache α) : Prop :=
  ∃ o, d = c.withOverflow o ∧ c.Spare counts o

namespace Spare

variable {counts : Nat → Prop} {o : Lingering α}

theorem counts_of_alive (h : c.Spare counts o) (v : Shared α)
    (hv : c.overflow.isAlive c.inUse v = true) : counts v.id := by
  rcases isAlive_iff.mp hv with hheld | ⟨k, e, he, hid⟩ | ⟨k, w, hw, hid⟩
  · exact h.held v.id hheld
  · exact hid ▸ h.resident k e he
  · exact hid ▸ h.window k w hw

theorem putResident (h : c.Spare counts o) {v : Shared α} (hv : counts v.id) (key : String)
    (cost : Nat) : Alike (Twins counts) (c.putResident key v cost)
      ((c.withOverflow o).putResident key v cost) := by
  simp only [Cache.putResident, withOverflow]
  cases hput : c.memory.put key v cost with
  | error fault => rfl
  | ok out =>
    obtain ⟨hall, hremoved⟩ := h.resident.put (P := fun _ v => counts v.id) hv hput
    exact ⟨_, rfl, h.overflow.receive out.2, hall, h.window.receive hremoved, h.held, h.fresh⟩

theorem share (h : c.Spare counts o) (value : α) : (c.share value).2.Spare counts o :=
  ⟨h.overflow, h.resident, h.window, h.held, fun id hid => h.fresh id (Nat.le_of_succ_le hid)⟩

/-- Only the tiers in memory and the numbers matter. -/
theorem congr (h : c.Spare counts o) (hm : c'.memory = c.memory) (ho : c'.overflow = c.overflow)
    (hh : c'.held = c.held) (hn : c'.nextId = c.nextId) : c'.Spare counts o :=
  ⟨ho ▸ h.overflow, hm ▸ h.resident, ho ▸ h.window, hh ▸ h.held, hn ▸ h.fresh⟩

end Spare

variable {counts : Nat → Prop} {o : Lingering α}

/-- Twins with the same result, which counts. -/
def FoundAlike (counts : Nat → Prop) (x y : Option (Shared α) × Cache α) : Prop :=
  x.1 = y.1 ∧ (∀ v ∈ x.1, counts v.id) ∧ Twins counts x.2 y.2

theorem Twins.setStats (h : Twins counts c d) (f : TierCounts → TierCounts) :
    Twins counts { c with stats := f c.stats } { d with stats := f d.stats } := by
  obtain ⟨o, rfl, h⟩ := h
  exact ⟨o, rfl, h.congr rfl rfl rfl rfl⟩

namespace Spare

theorem getRecord (h : c.Spare counts o) (key : String) (f : Family) :
    Alike (FoundAlike counts) (c.getRecord key f) ((c.withOverflow o).getRecord key f) := by
  simp only [Cache.getRecord, withOverflow]
  rcases (c.archive.get f).get c.volume (.ofKey key) with ⟨_ | bytes, slot, w⟩
  · exact ⟨rfl, by rintro v ⟨⟩, o, rfl, h.congr rfl rfl rfl rfl⟩
  · simp only
    cases c.kind.decode bytes with
    | error e => exact ⟨rfl, by rintro v ⟨⟩, o, rfl, h.congr rfl rfl rfl rfl⟩
    | ok value =>
      have hread : Spare counts { c with archive := c.archive.set f slot, volume := w } o :=
        h.congr rfl rfl rfl rfl
      refine ((hread.share value).putResident (h.fresh _ (Nat.le_refl _)) key _).bind
        fun c₁ d₁ ht => ⟨rfl, ?_, ht.setStats fun t => { t with diskHits := t.diskHits + 1 }⟩
      rintro v ⟨⟩
      exact h.fresh _ (Nat.le_refl _)

theorem find (h : c.Spare counts o) (key : String) (f : Family) :
    Alike (FoundAlike counts) (c.find key f) ((c.withOverflow o).find key f) := by
  simp only [Cache.find, withOverflow]
  have hlook : Spare counts { c with memory := (c.memory.get (Key.normalize key)).2 } o :=
    ⟨h.overflow, h.resident.get _, h.window, h.held, h.fresh⟩
  cases hv : (c.memory.get (Key.normalize key)).1 with
  | some v =>
    refine ⟨rfl, ?_, o, rfl, hlook.congr rfl rfl rfl rfl⟩
    rintro v ⟨⟩
    exact h.resident.of_get hv
  | none =>
    obtain ⟨hfound, htwins⟩ := hlook.overflow.get hlook.counts_of_alive (Key.normalize key)
    have hover : Spare counts { c with
        memory := (c.memory.get (Key.normalize key)).2
        overflow := (c.overflow.get (Cache.inUse { c with
          memory := (c.memory.get (Key.normalize key)).2 }) (Key.normalize key)).2 }
        (o.get (Cache.inUse { c with
          memory := (c.memory.get (Key.normalize key)).2 }) (Key.normalize key)).2 :=
      ⟨htwins, hlook.resident, h.window.get _ _, h.held, h.fresh⟩
    have huse : Cache.inUse { c with
        memory := (c.memory.get (Key.normalize key)).2
        overflow := o } =
      Cache.inUse { c with memory := (c.memory.get (Key.normalize key)).2 } := rfl
    simp only [huse, hfound]
    cases hv' : (c.overflow.get (Cache.inUse { c with
        memory := (c.memory.get (Key.normalize key)).2 }) (Key.normalize key)).1 with
    | none => exact hover.getRecord _ f
    | some v =>
      have hcounts := hlook.counts_of_alive v (Lingering.isAlive_of_get hv')
      refine (hover.putResident hcounts _ _).bind
        fun c₁ d₁ ht =>
          ⟨rfl, ?_, ht.setStats fun t => { t with overflowHits := t.overflowHits + 1 }⟩
      rintro v ⟨⟩
      exact hcounts

theorem writeRecord (h : c.Spare counts o) (key : String) (x : α) (f : Family) (r : Retention) :
    (c.withOverflow o).writeRecord key x f r = (c.writeRecord key x f r).withOverflow o ∧
      (c.writeRecord key x f r).Spare counts o := by
  obtain ⟨-, hm, ho, hn⟩ := c.tiers_writeRecord key x f r
  refine ⟨?_, h.congr hm ho (c.held_writeRecord key x f r) hn⟩
  simp only [Cache.writeRecord, withOverflow]
  split
  · rfl
  · split <;> rfl

theorem putCosting (h : c.Spare counts o) {v : Shared α} (hv : counts v.id) (key : String)
    (cost : Nat) (placement : Placement) : Alike (Twins counts)
      (c.putCosting key v cost placement) ((c.withOverflow o).putCosting key v cost placement) := by
  cases placement with
  | memory => exact h.putResident hv (Key.normalize key) cost
  | disk f r =>
    obtain ⟨heq, hw⟩ := h.writeRecord (Key.normalize key) v.value f r
    simp only [Cache.putCosting, heq]
    exact hw.putResident hv (Key.normalize key) cost

theorem give (h : c.Spare counts o) {found : Option (Shared α)} (hf : ∀ v ∈ found, counts v.id) :
    Twins counts (c.give found) ((c.withOverflow o).give found) := by
  cases found with
  | none => exact ⟨o, rfl, h⟩
  | some v =>
    exact ⟨o, rfl, h.overflow, h.resident, h.window,
      List.forall_mem_cons.mpr ⟨hf v rfl, h.held⟩, h.fresh⟩

end Spare

/-- Twins for some numbers that count. -/
def Twinned (c d : Cache α) : Prop := ∃ counts, Twins counts c d

/-- A cache in order is its own twin. -/
theorem Orderly.twinned (h : c.Orderly) : Twinned c c :=
  ⟨fun _ => True, c.overflow, rfl, .refl h.tidy.lingering, fun _ _ _ => trivial,
    fun _ _ _ => trivial, fun _ _ => trivial, fun _ _ => trivial⟩

/-- The same answer, and twins again. -/
def AnswerAlike (x y : Reply α × Cache α) : Prop := x.1 = y.1 ∧ Twinned x.2 y.2

/-- A value is put by a caller that holds it. -/
theorem Spare.offered (h : c.Spare counts o) (key : String) (v : Shared α) (cost : Nat)
    (placement : Placement) : Alike AnswerAlike
      (if v.id ∈ c.held then (c.putCosting key v cost placement).map (.done, ·) else .ok (.done, c))
      (if v.id ∈ c.held then ((c.withOverflow o).putCosting key v cost placement).map (.done, ·)
        else .ok (.done, c.withOverflow o)) := by
  split
  · rename_i hid
    exact (h.putCosting (h.held v.id hid) key cost placement).map fun c₁ d₁ ht => ⟨rfl, counts, ht⟩
  · exact ⟨rfl, counts, o, rfl, h⟩

/-- Twins answer alike, and are twins again. -/
theorem Twins.move (h : Twins counts c d) (m : Move α) :
    Alike AnswerAlike (c.move p m) (d.move p m) := by
  obtain ⟨o, rfl, h⟩ := h
  cases m with
  | make value =>
    refine ⟨rfl, counts, o, rfl, h.overflow, h.resident, h.window, ?_, (h.share value).fresh⟩
    exact List.forall_mem_cons.mpr ⟨h.fresh _ (Nat.le_refl _), h.held⟩
  | hold id =>
    refine ⟨rfl, counts, ?_⟩
    show Twins counts (if id ∈ c.held then c.hold id else c)
      (if id ∈ c.held then (c.withOverflow o).hold id else c.withOverflow o)
    split
    · rename_i hid
      exact ⟨o, rfl, h.overflow, h.resident, h.window,
        List.forall_mem_cons.mpr ⟨h.held id hid, h.held⟩, h.fresh⟩
    · exact ⟨o, rfl, h⟩
  | release id =>
    exact ⟨rfl, counts, o, rfl, h.overflow, h.resident, h.window,
      fun i hi => h.held i (List.mem_of_mem_erase hi), h.fresh⟩
  | put key v placement => exact h.offered key v _ placement
  | putCosting key v cost placement => exact h.offered key v cost placement
  | find key f =>
    refine (h.find key f).map ?_
    rintro ⟨found, c₁⟩ ⟨_, _⟩ ⟨rfl, hfound, o₁, rfl, h₁⟩
    exact ⟨rfl, counts, h₁.give hfound⟩
  | remove key =>
    exact ⟨rfl, counts, _, rfl, h.overflow.remove _, h.resident.remove _, h.window.remove _,
      h.held, h.fresh⟩
  | removeIf q =>
    exact ⟨rfl, counts, _, rfl, h.overflow.keepIf _, h.resident.keepIf _,
      h.window.of_window Lingering.window_of_keepIf, h.held, h.fresh⟩
  | clear =>
    exact ⟨rfl, counts, _, rfl, h.overflow.clear, Resident.all_of_empty rfl,
      Lingering.allInWindow_of_empty rfl, h.held, h.fresh⟩
  | sweep =>
    exact ⟨rfl, counts, _, rfl, h.overflow.forgetDead _, h.resident, h.window, h.held, h.fresh⟩
  | dropWindow =>
    exact ⟨rfl, counts, _, rfl, h.overflow.dropWindow, h.resident,
      Lingering.allInWindow_of_empty rfl, h.held, h.fresh⟩
  | clearLingering =>
    exact ⟨rfl, counts, _, rfl, h.overflow.clear, h.resident,
      Lingering.allInWindow_of_empty rfl, h.held, h.fresh⟩
  | clearResident =>
    exact ⟨rfl, counts, _, rfl, h.overflow, Resident.all_of_empty rfl, h.window, h.held, h.fresh⟩
  | resizeMemory capacity =>
    obtain ⟨hall, hremoved⟩ := h.resident.resize capacity
    exact ⟨rfl, counts, _, rfl, h.overflow.receive _, hall, h.window.receive hremoved, h.held,
      h.fresh⟩
  | meddle v => exact ⟨rfl, counts, o, rfl, h.congr rfl rfl rfl rfl⟩
  | reopen =>
    simp only [Cache.move, withOverflow]
    cases hbuild : p.build c.volume with
    | error fault => rfl
    | ok c₁ => exact ⟨rfl, (Orderly.built hbuild).twinned⟩

/-- All that there is to see after a move: the answer, and all of the cache but what its overflow
tier tracks. -/
structure Sight (α : Type) where
  reply : Reply α
  memory : Resident (Shared α)
  window : Table String (Shared α)
  archive : Archive
  volume : Volume
  stats : TierCounts
  held : List Nat

def sight (r : Reply α) (c : Cache α) : Sight α :=
  ⟨r, c.memory, c.overflow.window, c.archive, c.volume, c.stats, c.held⟩

theorem Twinned.sight (h : Twinned c d) (r : Reply α) : c.sight r = d.sight r := by
  obtain ⟨counts, o, rfl, h⟩ := h
  simp only [Cache.sight, withOverflow, h.overflow.window_eq]

/-- What is seen move by move, until the first fault. -/
def watch (p : Design α) (c : Cache α) : List (Move α) → List (Except Fault (Sight α))
  | [] => []
  | m :: moves =>
    match c.move p m with
    | .error fault => [.error fault]
    | .ok (r, c) => .ok (c.sight r) :: c.watch p moves

theorem Twinned.watch (h : Twinned c d) (moves : List (Move α)) :
    c.watch p moves = d.watch p moves := by
  induction moves generalizing c d with
  | nil => rfl
  | cons m moves ih =>
    obtain ⟨counts, h⟩ := h
    have hm := h.move (p := p) m
    rw [Cache.watch, Cache.watch]
    cases hc : c.move p m with
    | error fault =>
      cases hd : d.move p m with
      | error fault' =>
        rw [hc, hd] at hm
        cases hm
        rfl
      | ok y =>
        rw [hc, hd] at hm
        exact hm.elim
    | ok x =>
      cases hd : d.move p m with
      | error fault' =>
        rw [hc, hd] at hm
        exact hm.elim
      | ok y =>
        rw [hc, hd] at hm
        obtain ⟨hreply, ht⟩ := hm
        simp only [ih ht, hreply, ht.sight]

end Cache

namespace Archive

/-- There is nothing to evict. -/
theorem Orderly.shrink_eq {a : Archive} (h : a.Orderly) (v : Volume) :
    (a.forEach v fun slot v => ((), slot.shrink v)).2 = (a, v) := by
  have rests : ∀ f v, (a.get f).shrink v = (a.get f, v) := by
    intro f v
    cases hs : a.get f with
    | none => rfl
    | some s => simp only [Slot.shrink, (h.atRest f s hs).shrink_eq]
  have hg := rests .general
  have hd := rests .distinct
  have hp := rests .permanent
  simp only [get] at hg hd hp
  simp only [forEach, hg, hd, hp]

end Archive

namespace Cache

theorem Orderly.sweep_eq (h : c.Orderly) :
    c.sweep.2 = c.withOverflow (c.overflow.forgetDead c.inUse).2 := by
  have hs := h.stores.shrink_eq c.volume
  simp only [Cache.sweep, withOverflow]
  rw [show (c.archive.forEach c.volume fun slot v => ((), slot.shrink v)).2.1 = c.archive from
    congrArg Prod.fst hs,
    show (c.archive.forEach c.volume fun slot v => ((), slot.shrink v)).2.2 = c.volume from
    congrArg Prod.snd hs]

/-- What is alive or not given yet is tracked as before. -/
theorem Orderly.twins_sweep (h : c.Orderly) :
    Twins (fun id => c.Lives id ∨ c.nextId ≤ id) c c.sweep.2 := by
  refine ⟨_, h.sweep_eq, ⟨h.tidy.lingering, h.tidy.lingering.forgetDead _, rfl, fun k v hv => ?_⟩,
    fun k e he => .inl (.inr (.inl ⟨k, e, he, rfl⟩)),
    fun k v hv => .inl (.inr (.inr ⟨k, v, hv, rfl⟩)), fun id hid => .inl (.inl hid),
    fun id hid => .inr hid⟩
  rw [Lingering.forgetDead, Table.get?_filter, Option.filter_eq_some_iff, isAlive_iff]
  refine and_iff_left_of_imp fun hk => hv.resolve_right ?_
  exact Nat.not_le_of_lt (h.tidy.tracked k v hk)

/-- A sweep evicts nothing and leaves memory alone. It counts the keys whose value is dead, and
whatever is done from then on looks as it would have looked without it. -/
theorem sweep_unseen (h : c.Reached p) :
    (c.sweep.2.memory = c.memory ∧ c.sweep.2.archive = c.archive ∧
      c.sweep.2.volume = c.volume) ∧
    (∃ keys : List String, c.sweep.1 = keys.length ∧ keys.Nodup ∧
      ∀ k, k ∈ keys ↔ ∃ v, c.overflow.refs.get? k = some v ∧ ¬ c.Lives v.id) ∧
    ∀ moves, c.sweep.2.watch p moves = c.watch p moves := by
  have ho := h.orderly
  have ht : Twinned c c.sweep.2 := ⟨_, ho.twins_sweep⟩
  refine ⟨?_, ?_, fun moves => (ht.watch moves).symm⟩
  · rw [ho.sweep_eq]
    exact ⟨rfl, rfl, rfl⟩
  · refine ⟨(c.overflow.refs.pairs.filter fun e => !c.overflow.isAlive c.inUse e.2).map Prod.fst,
      ?_, c.overflow.refs.nodup.sublist (List.filter_sublist.map _), fun k => ?_⟩
    · rw [List.length_map]
      exact c.overflow.fst_forgetDead
    · simp only [List.mem_map, List.mem_filter, Bool.not_eq_true', ← Bool.not_eq_true, isAlive_iff]
      constructor
      · rintro ⟨⟨k, v⟩, ⟨hm, hdead⟩, rfl⟩
        exact ⟨v, Table.get?_eq_some_iff.mpr hm, hdead⟩
      · rintro ⟨v, hv, hdead⟩
        exact ⟨(k, v), ⟨Table.get?_eq_some_iff.mp hv, hdead⟩, rfl⟩

/-- Room for one byte in memory, and no window. -/
def narrowDesign : Design (List UInt8) := { storeDesign with
  memoryCapacity := 1
  overflowWindow := 0 }

/-- The first of two values is dropped from memory while it is held, and then released. -/
def outlived : List (Move (List UInt8)) := [.make [1], .put "a" ⟨0, [1]⟩ (.disk .general .normal),
  .make [2], .put "b" ⟨1, [2]⟩ .memory, .release 0]

theorem sweep_unseen_outlived : ∃ c : Cache (List UInt8), c.Reached narrowDesign ∧
    c.sweep.1 = 1 ∧ c.sweep.2.watch narrowDesign [.find "a" .general] =
      c.watch narrowDesign [.find "a" .general] := by
  obtain ⟨c, h, hcount⟩ := exists_reached narrowDesign .empty outlived (fun c => c.sweep.1)
    (b := 1) (by decide +kernel)
  exact ⟨c, h, hcount, (sweep_unseen h).2.2 _⟩

end Cache

end TierCache
