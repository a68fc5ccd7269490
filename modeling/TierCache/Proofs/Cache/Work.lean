import TierCache.Proofs.Cache.Provenance

/-!
# What a cache does to its stores

Whatever a cache is asked to do, its stores only see calls of theirs, one after the other, while
the time of the volume goes on. So what every call of a store keeps, the whole cache keeps.
-/
namespace TierCache

open Disk

/-- What the stores of an archive come to by calls of theirs. -/
inductive Archive.Worked (a : Archive) (v : Volume) : Archive → Volume → Prop where
  | refl : Worked a v a v
  | act {b : Archive} {w : Volume} (h : Worked a v b w) (f : Family) (x : Action) :
      Worked a v (b.set f (Slot.act (b.get f) w x).2.1) (Slot.act (b.get f) w x).2.2
  | tick {b : Archive} {w : Volume} (h : Worked a v b w) (now : Int) :
      Worked a v b { w with clock := now }

namespace Archive.Worked

variable {a b : Archive} {v w : Volume}

theorem trans {b' : Archive} {w' : Volume} (h : Worked a v b w) (h' : Worked b w b' w') :
    Worked a v b' w' := by
  induction h' with
  | refl => exact h
  | act _ f x ih => exact ih.act f x
  | tick _ now ih => exact ih.tick now

theorem forEach (h : Worked a v b w) (x : Action) {β : Type}
    {act : Slot → Volume → β × Slot × Volume}
    (hact : ∀ slot v, (act slot v).2 = (Slot.act slot v x).2) :
    Worked a v (b.forEach w act).2.1 (b.forEach w act).2.2 := by
  have step : ∀ (f : Family) {b : Archive} {w : Volume}, Worked a v b w →
      Worked a v (b.set f (act (b.get f) w).2.1) (act (b.get f) w).2.2 := by
    intro f b w h
    rw [hact]
    exact h.act f x
  exact step .permanent (step .distinct (step .general h))

/-- The stores go on holding what their folders show. -/
theorem stocked {sites : Family → Option Site} (hap : Apart sites) (h : Worked a v b w)
    (hs : Stocked sites (fun _ _ _ => True) a v) : Stocked sites (fun _ _ _ => True) b w := by
  induction h with
  | refl => exact hs
  | act _ f x ih => exact ih.act hap f x (fun _ _ _ _ _ => trivial) fun _ _ _ _ _ => trivial
  | tick _ now ih => exact ih.setClock now

theorem free_eq (h : Worked a v b w) : w.free = v.free := by
  induction h with
  | refl => rfl
  | act _ f x ih => exact (Slot.free_act _ _ x).trans ih
  | tick _ now ih => exact ih

/-- Outside the roots of the stores nothing happens. -/
theorem node?_eq {sites : Family → Option Site} (hap : Apart sites) (h : Worked a v b w)
    (hs : Stocked sites (fun _ _ _ => True) a v) {q : Place}
    (hq : ∀ f other, sites f = some other → ¬ other.root.goal <+: q) : w.node? q = v.node? q := by
  induction h with
  | refl => rfl
  | @act b w h f x ih =>
    cases hget : b.get f with
    | none => rwa [Slot.act_none]
    | some s =>
      obtain ⟨shelf, hshelf, -⟩ := (h.stocked hap hs).shelved
      obtain ⟨other, hother, hk⟩ := hshelf.keeps f s hget
      obtain ⟨s', w', hact, hres⟩ := hk.holds.act x
      rw [hact]
      refine (hres.frame.outside q fun hp => hq f other hother ?_).trans ih
      rw [hk.root] at hp
      exact other.goal_home.trans hp
  | tick _ now ih => exact ih

end Archive.Worked

/-- A store with no record, in its index or in its home. -/
structure Disk.Bare (s : Store) (v : Volume) : Prop where
  index : ∀ d, s.contains d = false
  home : ∀ d r, v.fileAt? (recordPlace s.root d r) = none

namespace Archive.Stocked

variable {sites : Family → Option Site} {good : Family → Digest → List UInt8 → Prop}
variable {a : Archive} {v : Volume} {f : Family} {s : Store}

theorem bare (h : Stocked sites good a v) (hg : ∀ d bytes, ¬ good f d bytes)
    (hs : a.get f = some s) : Bare s v := by
  obtain ⟨site, -, hh⟩ := h.held f s hs
  obtain ⟨sh, hholds, hrows⟩ := hh.shelf
  have hnone : ∀ e, e ∉ sh.rows := fun e he => hg _ _ (hrows e he)
  refine ⟨fun d => ?_, fun d r => ?_⟩
  · rw [hholds.contains_eq, Shelf.find?_eq_none_iff.mpr fun e he => absurd he (hnone e)]
    rfl
  · rw [Option.eq_none_iff_forall_ne_some]
    exact fun file hf => hnone ⟨d, r, file.1, file.2⟩ (hholds.mem_rows.mpr hf)

/-- Where no record is good, none is read. -/
theorem get_none (h : Stocked sites good a v) (hg : ∀ d bytes, ¬ good f d bytes) (d : Digest) :
    ((a.get f).get v d).1 = none := by
  rw [Option.eq_none_iff_forall_ne_some]
  exact fun bytes hb => hg d bytes (h.good_of_get hb)

theorem wiped (hap : Apart sites) (h : Stocked sites good a v) :
    Stocked sites (fun _ _ _ => False) (a.forEach v fun slot v => slot.wipe v).2.1
      (a.forEach v fun slot v => slot.wipe v).2.2 :=
  h.forEach hap .wipe (fun _ _ => rfl) fun _ _ _ _ _ he => absurd he List.not_mem_nil

end Archive.Stocked

namespace Cache

variable {α : Type} {c₀ c c' : Cache α} {key : String} {f : Family}

/-- What a cache comes to while its stores are worked. -/
structure Worked (c₀ c : Cache α) : Prop where
  kind_eq : c.kind = c₀.kind
  archive : c₀.archive.Worked c₀.volume c.archive c.volume

namespace Worked

theorem refl : c₀.Worked c₀ := ⟨rfl, .refl⟩

theorem trans (h : c₀.Worked c) (h' : c.Worked c') : c₀.Worked c' :=
  ⟨h'.kind_eq.trans h.kind_eq, h.archive.trans h'.archive⟩

/-- The tiers in memory may change. -/
theorem of_tiers (h : c₀.Worked c) (hk : c'.kind = c.kind) (ha : c'.archive = c.archive)
    (hv : c'.volume = c.volume) : c₀.Worked c' :=
  ⟨hk.trans h.kind_eq, by rw [ha, hv]; exact h.archive⟩

theorem act (h : c₀.Worked c) (f : Family) (x : Action) : c₀.Worked { c with
    archive := c.archive.set f (Slot.act (c.archive.get f) c.volume x).2.1
    volume := (Slot.act (c.archive.get f) c.volume x).2.2 } :=
  ⟨h.kind_eq, h.archive.act f x⟩

theorem putResident (h : c₀.Worked c) {v : Shared α} {cost : Nat}
    (hc : c.putResident key v cost = .ok c') : c₀.Worked c' := by
  simp only [Cache.putResident] at hc
  obtain ⟨r, -, hc⟩ := bind_eq_ok_iff.mp hc
  cases hc
  exact h.of_tiers rfl rfl rfl

theorem getRecord (h : c₀.Worked c) {found : Option (Shared α)}
    (hc : c.getRecord key f = .ok (found, c')) : c₀.Worked c' := by
  have hread := h.act f (.get (.ofKey key))
  simp only [Cache.getRecord] at hc
  split at hc
  · cases hc
    exact hread.of_tiers rfl rfl rfl
  · split at hc
    · simp only [Cache.share, bringIn] at hc
      obtain ⟨c₁, hput, hc⟩ := bind_eq_ok_iff.mp hc
      cases hc
      have hshared : c₀.Worked { c with
          archive := c.archive.set f (Slot.act (c.archive.get f) c.volume (.get (.ofKey key))).2.1
          volume := (Slot.act (c.archive.get f) c.volume (.get (.ofKey key))).2.2
          nextId := c.nextId + 1 } := hread.of_tiers rfl rfl rfl
      exact (hshared.putResident hput).of_tiers rfl rfl rfl
    · cases hc
      exact (hread.act f (.remove (.ofKey key))).of_tiers rfl rfl rfl

theorem find (h : c₀.Worked c) {found : Option (Shared α)}
    (hc : c.find key f = .ok (found, c')) : c₀.Worked c' := by
  simp only [Cache.find] at hc
  split at hc
  · cases hc
    exact h.of_tiers rfl rfl rfl
  · have hover : c₀.Worked { c with
        memory := (c.memory.get (Key.normalize key)).2
        overflow := (c.overflow.get (Cache.inUse { c with
          memory := (c.memory.get (Key.normalize key)).2 }) (Key.normalize key)).2 } :=
      h.of_tiers rfl rfl rfl
    split at hc
    · simp only [bringIn] at hc
      obtain ⟨c₁, hput, hc⟩ := bind_eq_ok_iff.mp hc
      cases hc
      exact (hover.putResident hput).of_tiers rfl rfl rfl
    · exact hover.getRecord hc

theorem writeRecord (h : c₀.Worked c) (key : String) (x : α) (f : Family) (r : Retention) :
    c₀.Worked (c.writeRecord key x f r) := by
  rw [Cache.writeRecord]
  split
  · exact h
  · rename_i bytes _
    have hw := h.act f (.put (.ofKey key) bytes r)
    simp only
    split
    · exact hw.of_tiers rfl rfl rfl
    · exact hw

theorem put (h : c₀.Worked c) {v : Shared α} {placement : Placement}
    (hc : c.put key v placement = .ok c') : c₀.Worked c' := by
  cases placement with
  | memory => exact h.putResident hc
  | disk f r => exact (h.writeRecord _ v.value f r).putResident hc

/-- A call of each store, whatever it leaves in memory. -/
theorem forEach (h : c₀.Worked c) (x : Action) {β : Type}
    {act : Slot → Volume → β × Slot × Volume}
    (hact : ∀ slot v, (act slot v).2 = (Slot.act slot v x).2)
    (memory : Resident (Shared α)) (overflow : Lingering α) : c₀.Worked { c with
      memory
      overflow
      archive := (c.archive.forEach c.volume act).2.1
      volume := (c.archive.forEach c.volume act).2.2 } :=
  ⟨h.kind_eq, h.archive.forEach x hact⟩

theorem remove (h : c₀.Worked c) (key : String) : c₀.Worked (c.remove key) :=
  h.forEach (.remove (.ofKey (Key.normalize key))) (fun _ _ => rfl) _ _

theorem removeIf (h : c₀.Worked c) (p : String → Bool) : c₀.Worked (c.removeIf p).2 :=
  h.forEach (.removeIf _) (fun _ _ => rfl) _ _

theorem clear (h : c₀.Worked c) : c₀.Worked c.clear := h.forEach .wipe (fun _ _ => rfl) _ _

theorem sweep (h : c₀.Worked c) : c₀.Worked c.sweep.2 := h.forEach .shrink (fun _ _ => rfl) _ _

theorem setTime (h : c₀.Worked c) (now : Int) :
    c₀.Worked { c with volume := { c.volume with clock := now } } :=
  ⟨h.kind_eq, h.archive.tick now⟩

end Worked

end Cache

end TierCache
