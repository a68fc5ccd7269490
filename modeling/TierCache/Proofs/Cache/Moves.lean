import TierCache.Proofs.Cache.Coherence
import TierCache.Proofs.Cache.Work
import TierCache.Proofs.Disk.Trimming
import TierCache.Proofs.Lingering.Upkeep
import TierCache.Proofs.Resident.Handover

/-!
# Caches in use

Callers make values, hold and release them, put those that they hold and hold those that they
find. Meanwhile anything may happen to the volume. Whatever is done, the parts of a cache stay in
order: memory is a ranking within its capacity, the overflow tier tracks its window, every store
has nothing to evict and a home of its own, and no number is known that was not given.
-/
namespace TierCache

open Disk

variable {α : Type}

namespace Cache

/-- What callers do with a cache and with its values. -/
inductive Move (α : Type) where
  | make (value : α)
  | hold (id : Nat)
  | release (id : Nat)
  | put (key : String) (v : Shared α) (placement : Placement)
  | putCosting (key : String) (v : Shared α) (cost : Nat) (placement : Placement)
  | find (key : String) (family : Family)
  | remove (key : String)
  | removeIf (p : String → Bool)
  | clear
  | sweep
  | dropWindow
  | clearLingering
  | clearResident
  | resizeMemory (capacity : Nat)
  /-- Something else changes the volume, in any way. -/
  | meddle (v : Volume)
  /-- All is given up, and the cache is made again over its directory. -/
  | reopen

/-- What a caller is told. How many dead values a sweep found is not among it. -/
inductive Reply (α : Type) where
  | done
  | made (v : Shared α)
  | found (v : Option (Shared α))
  | removed (records : Nat)

/-- The caller holds what it is given. -/
def give (c : Cache α) : Option (Shared α) → Cache α
  | none => c
  | some v => c.hold v.id

/-- A value that is not held can neither be put nor be held once more. -/
def move (p : Design α) (c : Cache α) : Move α → Except Fault (Reply α × Cache α)
  | .make value => .ok (.made (c.share value).1, (c.share value).2.hold (c.share value).1.id)
  | .hold id => .ok (.done, if id ∈ c.held then c.hold id else c)
  | .release id => .ok (.done, c.release id)
  | .put key v placement =>
    if v.id ∈ c.held then (c.put key v placement).map (.done, ·) else .ok (.done, c)
  | .putCosting key v cost placement =>
    if v.id ∈ c.held then (c.putCosting key v cost placement).map (.done, ·) else .ok (.done, c)
  | .find key family => (c.find key family).map fun r => (.found r.1, r.2.give r.1)
  | .remove key => .ok (.done, c.remove key)
  | .removeIf q => .ok (.removed (c.removeIf q).1, (c.removeIf q).2)
  | .clear => .ok (.done, c.clear)
  | .sweep => .ok (.done, c.sweep.2)
  | .dropWindow => .ok (.done, c.dropWindow)
  | .clearLingering => .ok (.done, c.clearLingering)
  | .clearResident => .ok (.done, c.clearResident)
  | .resizeMemory capacity => .ok (.done, c.resizeMemory capacity)
  | .meddle v => .ok (.done, { c with volume := v })
  | .reopen => (p.build c.volume).map (.done, ·)

/-- One move after the other. -/
def run (p : Design α) (c : Cache α) : List (Move α) → Except Fault (Cache α)
  | [] => .ok c
  | m :: moves => do
    let (_, c) ← c.move p m
    c.run p moves

/-- What a cache over some directory comes to. -/
inductive Reached (p : Design α) : Cache α → Prop where
  | built {v : Volume} {c : Cache α} (h : p.build v = .ok c) : Reached p c
  | moved {c c' : Cache α} {m : Move α} {r : Reply α} (h : Reached p c)
    (hm : c.move p m = .ok (r, c')) : Reached p c'

end Cache

theorem Cache.Reached.run {p : Design α} {c c' : Cache α} (h : c.Reached p) {moves : List (Move α)}
    (hr : c.run p moves = .ok c') : c'.Reached p := by
  induction moves generalizing c with
  | nil =>
    cases hr
    exact h
  | cons m moves ih =>
    obtain ⟨⟨r, c₁⟩, hm, hr⟩ := bind_eq_ok_iff.mp hr
    exact ih (h.moved hm) hr

/-- What a run comes to can be found out by making it. -/
theorem Cache.exists_run {β : Type} (p : Design α) (v : Volume) (moves : List (Move α))
    (f : Cache α → β) {b : β}
    (h : ((p.build v >>= fun c => c.run p moves).map f).toOption = some b) :
    ∃ c₀ c : Cache α, p.build v = .ok c₀ ∧ c₀.run p moves = .ok c ∧ f c = b := by
  cases hc : p.build v >>= fun c => c.run p moves with
  | error fault =>
    rw [hc] at h
    cases h
  | ok c =>
    rw [hc] at h
    obtain ⟨c₀, hbuild, hrun⟩ := bind_eq_ok_iff.mp hc
    exact ⟨c₀, c, hbuild, hrun, Option.some.inj h⟩

theorem Cache.exists_reached {β : Type} (p : Design α) (v : Volume) (moves : List (Move α))
    (f : Cache α → β) {b : β}
    (h : ((p.build v >>= fun c => c.run p moves).map f).toOption = some b) :
    ∃ c : Cache α, c.Reached p ∧ f c = b := by
  obtain ⟨c₀, c, hbuild, hrun, hf⟩ := exists_run p v moves f h
  exact ⟨c, (Reached.built hbuild).run hrun, hf⟩

/-- Memory and the overflow tier in order, with no number that was not given. -/
structure Tidy (next : Nat) (m : Resident (Shared α)) (o : Lingering α) : Prop where
  ranked : ∃ l : Ranking (Shared α), l.Mirrors m
  lingering : o.Orderly
  resident : m.All fun _ v => v.id < next
  tracked : o.All fun _ v => v.id < next

namespace Tidy

variable {next next' : Nat} {m m' : Resident (Shared α)} {o : Lingering α}

theorem new (next memoryCapacity overflowWindow : Nat) :
    Tidy next (.empty memoryCapacity : Resident (Shared α)) (.empty overflowWindow) :=
  ⟨⟨_, .empty memoryCapacity⟩, .empty overflowWindow, Resident.all_of_empty rfl,
    Lingering.all_of_empty rfl⟩

theorem mono (h : Tidy next m o) (hn : next ≤ next') : Tidy next' m o :=
  ⟨h.ranked, h.lingering, h.resident.mono fun _ _ hv => Nat.lt_of_lt_of_le hv hn,
    h.tracked.mono fun _ _ hv => Nat.lt_of_lt_of_le hv hn⟩

theorem put (h : Tidy next m o) {key : String} {v : Shared α} (hv : v.id < next) {cost : Nat}
    {removed : List (Removal (Shared α))} (hm : m.put key v cost = .ok (m', removed)) :
    Tidy next m' (o.receive removed) := by
  obtain ⟨l, hl⟩ := h.ranked
  obtain ⟨l', -, hl'⟩ := hl.put_ok hm
  obtain ⟨hall, hremoved⟩ := h.resident.put (P := fun _ v => v.id < next) hv hm
  exact ⟨⟨l', hl'⟩, h.lingering.receive removed, hall, h.tracked.receive hremoved⟩

theorem look (h : Tidy next m o) (key : String) : Tidy next (m.get key).2 o := by
  obtain ⟨l, hl⟩ := h.ranked
  exact ⟨⟨_, (hl.get key).2⟩, h.lingering, h.resident.get key, h.tracked⟩

theorem get (h : Tidy next m o) (inUse : Nat → Bool) (key : String) :
    Tidy next m (o.get inUse key).2 :=
  ⟨h.ranked, h.lingering.get inUse key, h.resident, h.tracked.of_refs Lingering.refs_get⟩

theorem remove (h : Tidy next m o) (key : String) : Tidy next (m.remove key).1 (o.remove key) := by
  obtain ⟨l, hl⟩ := h.ranked
  exact ⟨⟨_, (hl.remove key).1⟩, h.lingering.remove key, h.resident.remove key,
    h.tracked.remove key⟩

theorem keepIf (h : Tidy next m o) (keep : String → Bool) :
    Tidy next (m.keepIf keep).1 (o.keepIf keep) := by
  obtain ⟨l, hl⟩ := h.ranked
  exact ⟨⟨_, (hl.keepIf keep).1⟩, h.lingering.keepIf keep, h.resident.keepIf keep,
    h.tracked.keepIf keep⟩

theorem resize (h : Tidy next m o) (capacity : Nat) :
    Tidy next (m.resize capacity).1 (o.receive (m.resize capacity).2) := by
  obtain ⟨l, hl⟩ := h.ranked
  obtain ⟨hall, hremoved⟩ := h.resident.resize capacity
  exact ⟨⟨_, (hl.resize capacity).1⟩, h.lingering.receive _, hall, h.tracked.receive hremoved⟩

theorem forgetDead (h : Tidy next m o) (inUse : Nat → Bool) : Tidy next m (o.forgetDead inUse).2 :=
  ⟨h.ranked, h.lingering.forgetDead inUse, h.resident, h.tracked.of_refs Lingering.refs_forgetDead⟩

theorem dropWindow (h : Tidy next m o) : Tidy next m o.dropWindow :=
  ⟨h.ranked, .dropWindow o, h.resident, h.tracked⟩

theorem clearLingering (h : Tidy next m o) : Tidy next m o.clear :=
  ⟨h.ranked, .clear o, h.resident, Lingering.all_of_empty rfl⟩

theorem clearResident (h : Tidy next m o) : Tidy next m.clear.1 o := by
  obtain ⟨l, hl⟩ := h.ranked
  exact ⟨⟨_, hl.clear.1⟩, h.lingering, Resident.all_of_empty rfl, h.tracked⟩

end Tidy

namespace Archive

/-- Stores that have nothing to evict, each with a home of its own. -/
structure Orderly (a : Archive) : Prop where
  atRest : ∀ f s, a.get f = some s → s.AtRest
  apart : ∀ f g, f ≠ g → ∀ s t, a.get f = some s → a.get g = some t → s.root.goal ≠ t.root.goal

variable {a b : Archive} {v w : Volume}

theorem Orderly.act (h : a.Orderly) (f : Family) (v : Volume) (x : Action) :
    (a.set f (Slot.act (a.get f) v x).2.1).Orderly := by
  have stays : ∀ g t, (a.set f (Slot.act (a.get f) v x).2.1).get g = some t →
      ∃ s, a.get g = some s ∧ t.root = s.root ∧ t.AtRest := by
    intro g t ht
    rw [get_set] at ht
    split at ht
    · rename_i hg
      subst hg
      cases hs : a.get g with
      | none =>
        rw [hs, Slot.act_none] at ht
        cases ht
      | some s =>
        rw [hs] at ht
        obtain ⟨t', ht', hrest⟩ := Slot.atRest_act (h.atRest g s hs) v x
        cases ht'.symm.trans ht
        exact ⟨s, rfl, Slot.root_act ht, hrest⟩
    · exact ⟨t, ht, rfl, h.atRest g t ht⟩
  refine ⟨fun g t ht => ?_, fun g g' hne t t' ht ht' => ?_⟩
  · obtain ⟨s, -, -, hrest⟩ := stays g t ht
    exact hrest
  · obtain ⟨s, hs, hroot, -⟩ := stays g t ht
    obtain ⟨s', hs', hroot', -⟩ := stays g' t' ht'
    rw [hroot, hroot']
    exact h.apart g g' hne s s' hs hs'

theorem Worked.orderly (hw : a.Worked v b w) (h : a.Orderly) : b.Orderly := by
  induction hw with
  | refl => exact h
  | act _ f x ih => exact ih.act f _ x
  | tick _ _ ih => exact ih

/-- What stores opened in a row end with was opened at the site of its family. -/
theorem opened_of_openAll {sites : Family → Option Site} {fs : List Family} {f : Family} {s : Store}
    (h : (openAll sites fs (a, v)).1.get f = some s) : a.get f = some s ∨
      ∃ site u, sites f = some site ∧
        (Store.open? u site.root site.version site.capacity).1 = some s := by
  induction fs generalizing a v with
  | nil => exact .inl h
  | cons g fs ih =>
    rw [openAll] at h
    rcases ih h with hs | hs
    · rw [get_set] at hs
      split at hs
      · rename_i hfg
        subst hfg
        cases hsite : sites f with
        | none =>
          rw [hsite] at hs
          cases hs
        | some site =>
          rw [hsite] at hs
          exact .inr ⟨site, v, rfl, hs⟩
      · exact .inl hs
    · exact .inr hs

end Archive

theorem Layout.start_orderly {l : Layout} {v w : Volume} {a : Archive}
    (h : l.start v = .ok (a, w)) : a.Orderly := by
  obtain ⟨sites, u, hopen, hsites, -⟩ := start_eq h
  have opened : ∀ f s, a.get f = some s → ∃ site u, l.sites v.free f = some site ∧
      (Store.open? u site.root site.version site.capacity).1 = some s := by
    intro f s hs
    rw [show a = _ from congrArg Prod.fst hopen] at hs
    rcases Archive.opened_of_openAll hs with hs | ⟨site, u, hsite, hs⟩
    · cases f <;> cases hs
    · exact ⟨site, u, hsites f site hsite, hs⟩
  refine ⟨fun f s hs => ?_, fun f g hne s t hs ht heq => ?_⟩
  · obtain ⟨site, u, -, ho⟩ := opened f s hs
    exact (Slot.Reached.opened u site.root site.version site.capacity).atRest s ho
  · obtain ⟨site, u, hsite, ho⟩ := opened f s hs
    obtain ⟨other, u', hother, ho'⟩ := opened g t ht
    rw [Store.root_open? (Prod.ext ho rfl), Store.root_open? (Prod.ext ho' rfl)] at heq
    refine (l.apart v.free f g hne site other hsite hother).disjoint site.home.goal
      site.goal_home ?_
    rw [Site.home, heq]
    exact other.goal_home

namespace Cache

@[simp] theorem held_writeRecord (c : Cache α) (key : String) (x : α) (f : Family) (r : Retention) :
    (c.writeRecord key x f r).held = c.held := by
  rw [writeRecord]
  split
  · rfl
  · simp only
    split <;> rfl

/-- A cache all of whose parts are in order. -/
structure Orderly (c : Cache α) : Prop where
  tidy : Tidy c.nextId c.memory c.overflow
  stores : c.archive.Orderly
  held : ∀ id ∈ c.held, id < c.nextId

variable {p : Design α} {c c' : Cache α} {key : String}

namespace Orderly

theorem built {v : Volume} (h : p.build v = .ok c) : c.Orderly := by
  obtain ⟨a, w, hstart, rfl⟩ := build_ok h
  exact ⟨.new 0 _ _, Layout.start_orderly hstart, fun id hid => absurd hid List.not_mem_nil⟩

/-- The stores are worked, and the tiers in memory are in order again. -/
theorem worked (h : c.Orderly) (hw : c.Worked c') (ht : Tidy c'.nextId c'.memory c'.overflow)
    (hh : ∀ id ∈ c'.held, id < c'.nextId) : c'.Orderly :=
  ⟨ht, hw.archive.orderly h.stores, hh⟩

/-- Only the tiers, the stores and the numbers matter. -/
theorem congr (h : c.Orderly) (hm : c'.memory = c.memory) (ho : c'.overflow = c.overflow)
    (ha : c'.archive = c.archive) (hn : c.nextId ≤ c'.nextId)
    (hh : ∀ id ∈ c'.held, id < c'.nextId) : c'.Orderly :=
  ⟨hm ▸ ho ▸ h.tidy.mono hn, ha ▸ h.stores, hh⟩

theorem hold (h : c.Orderly) {id : Nat} (hid : id < c.nextId) : (c.hold id).Orderly :=
  h.congr rfl rfl rfl (Nat.le_refl _) (List.forall_mem_cons.mpr ⟨hid, h.held⟩)

theorem give (h : c.Orderly) {found : Option (Shared α)} (hf : ∀ v ∈ found, v.id < c.nextId) :
    (c.give found).Orderly := by
  cases found with
  | none => exact h
  | some v => exact h.hold (hf v rfl)

theorem share (h : c.Orderly) (value : α) : (c.share value).2.Orderly :=
  h.congr rfl rfl rfl (Nat.le_succ _) fun id hid => Nat.lt_succ_of_lt (h.held id hid)

theorem putResident (h : c.Orderly) {v : Shared α} (hv : v.id < c.nextId) {cost : Nat}
    (hc : c.putResident key v cost = .ok c') : c'.Orderly ∧ c'.nextId = c.nextId := by
  have hw := Worked.refl.putResident hc
  simp only [Cache.putResident] at hc
  obtain ⟨r, hr, hc⟩ := bind_eq_ok_iff.mp hc
  cases hc
  exact ⟨h.worked hw (h.tidy.put hv hr) h.held, rfl⟩

theorem getRecord (h : c.Orderly) {f : Family} {found : Option (Shared α)}
    (hc : c.getRecord key f = .ok (found, c')) :
    c'.Orderly ∧ ∀ v ∈ found, v.id < c'.nextId := by
  have hw := Worked.refl.getRecord hc
  simp only [Cache.getRecord] at hc
  split at hc
  · cases hc
    exact ⟨h.worked hw h.tidy h.held, by rintro v ⟨⟩⟩
  · split at hc
    · rename_i value _
      simp only [bringIn] at hc
      obtain ⟨c₁, hput, hc⟩ := bind_eq_ok_iff.mp hc
      cases hc
      have hread : Orderly { c with
          archive := c.archive.set f ((c.archive.get f).get c.volume (.ofKey key)).2.1
          volume := ((c.archive.get f).get c.volume (.ofKey key)).2.2 } :=
        ⟨h.tidy, h.stores.act f c.volume (.get (.ofKey key)), h.held⟩
      obtain ⟨h₁, hn⟩ := (hread.share value).putResident (Nat.lt_succ_self _) hput
      refine ⟨h₁.congr rfl rfl rfl (Nat.le_refl _) h₁.held, ?_⟩
      rintro v ⟨⟩
      rw [hn]
      exact Nat.lt_succ_self _
    · cases hc
      exact ⟨h.worked hw h.tidy h.held, by rintro v ⟨⟩⟩

theorem find (h : c.Orderly) {f : Family} {found : Option (Shared α)}
    (hc : c.find key f = .ok (found, c')) : c'.Orderly ∧ ∀ v ∈ found, v.id < c'.nextId := by
  have hlook := h.tidy.look (Key.normalize key)
  simp only [Cache.find] at hc
  split at hc
  · rename_i v hv
    cases hc
    refine ⟨⟨hlook, h.stores, h.held⟩, ?_⟩
    rintro v ⟨⟩
    exact h.tidy.resident.of_get hv
  · have hover : Orderly { c with
        memory := (c.memory.get (Key.normalize key)).2
        overflow := (c.overflow.get (Cache.inUse { c with
          memory := (c.memory.get (Key.normalize key)).2 }) (Key.normalize key)).2 } :=
      ⟨hlook.get _ _, h.stores, h.held⟩
    split at hc
    · rename_i v hv
      have hnew := h.tidy.tracked _ _ (Lingering.refs_of_get hv)
      simp only [bringIn] at hc
      obtain ⟨c₁, hput, hc⟩ := bind_eq_ok_iff.mp hc
      cases hc
      obtain ⟨h₁, hn⟩ := hover.putResident hnew hput
      refine ⟨h₁.congr rfl rfl rfl (Nat.le_refl _) h₁.held, ?_⟩
      rintro v ⟨⟩
      exact hn ▸ hnew
    · exact hover.getRecord hc

theorem writeRecord (h : c.Orderly) (key : String) (x : α) (f : Family) (r : Retention) :
    (c.writeRecord key x f r).Orderly := by
  obtain ⟨-, hm, ho, hn⟩ := c.tiers_writeRecord key x f r
  refine h.worked (Worked.refl.writeRecord key x f r) ?_ ?_
  · rw [hm, ho, hn]
    exact h.tidy
  · rw [held_writeRecord, hn]
    exact h.held

theorem putCosting (h : c.Orderly) {v : Shared α} (hv : v.id < c.nextId) {cost : Nat}
    {placement : Placement} (hc : c.putCosting key v cost placement = .ok c') : c'.Orderly := by
  cases placement with
  | memory => exact (h.putResident hv hc).1
  | disk f r =>
    have hn := (c.tiers_writeRecord (Key.normalize key) v.value f r).2.2.2
    exact ((h.writeRecord _ v.value f r).putResident (hn ▸ hv) hc).1

theorem remove (h : c.Orderly) (key : String) : (c.remove key).Orderly :=
  h.worked (Worked.refl.remove key) (h.tidy.remove (Key.normalize key)) h.held

theorem removeIf (h : c.Orderly) (q : String → Bool) : (c.removeIf q).2.Orderly :=
  h.worked (Worked.refl.removeIf q) (h.tidy.keepIf _) h.held

theorem clear (h : c.Orderly) : c.clear.Orderly :=
  h.worked Worked.refl.clear h.tidy.clearLingering.clearResident h.held

theorem sweep (h : c.Orderly) : c.sweep.2.Orderly :=
  h.worked Worked.refl.sweep (h.tidy.forgetDead _) h.held

/-- A value is put by a caller that holds it. -/
theorem offered (h : c.Orderly) {v : Shared α} {cost : Nat} {placement : Placement} {r : Reply α}
    (hc : (if v.id ∈ c.held then (c.putCosting key v cost placement).map (.done, ·)
      else .ok (.done, c)) = .ok (r, c')) : c'.Orderly := by
  split at hc
  · rename_i hid
    obtain ⟨c₁, hput, he⟩ := map_eq_ok_iff.mp hc
    cases he
    exact h.putCosting (h.held v.id hid) hput
  · cases hc
    exact h

/-- Whatever is done leaves the cache in order. -/
theorem move (h : c.Orderly) {m : Move α} {r : Reply α} (hc : c.move p m = .ok (r, c')) :
    c'.Orderly := by
  cases m with
  | make value =>
    cases hc
    exact (h.share value).hold (Nat.lt_succ_self _)
  | hold id =>
    cases hc
    split
    · rename_i hid
      exact h.hold (h.held id hid)
    · exact h
  | release id =>
    cases hc
    exact h.congr rfl rfl rfl (Nat.le_refl _) fun i hi => h.held i (List.mem_of_mem_erase hi)
  | put key v placement => exact h.offered hc
  | putCosting key v cost placement => exact h.offered hc
  | find key f =>
    obtain ⟨⟨found, c₁⟩, hfind, he⟩ := map_eq_ok_iff.mp hc
    cases he
    obtain ⟨h₁, hfound⟩ := h.find hfind
    exact h₁.give hfound
  | remove key =>
    cases hc
    exact h.remove key
  | removeIf q =>
    cases hc
    exact h.removeIf q
  | clear =>
    cases hc
    exact h.clear
  | sweep =>
    cases hc
    exact h.sweep
  | dropWindow =>
    cases hc
    exact ⟨h.tidy.dropWindow, h.stores, h.held⟩
  | clearLingering =>
    cases hc
    exact ⟨h.tidy.clearLingering, h.stores, h.held⟩
  | clearResident =>
    cases hc
    exact ⟨h.tidy.clearResident, h.stores, h.held⟩
  | resizeMemory capacity =>
    cases hc
    exact ⟨h.tidy.resize capacity, h.stores, h.held⟩
  | meddle v =>
    cases hc
    exact h.congr rfl rfl rfl (Nat.le_refl _) h.held
  | reopen =>
    obtain ⟨c₁, hbuild, he⟩ := map_eq_ok_iff.mp hc
    cases he
    exact built hbuild

end Orderly

theorem Reached.orderly (h : c.Reached p) : c.Orderly := by
  induction h with
  | built h => exact .built h
  | moved _ hm ih => exact ih.move hm

end Cache

end TierCache
