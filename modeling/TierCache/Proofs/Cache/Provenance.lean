import TierCache.Proofs.Cache.Contents
import TierCache.Proofs.Cache.Layout

/-!
# Where the contents of a cache come from

A property of digests and values that every value has when it is put is had by every value that a
look-up returns, whatever happened in between: values only travel between the tiers, and a record
file is only ever the encoding of a value that was put. Nothing is assumed of the directory but
that it holds no other records at first; writes may fail, and opening it may.
-/
namespace TierCache

open Disk

/-- The record files in some homes are good for their digests. -/
def Volume.Vouched (homes : Path → Prop) (good : Digest → List UInt8 → Prop) (v : Volume) : Prop :=
  ∀ home, homes home → ∀ d r bytes time, v.fileAt? (recordPlace home d r) = some (bytes, time) →
    good d bytes

/-- The stores keep their records in these homes. -/
def Archive.Within (homes : Path → Prop) (a : Archive) : Prop :=
  ∀ f s, a.get f = some s → homes s.root

variable {homes : Path → Prop} {good good' : Digest → List UInt8 → Prop} {v w : Volume}
variable {a : Archive}

namespace Volume.Vouched

theorem mono (h : v.Vouched homes good) (hg : ∀ d bytes, good d bytes → good' d bytes) :
    v.Vouched homes good' := fun home hh d r bytes time hf =>
  hg d bytes (h home hh d r bytes time hf)

theorem of_files (h : v.Vouched homes good) (hf : ∀ {q bytes time},
    w.fileAt? q = some (bytes, time) → ∃ time', v.fileAt? q = some (bytes, time')) :
    w.Vouched homes good := by
  intro home hh d r bytes time hw
  obtain ⟨time', hv⟩ := hf hw
  exact h home hh d r bytes time' hv

/-- The place of a record tells its digest, in whichever home it is. -/
theorem put (h : v.Vouched homes good) (s : Store) {d : Digest} {bytes : List UInt8}
    (hg : good d bytes) (r : Retention) : (s.put v d bytes r).2.2.Vouched homes good := by
  intro home hh d' r' b time hf
  rcases s.files_put v d bytes r hf with ⟨time', hv⟩ | ⟨hq, rfl⟩ | ⟨name, hq⟩
  · exact h home hh d' r' b time' hv
  · exact digest_of_recordPlace hq ▸ hg
  · exact absurd hq (recordPlace_ne_staged home s.root d' r' name)

theorem act (h : v.Vouched homes good) (slot : Slot) (x : Action)
    (hx : ∀ d bytes r, x = .put d bytes r → good d bytes) :
    (Slot.act slot v x).2.2.Vouched homes good := by
  cases slot with
  | none => rwa [Slot.act_none]
  | some s =>
    rcases Slot.act_cases s v x with hk | ⟨d, bytes, r, he, hw⟩
    · exact h.of_files fun hf => hk.files hf
    · exact hw ▸ h.put s (hx d bytes r he) r

end Volume.Vouched

namespace Disk

theorem Store.root_open? {root : Path} {version : UInt32} {capacity : Nat} {s : Store}
    (h : Store.open? v root version capacity = (some s, w)) : s.root = homeOf root version := by
  rw [Store.open?] at h
  split at h
  · cases h
  · split at h
    · cases h
    · simp only at h
      split at h
      · cases h
      · rename_i u _
        simp only [Prod.mk.injEq, Option.some.injEq] at h
        rw [← h.1]
        exact (Store.kept_rebuild ⟨homeOf root version, capacity, .empty⟩ u).1

theorem Store.root_get (s : Store) (v : Volume) (d : Digest) : (s.get v d).2.1.root = s.root := by
  rw [Store.get]
  split
  · rfl
  · simp only
    split <;> rfl

theorem Store.root_put (s : Store) (v : Volume) (d : Digest) (bytes : List UInt8)
    (r : Retention) : (s.put v d bytes r).2.1.root = s.root := by
  rw [Store.put]
  split
  · rfl
  · simp only
    split
    · rfl
    · exact Holds.root_shrink { s with index := s.index.insert d ⟨bytes.length, r⟩ } _

theorem Store.root_wipe (s : Store) (v : Volume) : (s.wipe v).2.1.root = s.root := by
  rw [Store.wipe]
  split <;> rfl

/-- A store stays where it is. -/
theorem Slot.root_act {s s' : Store} {x : Action} (h : (Slot.act (some s) v x).2.1 = some s') :
    s'.root = s.root := by
  cases x with
  | put d bytes r =>
    cases h
    exact s.root_put v d bytes r
  | get d =>
    cases h
    exact s.root_get v d
  | contains d =>
    cases h
    rfl
  | remove d =>
    cases h
    exact Agrees.root_evict s v d
  | removeIf p =>
    cases h
    exact Holds.root_evictAll s v _
  | wipe =>
    cases h
    exact s.root_wipe v
  | shrink =>
    cases h
    exact Holds.root_shrink s v

end Disk

namespace Archive

theorem Within.set (h : a.Within homes) {f : Family} {slot : Slot}
    (hs : ∀ s, slot = some s → homes s.root) : (a.set f slot).Within homes := by
  intro g s hg
  rw [get_set] at hg
  split at hg
  · exact hs s hg
  · exact h g s hg

/-- A call of one store. -/
theorem Within.act (h : a.Within homes) (f : Family) (v : Volume) (x : Action) :
    (a.set f (Slot.act (a.get f) v x).2.1).Within homes := by
  refine h.set fun s' hs' => ?_
  cases hs : a.get f with
  | none =>
    rw [hs, Slot.act_none] at hs'
    cases hs'
  | some s =>
    rw [hs] at hs'
    exact Slot.root_act hs' ▸ h f s hs

/-- A call of each store in turn that writes nothing. -/
theorem forEach_vouched (ha : a.Within homes) (hv : v.Vouched homes good) (x : Action) {β : Type}
    {act : Slot → Volume → β × Slot × Volume}
    (hact : ∀ slot v, (act slot v).2 = (Slot.act slot v x).2)
    (hx : ∀ d bytes r, x ≠ .put d bytes r) :
    (a.forEach v act).2.1.Within homes ∧ (a.forEach v act).2.2.Vouched homes good := by
  have step : ∀ (f : Family) {b : Archive} {u : Volume}, b.Within homes → u.Vouched homes good →
      (b.set f (act (b.get f) u).2.1).Within homes ∧ (act (b.get f) u).2.2.Vouched homes good := by
    intro f b u hb hu
    rw [hact]
    exact ⟨hb.act f u x, hu.act _ x fun d bytes r he => absurd he (hx d bytes r)⟩
  obtain ⟨h₁, w₁⟩ := step .general ha hv
  obtain ⟨h₂, w₂⟩ := step .distinct h₁ w₁
  exact step .permanent h₂ w₂

/-- What is read is good. -/
theorem Within.good_of_get (ha : a.Within homes) (hv : v.Vouched homes good) {f : Family}
    {d : Digest} {bytes : List UInt8} (h : ((a.get f).get v d).1 = some bytes) : good d bytes := by
  cases hs : a.get f with
  | none =>
    rw [hs] at h
    cases h
  | some s =>
    rw [hs] at h
    simp only [Slot.get, Store.get] at h
    split at h
    · cases h
    · split at h
      · rename_i b hread
        cases h
        obtain ⟨-, time, hf⟩ := Volume.read_eq_ok_iff.mp hread
        rw [Store.pathOf, goal_recordPath] at hf
        exact hv s.root (ha f s hs) d _ _ time hf
      · cases h
      · cases h

end Archive

/-- The homes that the stores of a layout have, in any version. -/
def Layout.Home : Layout → Path → Prop
  | .absent, _ => False
  | .single root _ _, home => ∃ version, home = homeOf root version
  | .families settings, home =>
    ∃ (f : Family) (version : UInt32),
      home = homeOf ((Path.ofString settings.cachePath).join f.name) version

/-- Opening a store brings no record. -/
theorem Disk.Store.open?_vouched {root : Path} {version : UInt32}
    (hr : homes (homeOf root version)) (hv : v.Vouched homes good) (capacity : Nat) :
    (∀ s, (Store.open? v root version capacity).1 = some s → homes s.root) ∧
      (Store.open? v root version capacity).2.Vouched homes good := by
  refine ⟨fun s hs => ?_, hv.of_files fun hf => (Store.kept_open? v root version capacity).files hf⟩
  have ho : Store.open? v root version capacity =
      (some s, (Store.open? v root version capacity).2) := Prod.ext hs rfl
  exact Store.root_open? ho ▸ hr

theorem Archive.openFamily_vouched {settings : Settings} {f : Family}
    (hr : ∀ version,
      homes (homeOf ((Path.ofString settings.cachePath).join f.name) version))
    (hv : v.Vouched homes good) (bytes : Nat) :
    (∀ s, (openFamily settings v f bytes).1 = some s → homes s.root) ∧
      (openFamily settings v f bytes).2.Vouched homes good := by
  rw [openFamily]
  split
  · refine ⟨fun s hs => ?_, hv⟩
    cases hs
  · exact Store.open?_vouched (hr _) hv bytes

/-- Opening the stores of a layout brings no record. -/
theorem Layout.start_vouched {l : Layout} (h : l.start v = .ok (a, w)) (hv : v.Vouched homes good)
    (hl : ∀ home, l.Home home → homes home) : a.Within homes ∧ w.Vouched homes good := by
  have disabled : Archive.disabled.Within homes := by
    intro f s hs
    cases f <;> cases hs
  cases l with
  | absent =>
    cases h
    exact ⟨disabled, hv⟩
  | single root version capacity =>
    cases h
    obtain ⟨hs, hv'⟩ := Store.open?_vouched (hl _ ⟨version, rfl⟩) hv capacity
    exact ⟨disabled.set (f := .general) hs, hv'⟩
  | families settings =>
    simp only [start, Archive.ofSettings, diskBudget_eq] at h
    obtain ⟨parts, _, h⟩ := bind_eq_ok_iff.mp h
    cases h
    have hm : (v.makeFolders (Path.ofString settings.cachePath)).1.Vouched homes good :=
      hv.of_files fun {q bytes time} hf => ⟨time, by rwa [(Volume.makeFolders_keeps _ _).2.1] at hf⟩
    have home : ∀ f version,
        homes (homeOf ((Path.ofString settings.cachePath).join (Family.name f)) version) :=
      fun f version => hl _ ⟨f, version, rfl⟩
    obtain ⟨hg, h₁⟩ := Archive.openFamily_vouched (home .general) hm parts.1
    obtain ⟨hd, h₂⟩ := Archive.openFamily_vouched (home .distinct) h₁ parts.2
    obtain ⟨hp, h₃⟩ := Archive.openFamily_vouched (home .permanent) h₂ settings.permanentCapacity
    refine ⟨fun f s hs => ?_, h₃⟩
    cases f with
    | general => exact hg s hs
    | distinct => exact hd s hs
    | permanent => exact hp s hs

variable {α : Type} {kind : ValueKind α} {P Q : Digest → α → Prop} {c c' : Cache α} {key : String}

/-- What is in memory has the property for the digest of its key, and what is on disk is the
encoding of a value that has it. -/
structure Cache.Traced (kind : ValueKind α) (P : Digest → α → Prop) (homes : Path → Prop)
    (c : Cache α) : Prop where
  kind_eq : c.kind = kind
  resident : c.memory.All fun k v => P (.ofKey k) v.value
  lingering : c.overflow.All fun k v => P (.ofKey k) v.value
  within : c.archive.Within homes
  vouched : c.volume.Vouched homes fun d bytes => ∃ x, P d x ∧ kind.encode x = .ok bytes

namespace Cache.Traced

theorem mono (h : c.Traced kind P homes) (hpq : ∀ d x, P d x → Q d x) :
    c.Traced kind Q homes where
  kind_eq := h.kind_eq
  resident := h.resident.mono fun _ _ hp => hpq _ _ hp
  lingering := h.lingering.mono fun _ _ hp => hpq _ _ hp
  within := h.within
  vouched := h.vouched.mono fun d _ ⟨x, hx, he⟩ => ⟨x, hpq d x hx, he⟩

theorem of_new (ha : a.Within homes)
    (hv : v.Vouched homes fun d bytes => ∃ x, P d x ∧ kind.encode x = .ok bytes)
    (memoryCapacity overflowWindow : Nat) :
    (Cache.new kind memoryCapacity overflowWindow a v).Traced kind P homes where
  kind_eq := rfl
  resident := Resident.all_of_empty rfl
  lingering := Lingering.all_of_empty rfl
  within := ha
  vouched := hv

/-- Memory and the overflow tier may change. -/
theorem of_tiers (h : c.Traced kind P homes) (hk : c'.kind = c.kind) (ha : c'.archive = c.archive)
    (hv : c'.volume = c.volume) (hm : c'.memory.All fun k v => P (.ofKey k) v.value)
    (ho : c'.overflow.All fun k v => P (.ofKey k) v.value) : c'.Traced kind P homes where
  kind_eq := hk.trans h.kind_eq
  resident := hm
  lingering := ho
  within := ha ▸ h.within
  vouched := hv ▸ h.vouched

/-- A value that has the property may be put into memory. -/
theorem putResident (h : c.Traced kind P homes) {x : Shared α} (hx : P (.ofKey key) x.value)
    {cost : Nat} (hc : c.putResident key x cost = .ok c') : c'.Traced kind P homes := by
  simp only [Cache.putResident] at hc
  obtain ⟨r, hr, hc⟩ := bind_eq_ok_iff.mp hc
  cases hc
  obtain ⟨hm, hrs⟩ := h.resident.put hx hr
  exact h.of_tiers rfl rfl rfl hm (h.lingering.receive hrs)

/-- A call of one store. -/
theorem act (h : c.Traced kind P homes) (f : Family) (x : Action)
    (hx : ∀ d bytes r, x = .put d bytes r → ∃ y, P d y ∧ kind.encode y = .ok bytes) :
    Cache.Traced kind P homes { c with
      archive := c.archive.set f (Slot.act (c.archive.get f) c.volume x).2.1
      volume := (Slot.act (c.archive.get f) c.volume x).2.2 } where
  kind_eq := h.kind_eq
  resident := h.resident
  lingering := h.lingering
  within := h.within.act f c.volume x
  vouched := h.vouched.act _ x hx

/-- What is read of a record has the property of its digest. -/
theorem getRecord (h : c.Traced kind P homes)
    (hd : ∀ x bytes, kind.encode x = .ok bytes → kind.decode bytes = .ok x) {f : Family}
    {found : Option (Shared α)} (hc : c.getRecord key f = .ok (found, c')) :
    c'.Traced kind P homes ∧ ∀ x, found = some x → P (.ofKey key) x.value := by
  have hread := h.act f (.get (.ofKey key)) (by simp)
  simp only [Cache.getRecord] at hc
  split at hc
  · cases hc
    exact ⟨hread.of_tiers rfl rfl rfl hread.resident hread.lingering, fun x hx => by cases hx⟩
  · rename_i bytes hb
    obtain ⟨x, hx, henc⟩ := h.within.good_of_get h.vouched hb
    have hdec := hd x bytes henc
    rw [← h.kind_eq] at hdec
    simp only [hdec, share, bringIn] at hc
    obtain ⟨c₁, hput, hc⟩ := bind_eq_ok_iff.mp hc
    cases hc
    have hshared : Cache.Traced kind P homes { c with
        archive := c.archive.set f (Slot.act (c.archive.get f) c.volume (.get (.ofKey key))).2.1
        volume := (Slot.act (c.archive.get f) c.volume (.get (.ofKey key))).2.2
        nextId := c.nextId + 1 } :=
      hread.of_tiers rfl rfl rfl hread.resident hread.lingering
    have hin := hshared.putResident (x := ⟨c.nextId, x⟩) hx hput
    refine ⟨hin.of_tiers rfl rfl rfl hin.resident hin.lingering, fun y hy => ?_⟩
    cases hy
    exact hx

/-- Whatever a look-up comes upon has the property, in whichever tier it is. -/
theorem find (h : c.Traced kind P homes)
    (hd : ∀ x bytes, kind.encode x = .ok bytes → kind.decode bytes = .ok x) {f : Family}
    {found : Option (Shared α)} (hc : c.find key f = .ok (found, c')) :
    c'.Traced kind P homes ∧ ∀ x, found = some x → P (.ofKey (Key.normalize key)) x.value := by
  have hmem : Cache.Traced kind P homes
      { c with memory := (c.memory.get (Key.normalize key)).2 } :=
    h.of_tiers rfl rfl rfl (h.resident.get _) h.lingering
  simp only [Cache.find] at hc
  split at hc
  · rename_i x hx
    cases hc
    refine ⟨hmem.of_tiers rfl rfl rfl hmem.resident hmem.lingering, fun y hy => ?_⟩
    cases hy
    exact h.resident.of_get hx
  · have hover : Cache.Traced kind P homes { c with
        memory := (c.memory.get (Key.normalize key)).2
        overflow := (c.overflow.get (Cache.inUse { c with
          memory := (c.memory.get (Key.normalize key)).2 }) (Key.normalize key)).2 } :=
      hmem.of_tiers rfl rfl rfl hmem.resident (hmem.lingering.of_refs Lingering.refs_get)
    split at hc
    · rename_i x hx
      have hp : P (.ofKey (Key.normalize key)) x.value :=
        h.lingering _ _ (Lingering.refs_of_get hx)
      simp only [bringIn] at hc
      obtain ⟨c₁, hput, hc⟩ := bind_eq_ok_iff.mp hc
      cases hc
      have hin := hover.putResident hp hput
      refine ⟨hin.of_tiers rfl rfl rfl hin.resident hin.lingering, fun y hy => ?_⟩
      cases hy
      exact hp
    · exact hover.getRecord hd hc

theorem writeRecord (h : c.Traced kind P homes) {x : α} (hx : P (.ofKey key) x) (f : Family)
    (r : Retention) : (c.writeRecord key x f r).Traced kind P homes := by
  rw [Cache.writeRecord]
  split
  · exact h
  · rename_i bytes henc
    rw [h.kind_eq] at henc
    have hw := h.act f (.put (.ofKey key) bytes r) fun d b r' he => by
      cases he
      exact ⟨x, hx, henc⟩
    simp only
    split
    · exact hw.of_tiers rfl rfl rfl hw.resident hw.lingering
    · exact hw

/-- A value is put under a key only if it has the property of that key's digest. -/
theorem put (h : c.Traced kind P homes) {x : Shared α} (hx : P (.ofKey (Key.normalize key)) x.value)
    {placement : Placement} (hc : c.put key x placement = .ok c') : c'.Traced kind P homes := by
  cases placement with
  | memory => exact h.putResident hx hc
  | disk f r => exact (h.writeRecord hx f r).putResident hx hc

theorem share (h : c.Traced kind P homes) (x : α) : (c.share x).2.Traced kind P homes :=
  h.of_tiers rfl rfl rfl h.resident h.lingering

/-- A call of each store that writes nothing, and what it leaves in memory. -/
theorem forEach (h : c.Traced kind P homes) (x : Action) {β : Type}
    {act : Slot → Volume → β × Slot × Volume}
    (hact : ∀ slot v, (act slot v).2 = (Slot.act slot v x).2) (hx : ∀ d bytes r, x ≠ .put d bytes r)
    {memory : Resident (Shared α)} {overflow : Lingering α}
    (hm : memory.All fun k v => P (.ofKey k) v.value)
    (ho : overflow.All fun k v => P (.ofKey k) v.value) :
    Cache.Traced kind P homes { c with
      memory
      overflow
      archive := (c.archive.forEach c.volume act).2.1
      volume := (c.archive.forEach c.volume act).2.2 } := by
  obtain ⟨ha, hv⟩ := Archive.forEach_vouched h.within h.vouched x hact hx
  exact ⟨h.kind_eq, hm, ho, ha, hv⟩

theorem remove (h : c.Traced kind P homes) (key : String) : (c.remove key).Traced kind P homes :=
  h.forEach (.remove (.ofKey (Key.normalize key))) (fun _ _ => rfl) (by simp)
    (h.resident.remove _) (h.lingering.remove _)

theorem removeIf (h : c.Traced kind P homes) (p : String → Bool) :
    (c.removeIf p).2.Traced kind P homes :=
  h.forEach (.removeIf _) (fun _ _ => rfl) (by simp) (h.resident.keepIf _) (h.lingering.keepIf _)

theorem clear (h : c.Traced kind P homes) : c.clear.Traced kind P homes :=
  h.forEach .wipe (fun _ _ => rfl) (by simp) (Resident.all_of_empty rfl)
    (Lingering.all_of_empty rfl)

theorem sweep (h : c.Traced kind P homes) : c.sweep.2.Traced kind P homes :=
  h.forEach .shrink (fun _ _ => rfl) (by simp) h.resident
    (h.lingering.of_refs Lingering.refs_forgetDead)

theorem resizeMemory (h : c.Traced kind P homes) (capacity : Nat) :
    (c.resizeMemory capacity).Traced kind P homes := by
  obtain ⟨hm, hrs⟩ := h.resident.resize capacity
  exact h.of_tiers rfl rfl rfl hm (h.lingering.receive hrs)

theorem setTime (h : c.Traced kind P homes) (now : Int) :
    Cache.Traced kind P homes { c with volume := { c.volume with clock := now } } where
  kind_eq := h.kind_eq
  resident := h.resident
  lingering := h.lingering
  within := h.within
  vouched := h.vouched

end Cache.Traced

/-- A look-up that finds nothing anywhere leaves memory as it was. -/
theorem Cache.find_none {f : Family}
    (hm : (c.memory.get (Key.normalize key)).1 = none)
    (ho : c.overflow.refs.get? (Key.normalize key) = none)
    (hr : ((c.archive.get f).get c.volume (.ofKey (Key.normalize key))).1 = none) :
    ∃ c', c.find key f = .ok (none, c') ∧ c'.kind = c.kind ∧
      c'.memory = (c.memory.get (Key.normalize key)).2 ∧ c'.nextId = c.nextId := by
  have hover : ∀ inUse, c.overflow.get inUse (Key.normalize key) = (none, c.overflow) := by
    intro inUse
    rw [Lingering.get, ho]
  simp only [Cache.find, hm, hover, Cache.getRecord, hr]
  exact ⟨_, rfl, rfl, rfl, rfl⟩

end TierCache
