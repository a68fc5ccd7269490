import TierCache.Proofs.Cache.Sweeping
import TierCache.Proofs.Disk.Culling
import TierCache.Proofs.Disk.Failing
import TierCache.Proofs.Resident.Handover

/-!
# Asking again

A value that was found is brought into memory. If it has no room there, it drops everything else
out and is dropped last itself, so that the overflow tier knows it and memory is empty. Either way a
caller who keeps it finds it again without the disk. A record that cannot be decoded goes at the
first look-up, so that the next one does not come upon it.
-/
namespace TierCache

variable {α : Type}

/-- A file that can be read is gone once it is discarded, and all else is as it was. -/
theorem Volume.lost_discard_touch {v : Volume} {p : Path} {bytes : List UInt8}
    (h : v.read p = .ok bytes) : v.Lost (· = p.goal) ((v.touch p).discard p) := by
  obtain ⟨hl, time, hfile⟩ := Volume.read_eq_ok_iff.mp h
  have hleads : (v.touch p).Leads p := ⟨hl.1, fun q hq => (folder_touch v p q).mpr (hl.2 q hq)⟩
  have hfolder : ∀ q, ((v.touch p).discard p).node? q = some .folder ↔ v.node? q = some .folder :=
    fun q => (folder_discard _ p q).trans (folder_touch v p q)
  have hfiles : ∀ q, ((v.touch p).discard p).fileAt? q =
      if q = p.goal then none else v.fileAt? q := by
    intro q
    rw [fileAt?_discard, fileAt?_touch]
    by_cases hq : q = p.goal
    · simp [hq, hleads]
    · simp [hq]
  refine ⟨?_, ?_, ?_, ?_⟩
  · rintro q rfl
    simp [hfile]
  · rintro q rfl
    refine node?_eq_none (by simp [hfiles]) fun hd => ?_
    rw [fileAt?_of_folder ((hfolder _).mp hd)] at hfile
    cases hfile
  · intro q hq
    exact node?_congr (hfolder q) (by simp [hfiles, hq])
  · obtain ⟨hclock, hfree⟩ := medium_discard (v.touch p) p
    obtain ⟨hclock', hfree'⟩ := medium_touch v p
    exact ⟨hclock.trans hclock', hfree.trans hfree'⟩

namespace Disk

variable {slot slot' : Slot} {v w : Volume} {d : Digest}

/-- The record is gone from its store and from the volume, and nothing else is. -/
def Slot.Removed (slot : Slot) (v : Volume) (d : Digest) (slot' : Slot) (w : Volume) : Prop :=
  ∃ s s' info, slot = some s ∧ slot' = some s' ∧ s.index.get? d = some info ∧
    s'.index.records = s.index.records.erase d ∧
    v.Lost (· = (s.pathOf d info.retention).goal) w

/-- A record that was read is removed. -/
theorem Slot.removed_of_get {bytes : List UInt8} (h : (slot.get v d).1 = some bytes) :
    slot.Removed v d (Slot.remove (slot.get v d).2.1 (slot.get v d).2.2 d).2.1
      (Slot.remove (slot.get v d).2.1 (slot.get v d).2.2 d).2.2 := by
  cases slot with
  | none => cases h
  | some s =>
    obtain ⟨info, hi, hread⟩ := Store.get_eq_some_iff.mp h
    have hget : s.get v d =
        (some bytes, { s with index := s.index.touch d }, v.touch (s.pathOf d info.retention)) := by
      rw [Store.get, hi]
      simp only
      rw [show ({ s with index := s.index.touch d } : Store).pathOf d info.retention =
        s.pathOf d info.retention from rfl, hread]
    have htouched : (s.index.touch d).get? d = some info := hi
    have hcontains : (s.index.touch d).contains d = true := Index.contains_iff.mpr ⟨info, hi⟩
    have hremove : (Slot.remove (Slot.get (some s) v d).2.1 (Slot.get (some s) v d).2.2 d).2 =
        (some { s with index := (s.index.touch d).forget d },
          (v.touch (s.pathOf d info.retention)).discard (s.pathOf d info.retention)) := by
      simp only [Slot.get, hget, Slot.remove, Store.remove, Store.evict, htouched]
      rfl
    rw [hremove]
    refine ⟨s, _, info, rfl, rfl, hi, ?_, Volume.lost_discard_touch hread⟩
    simp only [Index.forget, hcontains, if_true]
    rfl

/-- A record that was removed is not read again. -/
theorem Slot.Removed.get_eq (h : slot.Removed v d slot' w) (u : Volume) :
    slot'.get u d = (none, slot', u) := by
  obtain ⟨s, s', info, -, rfl, -, hrecords, -⟩ := h
  have hnone : s'.index.get? d = none := by
    rw [Index.get?, hrecords, Table.get?_erase, if_pos rfl]
  simp only [Slot.get, Store.get, hnone]

end Disk

namespace Cache

variable {p : Design α} {c c' : Cache α} {key : String} {v : Shared α} {f : Family}

/-- A look-up comes upon the value in memory, or in the overflow tier with room to bring it in. -/
inductive AtHand (c : Cache α) (key : String) (v : Shared α) : Prop where
  | resident {cost : Nat} (he : c.memory.entries.get? key = some ⟨v, cost⟩)
  | lingering (hn : c.memory.entries.get? key = none) (hr : c.overflow.refs.get? key = some v)
      (hfits : c.memory.totalCost + c.kind.cost v.value < UInt64.size)

theorem AtHand.congr (h : c.AtHand key v) (hm : c'.memory = c.memory)
    (ho : c'.overflow = c.overflow) (hk : c'.kind = c.kind) : c'.AtHand key v := by
  cases h with
  | resident he => exact .resident (by rw [hm, he])
  | lingering hn hr hfits =>
    rw [← hk, ← hm] at hfits
    exact .lingering (by rw [hm, hn]) (by rw [ho, hr]) hfits

theorem AtHand.of_bringIn (ht : Tidy c.nextId c.memory c.overflow)
    (h : c.bringIn key v = .ok c') : c'.AtHand key v := by
  simp only [bringIn, putResident] at h
  obtain ⟨⟨m', removed⟩, hput, h⟩ := bind_eq_ok_iff.mp h
  cases h
  obtain ⟨l, hl⟩ := ht.ranked
  rcases Resident.put_resident_or_dropped hl hput with he | ⟨hn, hzero, before, rfl⟩
  · exact .resident he
  · have hcost : c.kind.cost v.value < UInt64.size := by
      rw [Resident.put_eq] at hput
      obtain ⟨sum, hsum, -⟩ := map_eq_ok_iff.mp hput
      have := (addCounts_eq_ok_iff.mp hsum).1
      omega
    refine .lingering hn ?_ ?_
    · rw [Lingering.receive_append, Lingering.receive_cons]
      simp [Cause.isEviction, Lingering.receive]
    · show m'.totalCost + c.kind.cost v.value < UInt64.size
      omega

/-- What a look-up found is at hand. -/
theorem AtHand.of_find (h : c.Orderly) (hc : c.find key f = .ok (some v, c')) :
    c'.AtHand (Key.normalize key) v := by
  have hlook := h.tidy.look (Key.normalize key)
  simp only [Cache.find] at hc
  split at hc
  · rename_i w hw
    cases hc
    obtain ⟨⟨w, cost⟩, he, rfl⟩ := Resident.entry_of_get hw
    exact .resident (by simpa using he)
  · split at hc
    · rename_i w hw
      obtain ⟨c₁, hin, hc⟩ := bind_eq_ok_iff.mp hc
      cases hc
      exact (AtHand.of_bringIn (hlook.get _ _) hin).congr rfl rfl rfl
    · simp only [getRecord] at hc
      split at hc
      · cases hc
      · split at hc
        · obtain ⟨c₁, hin, hc⟩ := bind_eq_ok_iff.mp hc
          cases hc
          exact (AtHand.of_bringIn ((hlook.get _ _).mono (Nat.le_succ _)) hin).congr rfl rfl rfl
        · cases hc

/-- What is at hand and held is found without the disk, and at the cost of one hit in memory or in
the overflow tier. -/
structure FoundNear (c c' : Cache α) : Prop where
  archive : c'.archive = c.archive
  volume : c'.volume = c.volume
  stats : c'.stats = { c.stats with memoryHits := c.stats.memoryHits + 1 } ∨
    c'.stats = { c.stats with overflowHits := c.stats.overflowHits + 1 }

theorem AtHand.find (h : c.AtHand (Key.normalize key) v) (hv : v.id ∈ c.held) (f : Family) :
    ∃ c', c.find key f = .ok (some v, c') ∧ c.FoundNear c' := by
  cases h with
  | resident he =>
    simp only [Cache.find, Resident.get, he]
    exact ⟨_, rfl, rfl, rfl, .inl rfl⟩
  | lingering hn hr hfits =>
    have halive : ∀ m, c.overflow.isAlive (Cache.inUse { c with memory := m }) v = true := by
      intro m
      simp [Lingering.isAlive, inUse, hv]
    simp only [Cache.find, Resident.get, hn, Lingering.get, hr, halive, if_true, bringIn,
      putResident]
    obtain ⟨out, hput⟩ := Resident.put_of_lt { c.memory with misses := c.memory.misses + 1 }
      (Key.normalize key) v hfits
    simp only [hput]
    exact ⟨_, rfl, rfl, rfl, .inr rfl⟩

/-- Neither memory nor the overflow tier has a value for the key. -/
structure Unknown (c : Cache α) (key : String) : Prop where
  resident : c.memory.entries.get? key = none
  lingering : ∀ v, c.overflow.refs.get? key = some v → ¬ c.Lives v.id

/-- The cache after it has looked for the key in memory and in the overflow tier, in vain. -/
def passed (c : Cache α) (key : String) : Cache α := { c with
  memory := { c.memory with misses := c.memory.misses + 1 }
  overflow := { c.overflow with refs := c.overflow.refs.erase key } }

theorem Unknown.find_eq (h : c.Unknown (Key.normalize key)) (f : Family) :
    c.find key f = (c.passed (Key.normalize key)).getRecord (Key.normalize key) f := by
  have hover : c.overflow.get (Cache.inUse { c with
      memory := { c.memory with misses := c.memory.misses + 1 } }) (Key.normalize key) =
      (none, { c.overflow with refs := c.overflow.refs.erase (Key.normalize key) }) := by
    rw [Lingering.get]
    cases hr : c.overflow.refs.get? (Key.normalize key) with
    | none => rw [show c.overflow.refs.erase _ = c.overflow.refs from
        Table.ext (Table.erase_of_none hr)]
    | some v =>
      have hdead : c.overflow.isAlive (Cache.inUse { c with
          memory := { c.memory with misses := c.memory.misses + 1 } }) v = false := by
        rw [Bool.eq_false_iff]
        exact fun halive => h.lingering v hr (isAlive_iff.mp halive)
      simp only [hdead, Bool.false_eq_true, if_false]
  simp only [Cache.find, Resident.get, h.resident, hover]
  rfl

/-- A look-up in the family comes upon a record that cannot be decoded. -/
structure MeetsBroken (c : Cache α) (key : String) (f : Family) : Prop extends
    c.Unknown key where
  record : ∃ bytes problem, ((c.archive.get f).get c.volume (.ofKey key)).1 = some bytes ∧
    c.kind.decode bytes = .error problem

/-- The record of the key is gone from the family. Memory, the values that are alive, and all other
records are as they were. -/
structure Discarded (c : Cache α) (key : String) (f : Family) (c' : Cache α) : Prop where
  record : (c.archive.get f).Removed c.volume (.ofKey key) (c'.archive.get f) c'.volume
  families : ∀ g, g ≠ f → c'.archive.get g = c.archive.get g
  memory : c'.memory = { c.memory with misses := c.memory.misses + 1 }
  alive : ∀ k v, c.Lives v.id →
    (c'.overflow.refs.get? k = some v ↔ c.overflow.refs.get? k = some v)
  window : c'.overflow.window = c.overflow.window ∧ c'.overflow.order = c.overflow.order
  held : c'.held = c.held
  stats : c'.stats = { c.stats with
    misses := c.stats.misses + 1
    decodeFailures := c.stats.decodeFailures + 1 }

theorem MeetsBroken.find (h : c.MeetsBroken (Key.normalize key) f) :
    ∃ c', c.find key f = .ok (none, c') ∧ c.Discarded (Key.normalize key) f c' := by
  obtain ⟨bytes, problem, hbytes, hdecode⟩ := h.record
  have hremoved := Disk.Slot.removed_of_get hbytes
  rcases hget : (c.archive.get f).get c.volume (.ofKey (Key.normalize key)) with ⟨found, slot, w⟩
  rw [hget] at hbytes hremoved
  obtain rfl : found = some bytes := hbytes
  have hfind : c.find key f = .ok (none, { c.passed (Key.normalize key) with
      archive := (c.archive.set f slot).set f (slot.remove w (.ofKey (Key.normalize key))).2.1
      volume := (slot.remove w (.ofKey (Key.normalize key))).2.2
      stats := { c.stats with
        misses := c.stats.misses + 1
        decodeFailures := c.stats.decodeFailures + 1 } }) := by
    rw [h.toUnknown.find_eq]
    simp only [getRecord, Cache.passed, hget, hdecode, dropRecord, countMiss, Archive.get_set,
      if_true]
  refine ⟨_, hfind, ?_, ?_, rfl, ?_, ⟨rfl, rfl⟩, rfl, rfl⟩
  · simpa using hremoved
  · intro g hg
    simp [hg]
  · intro k v hlives
    rw [Cache.passed, Table.get?_erase]
    by_cases hk : k = Key.normalize key
    · subst hk
      simp only [if_true, reduceCtorEq, false_iff]
      exact fun hv => h.lingering v hv hlives
    · simp [hk]

theorem Discarded.lives_iff (h : c.Discarded key f c') (id : Nat) : c'.Lives id ↔ c.Lives id := by
  rw [Lives, Lives, h.memory, h.window.1, h.held]

theorem Discarded.unknown (h : c.Discarded key f c') (hu : c.Unknown key) : c'.Unknown key where
  resident := by
    rw [h.memory]
    exact hu.resident
  lingering := by
    intro v hv hlives
    rw [h.lives_iff] at hlives
    exact hu.lingering v ((h.alive key v hlives).mp hv) hlives

/-- A miss, and no more. -/
structure Misses (c c' : Cache α) : Prop where
  archive : c'.archive = c.archive
  volume : c'.volume = c.volume
  stats : c'.stats = { c.stats with misses := c.stats.misses + 1 }

/-- A record that is gone is not met again. -/
theorem Discarded.find (h : c.Discarded (Key.normalize key) f c')
    (hu : c.Unknown (Key.normalize key)) : ∃ c₂, c'.find key f = .ok (none, c₂) ∧ c'.Misses c₂ := by
  have hsame : c'.archive.set f (c'.archive.get f) = c'.archive := by cases f <;> rfl
  rw [(h.unknown hu).find_eq]
  simp only [getRecord, Cache.passed, h.record.get_eq, hsame, countMiss]
  exact ⟨_, rfl, rfl, rfl, rfl⟩

/-- Keys with the same normalized form are looked up alike. -/
theorem find_congr {key' : String} (hk : Key.normalize key' = Key.normalize key) (c : Cache α)
    (f : Family) : c.find key' f = c.find key f := by
  simp only [Cache.find, hk]

/-- A value that was found, and is held, is found again whatever has become of the disk; a record
that cannot be decoded goes at the first look-up, which leaves memory and all values that are alive
as they were, and the next look-up just misses. -/
theorem find_repeats (h : c.Reached p) {key' : String}
    (hk : Key.normalize key' = Key.normalize key) (f : Family) :
    (∀ v c₁, c.find key f = .ok (some v, c₁) → ∀ f' archive volume, ∃ c₂,
      Cache.find { c₁.hold v.id with archive, volume } key' f' = .ok (some v, c₂) ∧
        FoundNear { c₁.hold v.id with archive, volume } c₂) ∧
    (c.MeetsBroken (Key.normalize key) f → ∃ c₁ c₂, c.find key f = .ok (none, c₁) ∧
      c.Discarded (Key.normalize key) f c₁ ∧ c₁.find key' f = .ok (none, c₂) ∧ c₁.Misses c₂) := by
  constructor
  · intro v c₁ hfound f' archive volume
    have hhand : AtHand { c₁.hold v.id with archive, volume } (Key.normalize key) v :=
      (AtHand.of_find h.orderly hfound).congr rfl rfl rfl
    rw [find_congr hk]
    exact hhand.find List.mem_cons_self f'
  · intro hbroken
    obtain ⟨c₁, hfind, hgone⟩ := hbroken.find
    obtain ⟨c₂, hagain, hmiss⟩ := hgone.find hbroken.toUnknown
    exact ⟨c₁, c₂, hfind, hgone, (find_congr hk c₁ f).trans hagain, hmiss⟩

/-- No window, room for one byte in memory, and values that do not begin with a zero. -/
def pickyDesign : Design (List UInt8) := { narrowDesign with
  kind := { plainBytes with
    decode := fun bytes =>
      if bytes.head? = some 0 then .error (.decode .malformed) else .ok bytes } }

/-- Two records on disk, one of them too large for memory and one broken, and nothing in memory. -/
def shelvedPair : List (Move (List UInt8)) := [
  .make [1, 2], .put "a" ⟨0, [1, 2]⟩ (.disk .general .normal), .release 0,
  .make [0], .put "b" ⟨1, [0]⟩ (.disk .general .normal), .release 1,
  .clearResident, .clearLingering]

theorem find_repeats_shelvedPair : ∃ c : Cache (List UInt8), c.Reached pickyDesign ∧
    (∃ c₁ c₂, c.find "a" .general = .ok (some ⟨2, [1, 2]⟩, c₁) ∧
      (c₁.hold 2).find "#W3#H4a" .permanent = .ok (some ⟨2, [1, 2]⟩, c₂)) ∧
    ∃ c₁ c₂, c.find "b" .general = .ok (none, c₁) ∧ c₁.find "#W3#H4b" .general = .ok (none, c₂) ∧
      c₁.Misses c₂ := by
  obtain ⟨c, h, hcheck⟩ := exists_reached pickyDesign .empty shelvedPair
    (fun c => decide (((c.find "a" .general).toOption.any fun out => out.1 = some ⟨2, [1, 2]⟩) ∧
      c.memory.entries.get? "b" = none ∧ c.overflow.refs.get? "b" = none ∧
      ((c.archive.get .general).get c.volume (.ofKey "b")).1 = some [0] ∧
      (c.kind.decode [0]).toOption = none))
    (b := true) (by decide +kernel)
  obtain ⟨hfound, hmemory, hrefs, hrecord, hdecode⟩ := of_decide_eq_true hcheck
  obtain ⟨⟨found, c₁⟩, hfirst, hfound⟩ := exists_of_any hfound
  obtain rfl : found = some ⟨2, [1, 2]⟩ := of_decide_eq_true hfound
  obtain ⟨problem, hproblem⟩ := toOption_eq_none_iff.mp hdecode
  have hb : Key.normalize "b" = "b" := by decide +kernel
  have hbroken : c.MeetsBroken (Key.normalize "b") .general := by
    rw [hb]
    exact ⟨⟨hmemory, by simp [hrefs]⟩, [0], problem, hrecord, hproblem⟩
  have hka : Key.normalize "#W3#H4a" = Key.normalize "a" := by decide +kernel
  have hkb : Key.normalize "#W3#H4b" = Key.normalize "b" := by decide +kernel
  obtain ⟨c₂, hsecond, -⟩ :=
    (find_repeats h hka .general).1 _ c₁ hfirst .permanent c₁.archive c₁.volume
  obtain ⟨d₁, d₂, hd₁, -, hd₂, hmiss⟩ := (find_repeats h hkb .general).2 hbroken
  exact ⟨c, h, ⟨c₁, c₂, hfirst, hsecond⟩, d₁, d₂, hd₁, hd₂, hmiss⟩

end Cache

end TierCache
