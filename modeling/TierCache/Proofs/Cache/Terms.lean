import TierCache.Proofs.Cache.Layout
import TierCache.Proofs.Cache.Tiers

/-!
# What a cache shows and what it has on disk

Terms say what a look-up may come upon in memory, and what a record may have been made of. A cache
that upholds its terms keeps to them under every call, as long as what is put is allowed by them,
and what a record may be made of may also be shown. A call that removes or replaces leaves the
cache under narrower terms.
-/
namespace TierCache

open Disk

variable {α : Type}

structure Terms (α : Type) where
  /-- A look-up of the key may come upon the value in memory. -/
  shows : String → α → Prop
  /-- A record of the digest may have been made of the value. -/
  records : Family → Digest → α → Prop

namespace Terms

def free : Terms α := ⟨fun _ _ => True, fun _ _ _ => True⟩

/-- What a record of the terms is made of. -/
def Encoded (t : Terms α) (kind : ValueKind α) (f : Family) (d : Digest) (bytes : List UInt8) :
    Prop := ∃ x, t.records f d x ∧ kind.encode x = .ok bytes

/-- What is read under a key in a family may be shown. -/
def Reads (t : Terms α) (key : String) (f : Family) : Prop :=
  ∀ x, t.records f (.ofKey key) x → t.shows key x

end Terms

/-- What a cache shows in memory, and what it has on disk, is within its terms. -/
structure Cache.Upholds (kind : ValueKind α) (l : Layout) (free : Option Nat) (t : Terms α)
    (c : Cache α) : Prop where
  kind_eq : c.kind = kind
  free_eq : c.volume.free = free
  seen : ∀ k x, shown c.memory c.overflow k = some x → t.shows k x
  stocked : c.archive.Stocked (l.sites free) (t.Encoded kind) c.volume

namespace Cache

theorem putResident_ok {c c' : Cache α} {key : String} {v : Shared α} {cost : Nat}
    (h : c.putResident key v cost = .ok c') :
    c'.kind = c.kind ∧ c'.archive = c.archive ∧ c'.volume = c.volume ∧
      ∀ k, shown c'.memory c'.overflow k =
        if k = key then some v.value else shown c.memory c.overflow k := by
  simp only [putResident] at h
  obtain ⟨r, hr, h⟩ := bind_eq_ok_iff.mp h
  cases h
  exact ⟨rfl, rfl, rfl, shown_put hr c.overflow⟩

namespace Upholds

variable {kind : ValueKind α} {l : Layout} {free : Option Nat} {t t' : Terms α}
variable {c c' : Cache α} {key : String}

theorem mono (h : c.Upholds kind l free t) (hs : ∀ k x, t.shows k x → t'.shows k x)
    (hr : ∀ f d x, t.records f d x → t'.records f d x) : c.Upholds kind l free t' where
  kind_eq := h.kind_eq
  free_eq := h.free_eq
  seen := fun k x hx => hs k x (h.seen k x hx)
  stocked := h.stocked.mono fun f d _ ⟨x, hx, he⟩ => ⟨x, hr f d x hx, he⟩

/-- What the tiers in memory show may change. -/
theorem of_tiers (h : c.Upholds kind l free t) (hk : c'.kind = c.kind)
    (ha : c'.archive = c.archive) (hv : c'.volume = c.volume)
    (hs : ∀ k x, shown c'.memory c'.overflow k = some x → t.shows k x) :
    c'.Upholds kind l free t where
  kind_eq := hk.trans h.kind_eq
  free_eq := hv ▸ h.free_eq
  seen := hs
  stocked := ha ▸ hv ▸ h.stocked

/-- Nothing is shown by a cache that is made over stocked stores. -/
theorem of_new {a : Archive} {w : Volume} (hs : a.Stocked (l.sites free) (t.Encoded kind) w)
    (hf : w.free = free) (memoryCapacity overflowWindow : Nat) :
    (Cache.new kind memoryCapacity overflowWindow a w).Upholds kind l free t where
  kind_eq := rfl
  free_eq := hf
  seen := by
    intro k x hx
    cases hx
  stocked := hs

/-- What is put is shown in the place of what its key showed before. -/
theorem putResident_replacing (h : c.Upholds kind l free ⟨t.shows, t'.records⟩) {v : Shared α}
    {cost : Nat} (hs : ∀ k x, k ≠ key → t.shows k x → t'.shows k x) (hv : t'.shows key v.value)
    (hc : c.putResident key v cost = .ok c') : c'.Upholds kind l free t' := by
  obtain ⟨hk, ha, hvol, hshown⟩ := putResident_ok hc
  refine ⟨hk.trans h.kind_eq, hvol ▸ h.free_eq, fun k x hx => ?_, ha ▸ hvol ▸ h.stocked⟩
  rw [hshown] at hx
  split at hx
  · rename_i he
    cases hx
    exact he ▸ hv
  · rename_i hne
    exact hs k x hne (h.seen k x hx)

theorem putResident (h : c.Upholds kind l free t) {v : Shared α} {cost : Nat}
    (hv : t.shows key v.value) (hc : c.putResident key v cost = .ok c') :
    c'.Upholds kind l free t :=
  h.putResident_replacing (fun _ _ _ hs => hs) hv hc

/-- A call of one store that writes nothing leaves its records what they are. -/
theorem act (h : c.Upholds kind l free t) (f : Family) (x : Action)
    (hx : ∀ d bytes r, x ≠ .put d bytes r) :
    Cache.Upholds kind l free t { c with
      archive := c.archive.set f (Slot.act (c.archive.get f) c.volume x).2.1
      volume := (Slot.act (c.archive.get f) c.volume x).2.2 } where
  kind_eq := h.kind_eq
  free_eq := (Slot.free_act _ _ _).trans h.free_eq
  seen := h.seen
  stocked := by
    refine h.stocked.act (l.apart free) f x (fun sh _ hrows e he => ?_) fun _ _ _ _ h => h
    obtain ⟨e', he', hd, hb⟩ := Disk.Shelf.rows_of_ne_put hx he
    rw [← hd, ← hb]
    exact hrows e' he'

theorem getRecord (h : c.Upholds kind l free t)
    (hd : ∀ x bytes, kind.encode x = .ok bytes → kind.decode bytes = .ok x) {f : Family}
    (ht : t.Reads key f) {found : Option (Shared α)} (hc : c.getRecord key f = .ok (found, c')) :
    c'.Upholds kind l free t ∧ ∀ v, found = some v → t.shows key v.value := by
  have hread := h.act f (.get (.ofKey key)) (by simp)
  simp only [Cache.getRecord] at hc
  split at hc
  · cases hc
    exact ⟨hread.of_tiers rfl rfl rfl hread.seen, fun v hv => by cases hv⟩
  · rename_i bytes hb
    obtain ⟨x, hx, henc⟩ := h.stocked.good_of_get hb
    have hdec := hd x bytes henc
    rw [← h.kind_eq] at hdec
    simp only [hdec, share, bringIn] at hc
    obtain ⟨c₁, hput, hc⟩ := bind_eq_ok_iff.mp hc
    cases hc
    have hshared : Cache.Upholds kind l free t { c with
        archive := c.archive.set f (Slot.act (c.archive.get f) c.volume (.get (.ofKey key))).2.1
        volume := (Slot.act (c.archive.get f) c.volume (.get (.ofKey key))).2.2
        nextId := c.nextId + 1 } := hread.of_tiers rfl rfl rfl hread.seen
    have hin := hshared.putResident (v := ⟨c.nextId, x⟩) (ht x hx) hput
    refine ⟨hin.of_tiers rfl rfl rfl hin.seen, fun v hv => ?_⟩
    cases hv
    exact ht x hx

/-- A look-up comes upon what may be shown, in whichever tier. -/
theorem find (h : c.Upholds kind l free t)
    (hd : ∀ x bytes, kind.encode x = .ok bytes → kind.decode bytes = .ok x) {f : Family}
    (ht : t.Reads (Key.normalize key) f) {found : Option (Shared α)}
    (hc : c.find key f = .ok (found, c')) :
    c'.Upholds kind l free t ∧ ∀ v, found = some v → t.shows (Key.normalize key) v.value := by
  have hmem : Cache.Upholds kind l free t
      { c with memory := (c.memory.get (Key.normalize key)).2 } := by
    refine h.of_tiers rfl rfl rfl fun k x hx => h.seen k x ?_
    rw [← hx]
    exact (shown_congr (by rw [Resident.entries_get]) rfl).symm
  simp only [Cache.find] at hc
  split at hc
  · rename_i v hv
    cases hc
    obtain ⟨e, he, rfl⟩ := Resident.entry_of_get hv
    refine ⟨hmem.of_tiers rfl rfl rfl hmem.seen, fun v hv => ?_⟩
    cases hv
    exact h.seen _ _ (shown_of_entry he)
  · rename_i hv
    have hnone := Resident.none_of_get hv
    have hover : Cache.Upholds kind l free t { c with
        memory := (c.memory.get (Key.normalize key)).2
        overflow := (c.overflow.get (Cache.inUse { c with
          memory := (c.memory.get (Key.normalize key)).2 }) (Key.normalize key)).2 } :=
      hmem.of_tiers rfl rfl rfl fun k x hx =>
        hmem.seen k x (shown_of_refs (fun _ => Lingering.refs_get) hx)
    split at hc
    · rename_i v hov
      have hs : t.shows (Key.normalize key) v.value := by
        refine h.seen _ _ ?_
        rw [shown_of_none hnone, Lingering.refs_of_get hov]
        rfl
      simp only [bringIn] at hc
      obtain ⟨c₁, hput, hc⟩ := bind_eq_ok_iff.mp hc
      cases hc
      have hin := hover.putResident hs hput
      refine ⟨hin.of_tiers rfl rfl rfl hin.seen, fun w hw => ?_⟩
      cases hw
      exact hs
    · exact hover.getRecord hd ht hc

/-- The record of a write that does not fail takes the place of the one of its digest. A store that
is not there has no record to be replaced. -/
theorem replaced (h : c.Upholds kind l free t) {f : Family} {r : Retention} {x : α}
    {bytes : List UInt8} (henc : kind.encode x = .ok bytes)
    (hout : ((c.archive.get f).put c.volume (.ofKey key) bytes r).1 ≠ .failed)
    (hr : ∀ g d y, d ≠ .ofKey key ∨ g ≠ f → t.records g d y → t'.records g d y)
    (hx : t'.records f (.ofKey key) x) :
    (c.archive.set f (Slot.act (c.archive.get f) c.volume
        (.put (.ofKey key) bytes r)).2.1).Stocked (l.sites free) (t'.Encoded kind)
      (Slot.act (c.archive.get f) c.volume (.put (.ofKey key) bytes r)).2.2 := by
  refine h.stocked.act (l.apart free) f _ (fun sh hans hrows e he => ?_)
    fun g hg d b ⟨y, hy, hb⟩ => ⟨y, hr g d y (.inr hg) hy, hb⟩
  have hb : sh.blocked (.ofKey key) r = false := by
    rw [← Bool.not_eq_true]
    intro hb
    simp only [Slot.act, Disk.Shelf.act, hb, if_true, Answer.written.injEq] at hans
    exact hout hans
  simp only [Disk.Shelf.act, hb, Bool.false_eq_true, if_false] at he
  rcases Disk.Shelf.mem_rows_add.mp (Disk.Shelf.mem_rows_without.mp he).1 with ⟨he, hd⟩ | rfl
  · obtain ⟨y, hy, hb⟩ := hrows e he
    exact ⟨y, hr f _ y (.inl hd) hy, hb⟩
  · exact ⟨x, hx, henc⟩

/-- A write that may fail leaves the record it would have replaced. -/
theorem added (h : c.Upholds kind l free t) {f : Family} {r : Retention} {x : α}
    {bytes : List UInt8} (henc : kind.encode x = .ok bytes) (hx : t.records f (.ofKey key) x) :
    (c.archive.set f (Slot.act (c.archive.get f) c.volume
        (.put (.ofKey key) bytes r)).2.1).Stocked (l.sites free) (t.Encoded kind)
      (Slot.act (c.archive.get f) c.volume (.put (.ofKey key) bytes r)).2.2 := by
  refine h.stocked.act (l.apart free) f _ (fun sh _ hrows e he => ?_) fun _ _ _ _ h => h
  simp only [Disk.Shelf.act] at he
  split at he
  · exact hrows e he
  · rcases Disk.Shelf.mem_rows_add.mp (Disk.Shelf.mem_rows_without.mp he).1 with ⟨he, -⟩ | rfl
    · exact hrows e he
    · exact ⟨x, hx, henc⟩

theorem writeRecord_ok (key : String) {x : α} {bytes : List UInt8}
    (henc : c.kind.encode x = .ok bytes) (f : Family) (r : Retention) :
    (c.writeRecord key x f r).archive =
        c.archive.set f (Slot.act (c.archive.get f) c.volume (.put (.ofKey key) bytes r)).2.1 ∧
      (c.writeRecord key x f r).volume =
        (Slot.act (c.archive.get f) c.volume (.put (.ofKey key) bytes r)).2.2 := by
  simp only [Cache.writeRecord, henc]
  split
  · exact ⟨rfl, rfl⟩
  · exact ⟨rfl, rfl⟩

/-- Only the records of a cache are concerned by a write. -/
theorem written (h : c.Upholds kind l free t) {f : Family} {r : Retention} {x : α}
    {bytes : List UInt8} (henc : kind.encode x = .ok bytes)
    (hs : (c.archive.set f (Slot.act (c.archive.get f) c.volume
        (.put (.ofKey key) bytes r)).2.1).Stocked (l.sites free) (t'.Encoded kind)
      (Slot.act (c.archive.get f) c.volume (.put (.ofKey key) bytes r)).2.2) :
    (c.writeRecord key x f r).Upholds kind l free ⟨t.shows, t'.records⟩ := by
  obtain ⟨hk, hm, ho, -⟩ := c.tiers_writeRecord key x f r
  obtain ⟨ha, hv⟩ := writeRecord_ok key (h.kind_eq ▸ henc) f r
  refine ⟨hk.trans h.kind_eq, ?_, ?_, ?_⟩
  · rw [hv]
    exact (Slot.free_act _ _ _).trans h.free_eq
  · rw [hm, ho]
    exact h.seen
  · rw [ha, hv]
    exact hs

theorem writeRecord (h : c.Upholds kind l free t) {f : Family} {x : α}
    (hx : t.records f (.ofKey key) x) (r : Retention) :
    (c.writeRecord key x f r).Upholds kind l free t := by
  cases henc : kind.encode x with
  | error e =>
    rw [Cache.writeRecord, h.kind_eq, henc]
    exact h
  | ok bytes => exact h.written henc (h.added henc hx)

/-- What is put, if its write does not fail, takes the place of what its key was given before. -/
theorem putCosting_replacing (h : c.Upholds kind l free t) {v : Shared α} {cost : Nat} {f : Family}
    {r : Retention} {bytes : List UInt8} (henc : kind.encode v.value = .ok bytes)
    (hout : ((c.archive.get f).put c.volume (.ofKey (Key.normalize key)) bytes r).1 ≠ .failed)
    (hs : ∀ k x, k ≠ Key.normalize key → t.shows k x → t'.shows k x)
    (hr : ∀ g d x, d ≠ .ofKey (Key.normalize key) ∨ g ≠ f → t.records g d x → t'.records g d x)
    (hshown : t'.shows (Key.normalize key) v.value)
    (hrecorded : t'.records f (.ofKey (Key.normalize key)) v.value)
    (hc : c.putCosting key v cost (.disk f r) = .ok c') : c'.Upholds kind l free t' :=
  (h.written henc (h.replaced henc hout hr hrecorded)).putResident_replacing hs hshown hc

theorem put (h : c.Upholds kind l free t) {v : Shared α} {f : Family} {r : Retention}
    (hshown : t.shows (Key.normalize key) v.value)
    (hrecorded : t.records f (.ofKey (Key.normalize key)) v.value)
    (hc : c.put key v (.disk f r) = .ok c') : c'.Upholds kind l free t :=
  (h.writeRecord hrecorded r).putResident hshown hc

/-- A call of each store that writes nothing. -/
theorem forEach (h : c.Upholds kind l free t) (x : Action) {β : Type}
    {act : Slot → Volume → β × Slot × Volume}
    (hact : ∀ slot v, (act slot v).2 = (Slot.act slot v x).2)
    (hx : ∀ d bytes r, x ≠ .put d bytes r) :
    (c.archive.forEach c.volume act).2.1.Stocked (l.sites free) (t.Encoded kind)
      (c.archive.forEach c.volume act).2.2 := by
  refine h.stocked.forEach (l.apart free) x hact fun f now sh hrows e he => ?_
  obtain ⟨e', he', hd, hb⟩ := Disk.Shelf.rows_of_ne_put hx he
  rw [← hd, ← hb]
  exact hrows e' he'

theorem remove (h : c.Upholds kind l free t) (key : String)
    (hs : ∀ k x, k ≠ Key.normalize key → t.shows k x → t'.shows k x)
    (hr : ∀ f d x, d ≠ .ofKey (Key.normalize key) → t.records f d x → t'.records f d x) :
    (c.remove key).Upholds kind l free t' where
  kind_eq := h.kind_eq
  free_eq := (Archive.free_forEach (.remove _) (fun _ _ => rfl) _ _).trans h.free_eq
  seen := by
    intro k x hx
    simp only [Cache.remove, shown_remove, Option.ite_none_left_eq_some] at hx
    exact hs k x hx.1 (h.seen k x hx.2)
  stocked := by
    refine h.stocked.forEach (l.apart free) (.remove (.ofKey (Key.normalize key)))
      (fun _ _ => rfl) fun f now sh hrows e he => ?_
    obtain ⟨he, hd⟩ := Disk.Shelf.mem_rows_without.mp he
    obtain ⟨x, hx, henc⟩ := hrows e he
    exact ⟨x, hr f _ x (by simpa using hd) hx, henc⟩

/-- Only what the predicate rejects is left: in memory by its key, on disk by the key in the
record. -/
theorem removeIf (h : c.Upholds kind l free t) (p : String → Bool)
    (hs : ∀ k x, p k = false → t.shows k x → t'.shows k x)
    (hr : ∀ f d x bytes, kind.encode x = .ok bytes →
      ((kind.storedKey bytes).any fun key => p (Key.normalize key)) = false →
      t.records f d x → t'.records f d x) :
    (c.removeIf p).2.Upholds kind l free t' where
  kind_eq := h.kind_eq
  free_eq := (Archive.free_forEach (.removeIf _) (fun _ _ => rfl) _ _).trans h.free_eq
  seen := by
    intro k x hx
    simp only [Cache.removeIf, shown_keepIf, Option.ite_none_right_eq_some,
      Bool.not_eq_true'] at hx
    exact hs k x hx.1 (h.seen k x hx.2)
  stocked := by
    refine h.stocked.forEach (l.apart free) (.removeIf fun _ bytes =>
      (c.kind.storedKey bytes).any fun key => p (Key.normalize key))
      (fun _ _ => rfl) fun f now sh hrows e he => ?_
    obtain ⟨he, hd⟩ := Disk.Shelf.mem_rows_without.mp he
    obtain ⟨x, hx, henc⟩ := hrows e he
    refine ⟨x, hr f _ x e.bytes henc ?_ hx, henc⟩
    rw [← h.kind_eq, ← Bool.not_eq_true]
    exact fun hp => hd (List.mem_map.mpr ⟨e, List.mem_filter.mpr ⟨he, hp⟩, rfl⟩)

/-- An empty cache upholds any terms. -/
theorem clear (h : c.Upholds kind l free t) : c.clear.Upholds kind l free t' where
  kind_eq := h.kind_eq
  free_eq := (Archive.free_forEach .wipe (fun _ _ => rfl) _ _).trans h.free_eq
  seen := by
    intro k x hx
    simp only [Cache.clear, shown_clear] at hx
    cases hx
  stocked := by
    refine h.stocked.forEach (l.apart free) .wipe (fun _ _ => rfl) fun f now sh _ e he => ?_
    cases he

theorem sweep (h : c.Upholds kind l free t) : c.sweep.2.Upholds kind l free t where
  kind_eq := h.kind_eq
  free_eq := (Archive.free_forEach .shrink (fun _ _ => rfl) _ _).trans h.free_eq
  seen := fun k x hx => h.seen k x (shown_of_refs (fun _ => Lingering.refs_forgetDead) hx)
  stocked := h.forEach .shrink (fun _ _ => rfl) (by simp)

theorem resizeMemory (h : c.Upholds kind l free t) (capacity : Nat) :
    (c.resizeMemory capacity).Upholds kind l free t := by
  refine h.of_tiers rfl rfl rfl fun k x hx => h.seen k x ?_
  rwa [Cache.resizeMemory, shown_resize] at hx

theorem clearLingering (h : c.Upholds kind l free t) :
    c.clearLingering.Upholds kind l free t := by
  refine h.of_tiers rfl rfl rfl fun k x hx => h.seen k x (shown_of_refs (fun v hv => ?_) hx)
  cases hv

/-- With nothing in memory, what the overflow tier remembers is shown. -/
theorem clearResident (h : c.Upholds kind l free t)
    (ho : ∀ k v, c.overflow.refs.get? k = some v → t.shows k v.value) :
    c.clearResident.Upholds kind l free t := by
  refine h.of_tiers rfl rfl rfl fun k x hx => ?_
  change (c.overflow.refs.get? k).map Shared.value = some x at hx
  obtain ⟨v, hv, rfl⟩ := Option.map_eq_some_iff.mp hx
  exact ho k v hv

theorem setTime (h : c.Upholds kind l free t) (now : Int) :
    Cache.Upholds kind l free t { c with volume := { c.volume with clock := now } } :=
  ⟨h.kind_eq, h.free_eq, h.seen, h.stocked.setClock now⟩

/-- A cache that is made over a directory without records upholds any terms. -/
theorem started {v w : Volume} {a : Archive} (hv : l.Usable v) (hs : l.start v = .ok (a, w))
    (kind : ValueKind α) (memoryCapacity overflowWindow : Nat) :
    (Cache.new kind memoryCapacity overflowWindow a w).Upholds kind l v.free t := by
  obtain ⟨hs, hf⟩ := hv.started hs (t.Encoded kind)
  exact .of_new hs hf _ _

/-- A cache that is made again over its directory has the same records or fewer. -/
theorem reopened (h : c.Upholds kind l free t) {a : Archive} {w : Volume}
    (hs : l.start c.volume = .ok (a, w)) (memoryCapacity overflowWindow : Nat) :
    (Cache.new kind memoryCapacity overflowWindow a w).Upholds kind l free t := by
  have hst := h.stocked
  rw [← h.free_eq] at hst
  obtain ⟨hst, hf⟩ := Layout.restarted hst hs
  rw [h.free_eq] at hst hf
  exact .of_new hst hf _ _

end Upholds

end Cache

end TierCache
