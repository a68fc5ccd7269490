import TierCache.Proofs.Cache.Ownership
import TierCache.Proofs.Cache.Provenance
import TierCache.Proofs.Cache.Terms

/-!
# What is left after removing by a predicate

Two caches agree on a key when no look-up of it can tell them apart: the tiers in memory hold the
same for it, the records of its family read alike, and the second one has no less room in memory.
Removing by a predicate leaves a cache that agrees with the old one on every key that is kept, as
long as the records of the key are kept too.
-/
namespace TierCache

open Disk

variable {α : Type}

namespace Cache

variable {kind : ValueKind α} {l : Layout} {free : Option Nat} {t t' : Terms α}
variable {own : Nat → String} {c c' c₁ : Cache α} {key : String} {f : Family} {v : Shared α}

/-- A number is in use by an entry of its own key only. -/
theorem OwnedBy.inUse_eq (h : c.OwnedBy own) (hm : c.memory.entries.get? key = none)
    (hv : own v.id = key) : c.inUse v.id = c.held.contains v.id := by
  rw [inUse, Bool.or_eq_left_iff_imp, List.any_eq_true]
  rintro ⟨e, he, hid⟩
  obtain ⟨⟨k, e'⟩, hp, rfl⟩ := List.mem_map.mp he
  have hget := Table.get?_eq_some_iff.mpr hp
  have hk : k = key := by
    rw [← (h.resident k e' hget).1, of_decide_eq_true hid, hv]
  rw [hk, hm] at hget
  cases hget

/-- A value is alive while callers use it, or the window has it under its key. -/
theorem OwnedBy.isAlive_eq (h : c.OwnedBy own) (hm : c.memory.entries.get? key = none)
    (hv : own v.id = key) : c.overflow.isAlive c.inUse v =
      (c.held.contains v.id || (c.overflow.window.get? key).any fun w => w.id = v.id) := by
  rw [Lingering.isAlive, h.inUse_eq hm hv]
  congr 1
  rw [Bool.eq_iff_iff, List.any_eq_true, Option.any_eq_true]
  constructor
  · rintro ⟨w, hw, hid⟩
    obtain ⟨⟨k, w'⟩, hp, rfl⟩ := List.mem_map.mp hw
    have hget := Table.get?_eq_some_iff.mpr hp
    have hk : k = key := by
      rw [← (h.window k w' hget).1, of_decide_eq_true hid, hv]
    exact ⟨w', hk ▸ hget, hid⟩
  · rintro ⟨w, hw, hid⟩
    exact ⟨w, List.mem_map.mpr ⟨(key, w), Table.get?_eq_some_iff.mp hw, rfl⟩, hid⟩

/-- A look-up of the key in the family cannot tell the second cache from the first. -/
structure AgreesAt (key : String) (f : Family) (c c' : Cache α) : Prop where
  kind_eq : c'.kind = c.kind
  entry : c'.memory.entries.get? key = c.memory.entries.get? key
  room : c'.memory.totalCost ≤ c.memory.totalCost
  ref : c'.overflow.refs.get? key = c.overflow.refs.get? key
  kept : c'.overflow.window.get? key = c.overflow.window.get? key
  held : c'.held = c.held
  next : c'.nextId = c.nextId
  read : ((c'.archive.get f).get c'.volume (.ofKey key)).1 =
    ((c.archive.get f).get c.volume (.ofKey key)).1

/-- Only the total cost decides whether a value can be brought into memory. -/
theorem putResident_of_le (c' : Cache α) {cost : Nat} (hc : c.putResident key v cost = .ok c₁)
    (hm : c.memory.entries.get? key = none) (hle : c'.memory.totalCost ≤ c.memory.totalCost) :
    ∃ c₂, c'.putResident key v cost = .ok c₂ := by
  simp only [Cache.putResident] at hc ⊢
  obtain ⟨r, hr, -⟩ := bind_eq_ok_iff.mp hc
  obtain ⟨r', hr'⟩ := Resident.put_of_le hr hm hle
  exact ⟨_, bind_eq_ok_iff.mpr ⟨r', hr', rfl⟩⟩

namespace AgreesAt

theorem getRecord (h : AgreesAt key f c c') (hm : c.memory.entries.get? key = none)
    {found : Option (Shared α)} (hc : c.getRecord key f = .ok (found, c₁)) :
    ∃ c₂, c'.getRecord key f = .ok (found, c₂) := by
  simp only [Cache.getRecord, h.read, h.kind_eq] at hc ⊢
  split at hc
  · cases hc
    exact ⟨_, rfl⟩
  · split at hc
    · simp only [share, bringIn, h.next] at hc ⊢
      obtain ⟨c₂, hput, hc⟩ := bind_eq_ok_iff.mp hc
      cases hc
      obtain ⟨c₃, hput'⟩ := putResident_of_le { c' with
        kind := c.kind
        archive := c'.archive.set f ((c'.archive.get f).get c'.volume (.ofKey key)).2.1
        volume := ((c'.archive.get f).get c'.volume (.ofKey key)).2.2
        nextId := c.nextId + 1 } hput hm h.room
      exact ⟨_, bind_eq_ok_iff.mpr ⟨c₃, hput', rfl⟩⟩
    · cases hc
      exact ⟨_, rfl⟩

/-- The overflow tiers answer alike, since a value is alive in one exactly when it is in the
other. -/
theorem lingering (h : AgreesAt key f c c') (ho : c.OwnedBy own) (ho' : c'.OwnedBy own)
    (hm : c.memory.entries.get? key = none) :
    (c'.overflow.get c'.inUse key).1 = (c.overflow.get c.inUse key).1 ∧
      AgreesAt key f { c with overflow := (c.overflow.get c.inUse key).2 }
        { c' with overflow := (c'.overflow.get c'.inUse key).2 } := by
  rw [Lingering.get, Lingering.get, h.ref]
  cases hr : c.overflow.refs.get? key with
  | none => exact ⟨rfl, h⟩
  | some v =>
    have hv := (ho.lingering key v hr).1
    have halive : c'.overflow.isAlive c'.inUse v = c.overflow.isAlive c.inUse v := by
      rw [ho.isAlive_eq hm hv, ho'.isAlive_eq (h.entry.trans hm) hv, h.held, h.kept]
    simp only [halive]
    split
    · exact ⟨rfl, h⟩
    · refine ⟨rfl, { h with ref := ?_ }⟩
      rw [Table.get?_erase, Table.get?_erase, if_pos rfl, if_pos rfl]

/-- A look-up finds the same in both caches. -/
theorem find (h : AgreesAt (Key.normalize key) f c c') (ho : c.OwnedBy own) (ho' : c'.OwnedBy own)
    {found : Option (Shared α)} (hc : c.find key f = .ok (found, c₁)) :
    ∃ c₂, c'.find key f = .ok (found, c₂) := by
  have hlooked : AgreesAt (Key.normalize key) f
      { c with memory := (c.memory.get (Key.normalize key)).2 }
      { c' with memory := (c'.memory.get (Key.normalize key)).2 } :=
    { h with
      entry := by rw [Resident.entries_get, Resident.entries_get, h.entry]
      room := by rw [Resident.totalCost_get, Resident.totalCost_get]; exact h.room }
  have howned := ho.looked (Key.normalize key)
  have howned' := ho'.looked (Key.normalize key)
  simp only [Cache.find] at hc ⊢
  split at hc
  · rename_i v hv
    cases hc
    obtain ⟨e, he, rfl⟩ := Resident.entry_of_get hv
    have hv' : (c'.memory.get (Key.normalize key)).1 = some e.value := by
      rw [Resident.get, h.entry, he]
    simp only [hv']
    exact ⟨_, rfl⟩
  · rename_i hv
    have hm := Resident.none_of_get hv
    have hv' : (c'.memory.get (Key.normalize key)).1 = none := by
      rw [Resident.get, h.entry, hm]
    have hlost : (c.memory.get (Key.normalize key)).2.entries.get? (Key.normalize key) = none := by
      rw [Resident.entries_get, hm]
    obtain ⟨hans, hasked⟩ := hlooked.lingering howned howned' hlost
    simp only [hv', hans]
    split at hc
    · rename_i v _
      simp only [bringIn, h.kind_eq] at hc ⊢
      obtain ⟨c₂, hput, hc⟩ := bind_eq_ok_iff.mp hc
      cases hc
      obtain ⟨c₃, hput'⟩ := putResident_of_le { c' with
        kind := c.kind
        memory := (c'.memory.get (Key.normalize key)).2
        overflow := (c'.overflow.get (Cache.inUse { c' with
          memory := (c'.memory.get (Key.normalize key)).2 }) (Key.normalize key)).2 }
        hput hlost hlooked.room
      exact ⟨_, bind_eq_ok_iff.mpr ⟨c₃, hput', rfl⟩⟩
    · exact hasked.getRecord hlost hc

end AgreesAt

/-- A key that the predicate rejects is left alone, if it rejects the keys in its records too. -/
theorem Upholds.agreesAt_removeIf (h : c.Upholds kind l free t) {p : String → Bool}
    (hp : p key = false)
    (hr : ∀ x bytes, t.records f (.ofKey key) x → kind.encode x = .ok bytes →
      (kind.storedKey bytes).any (fun k => p (Key.normalize k)) = false) :
    AgreesAt key f c (c.removeIf p).2 where
  kind_eq := rfl
  entry := by
    simp only [Cache.removeIf, Resident.entries_keepIf, hp, Bool.not_false, if_true]
  room := c.memory.totalCost_keepIf_le _
  ref := by
    simp only [Cache.removeIf, Lingering.refs_keepIf, hp, Bool.not_false, if_true]
  kept := by
    simp only [Cache.removeIf]
    exact Lingering.window_keepIf _ _ (by simp [hp])
  held := rfl
  next := rfl
  read := by
    refine h.stocked.read_removeIf (l.apart free) fun bytes hb => ?_
    obtain ⟨x, hx, henc⟩ := hb
    rw [h.kind_eq]
    exact hr x bytes hx henc

theorem Upholds.find_removeIf (h : c.Upholds kind l free t) (ho : c.Owned) {p : String → Bool}
    (hp : p (Key.normalize key) = false)
    (hr : ∀ x bytes, t.records f (.ofKey (Key.normalize key)) x → kind.encode x = .ok bytes →
      (kind.storedKey bytes).any (fun k => p (Key.normalize k)) = false)
    {found : Option (Shared α)} (hc : c.find key f = .ok (found, c₁)) :
    ∃ c₂, (c.removeIf p).2.find key f = .ok (found, c₂) :=
  let ⟨_, ho⟩ := ho
  (h.agreesAt_removeIf hp hr).find ho (ho.removeIf p) hc

/-- Where nothing may be shown or recorded, nothing is found. -/
theorem Upholds.find_none (h : c.Upholds kind l free t)
    (hs : ∀ x, ¬ t.shows (Key.normalize key) x)
    (hr : ∀ x, ¬ t.records f (.ofKey (Key.normalize key)) x) :
    ∃ c', c.find key f = .ok (none, c') := by
  have hm : c.memory.entries.get? (Key.normalize key) = none := by
    rw [Option.eq_none_iff_forall_ne_some]
    exact fun e he => hs _ (h.seen _ _ (shown_of_entry he))
  have ho : c.overflow.refs.get? (Key.normalize key) = none := by
    rw [Option.eq_none_iff_forall_ne_some]
    intro v hv
    refine hs v.value (h.seen _ _ ?_)
    rw [shown_of_none hm, hv]
    rfl
  have hd : ((c.archive.get f).get c.volume (.ofKey (Key.normalize key))).1 = none := by
    rw [Option.eq_none_iff_forall_ne_some]
    intro bytes hb
    obtain ⟨x, hx, -⟩ := h.stocked.good_of_get hb
    exact hr x hx
  obtain ⟨c', hc, -⟩ := Cache.find_none (by rw [Resident.get, hm]) ho hd
  exact ⟨c', hc⟩

/-- Nothing of a key is left that the predicate accepts, if it accepts the keys in its records
too. -/
theorem Upholds.removed (h : c.Upholds kind l free t) {p : String → Bool} (hp : p key = true)
    (hr : ∀ f x bytes, t.records f (.ofKey key) x → kind.encode x = .ok bytes →
      (kind.storedKey bytes).any (fun k => p (Key.normalize k)) = true) :
    (c.removeIf p).2.Upholds kind l free
      ⟨fun k _ => k ≠ key, fun _ d _ => d ≠ .ofKey key⟩ := by
  refine h.removeIf p (fun k x hk _ he => ?_) fun f d x bytes henc hkept hx he => ?_
  · rw [he, hp] at hk
    cases hk
  · subst he
    rw [hr f x bytes hx henc] at hkept
    cases hkept

end Cache

end TierCache
