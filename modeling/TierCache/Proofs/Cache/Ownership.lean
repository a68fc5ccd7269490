import TierCache.Proofs.Cache.Contents

/-!
# The numbers of values

A value is told apart by its number, and whether it is alive depends on who uses that number. In a
cache that numbers all values itself, each number belongs to one key: values travel between memory,
the overflow tier and its window under the key they were first put under.
-/
namespace TierCache

variable {α : Type}

namespace Lingering

variable {P Q : String → Shared α → Prop} {o o' : Lingering α} {key : String}

theorem window_narrowRounds {n : Nat} {k : String} {v : Shared α}
    (h : (narrowRounds n o).window.get? k = some v) : o.window.get? k = some v := by
  induction n generalizing o with
  | zero => exact h
  | succ n ih =>
    rw [narrowRounds] at h
    split at h
    · exact h
    · split at h
      · exact h
      · have hk := ih h
        rw [Table.get?_erase, Option.ite_none_left_eq_some] at hk
        exact hk.2

theorem window_put {k : String} {v w : Shared α} (h : (o.put key v).window.get? k = some w) :
    k = key ∧ w = v ∨ o.window.get? k = some w := by
  rw [put] at h
  simp only at h
  split at h
  · exact .inr h
  · have hw := window_narrowRounds h
    rw [Table.get?_set] at hw
    split at hw
    · cases hw
      exact .inl ⟨‹_›, rfl⟩
    · exact .inr hw

theorem window_foldl_remove (keys : List String) (o : Lingering α) (k : String) :
    (keys.foldl remove o).window.get? k = if k ∈ keys then none else o.window.get? k := by
  induction keys generalizing o with
  | nil => rfl
  | cons key keys ih =>
    rw [List.foldl_cons, ih, remove, Table.get?_erase]
    by_cases hk : k = key
    · simp [hk]
    · simp [hk]

/-- The window is cleared of keys that the tier knows. -/
theorem window_keepIf (o : Lingering α) (keep : String → Bool) {k : String}
    (hk : keep k = true) : (o.keepIf keep).window.get? k = o.window.get? k := by
  rw [keepIf, window_foldl_remove, if_neg]
  simp [hk]

theorem window_of_keepIf {keep : String → Bool} {k : String} {v : Shared α}
    (h : (o.keepIf keep).window.get? k = some v) : o.window.get? k = some v := by
  rw [keepIf, window_foldl_remove, Option.ite_none_left_eq_some] at h
  exact h.2

/-- All values in the window have the property. -/
def AllInWindow (P : String → Shared α → Prop) (o : Lingering α) : Prop :=
  ∀ k v, o.window.get? k = some v → P k v

theorem allInWindow_of_empty (h : o.window = .empty) : o.AllInWindow P := by
  intro k v hv
  rw [h] at hv
  cases hv

namespace AllInWindow

theorem mono (h : o.AllInWindow P) (hpq : ∀ k v, P k v → Q k v) : o.AllInWindow Q :=
  fun k v hv => hpq k v (h k v hv)

theorem of_window (h : o.AllInWindow P)
    (ho : ∀ {k v}, o'.window.get? k = some v → o.window.get? k = some v) : o'.AllInWindow P :=
  fun k v hv => h k v (ho hv)

theorem put (h : o.AllInWindow P) {v : Shared α} (hv : P key v) : (o.put key v).AllInWindow P := by
  intro k w hw
  rcases window_put hw with ⟨rfl, rfl⟩ | hw
  · exact hv
  · exact h k w hw

theorem receive (h : o.AllInWindow P) {rs : List (Removal (Shared α))}
    (hrs : ∀ r ∈ rs, P r.key r.value) : (o.receive rs).AllInWindow P := by
  induction rs generalizing o with
  | nil => exact h
  | cons r rs ih =>
    rw [receive_cons]
    refine ih ?_ fun r' hr' => hrs r' (List.mem_cons_of_mem r hr')
    split
    · exact h.put (hrs r List.mem_cons_self)
    · exact h

theorem get (h : o.AllInWindow P) (inUse : Nat → Bool) (key : String) :
    (o.get inUse key).2.AllInWindow P := by
  rw [Lingering.get]
  split
  · exact h
  · split
    · exact h
    · exact h

theorem remove (h : o.AllInWindow P) (key : String) : (o.remove key).AllInWindow P := by
  refine h.of_window fun {k v} hv => ?_
  rw [Lingering.remove, Table.get?_erase, Option.ite_none_left_eq_some] at hv
  exact hv.2

end AllInWindow

end Lingering

/-- The number was given to a value of the key. -/
def Shared.IsOf (own : Nat → String) (next : Nat) (key : String) (v : Shared α) : Prop :=
  own v.id = key ∧ v.id < next

/-- Every value in memory is under the key of its number. -/
structure Cache.OwnedBy (own : Nat → String) (c : Cache α) : Prop where
  resident : c.memory.All (Shared.IsOf own c.nextId)
  lingering : c.overflow.All (Shared.IsOf own c.nextId)
  window : c.overflow.AllInWindow (Shared.IsOf own c.nextId)

def Cache.Owned (c : Cache α) : Prop := ∃ own, c.OwnedBy own

namespace Cache

variable {own : Nat → String} {c c' : Cache α} {key : String}

theorem owned_new (kind : ValueKind α) (memoryCapacity overflowWindow : Nat) (a : Archive)
    (v : Volume) : (Cache.new kind memoryCapacity overflowWindow a v).Owned :=
  ⟨fun _ => "", Resident.all_of_empty rfl, Lingering.all_of_empty rfl,
    Lingering.allInWindow_of_empty rfl⟩

namespace OwnedBy

/-- Only the tiers in memory matter. -/
theorem congr (h : c.OwnedBy own) (hn : c'.nextId = c.nextId) (hm : c'.memory = c.memory)
    (ho : c'.overflow = c.overflow) : c'.OwnedBy own where
  resident := hn ▸ hm ▸ h.resident
  lingering := hn ▸ ho ▸ h.lingering
  window := hn ▸ ho ▸ h.window

theorem putResident (h : c.OwnedBy own) {v : Shared α} (hv : v.IsOf own c.nextId key) {cost : Nat}
    (hc : c.putResident key v cost = .ok c') : c'.OwnedBy own := by
  simp only [Cache.putResident] at hc
  obtain ⟨r, hr, hc⟩ := bind_eq_ok_iff.mp hc
  cases hc
  obtain ⟨hm, hrs⟩ := h.resident.put hv hr
  exact ⟨hm, h.lingering.receive hrs, h.window.receive hrs⟩

theorem looked (h : c.OwnedBy own) (key : String) :
    OwnedBy own { c with memory := (c.memory.get key).2 } :=
  ⟨h.resident.get key, h.lingering, h.window⟩

theorem removeIf (h : c.OwnedBy own) (p : String → Bool) : (c.removeIf p).2.OwnedBy own :=
  ⟨h.resident.keepIf _, h.lingering.keepIf _, h.window.of_window Lingering.window_of_keepIf⟩

/-- A new number is given to the key that its value will be put under. -/
theorem share (h : c.OwnedBy own) (x : α) (key : String) :
    (c.share x).2.OwnedBy (fun n => if n = c.nextId then key else own n) ∧
      (c.share x).1.IsOf (fun n => if n = c.nextId then key else own n) (c.share x).2.nextId
        key := by
  have older : ∀ k (v : Shared α), v.IsOf own c.nextId k →
      v.IsOf (fun n => if n = c.nextId then key else own n) (c.nextId + 1) k := by
    rintro k v ⟨rfl, hlt⟩
    exact ⟨if_neg (Nat.ne_of_lt hlt), Nat.lt_succ_of_lt hlt⟩
  exact ⟨⟨h.resident.mono older, h.lingering.mono older, h.window.mono older⟩, if_pos rfl,
    Nat.lt_succ_self _⟩

end OwnedBy

namespace Owned

theorem congr (h : c.Owned) (hn : c'.nextId = c.nextId) (hm : c'.memory = c.memory)
    (ho : c'.overflow = c.overflow) : c'.Owned :=
  let ⟨own, h⟩ := h
  ⟨own, h.congr hn hm ho⟩

theorem getRecord (h : c.Owned) {f : Family} {found : Option (Shared α)}
    (hc : c.getRecord key f = .ok (found, c')) : c'.Owned := by
  obtain ⟨own, h⟩ := h
  simp only [Cache.getRecord] at hc
  split at hc
  · cases hc
    exact ⟨own, h.congr rfl rfl rfl⟩
  · split at hc
    · rename_i x _
      simp only [bringIn] at hc
      obtain ⟨c₁, hput, hc⟩ := bind_eq_ok_iff.mp hc
      cases hc
      have hread : OwnedBy own { c with
          archive := c.archive.set f ((c.archive.get f).get c.volume (.ofKey key)).2.1
          volume := ((c.archive.get f).get c.volume (.ofKey key)).2.2 } := h.congr rfl rfl rfl
      obtain ⟨hshared, hx⟩ := hread.share x key
      exact ⟨_, (hshared.putResident hx hput).congr rfl rfl rfl⟩
    · cases hc
      exact ⟨own, h.congr rfl rfl rfl⟩

theorem find (h : c.Owned) {f : Family} {found : Option (Shared α)}
    (hc : c.find key f = .ok (found, c')) : c'.Owned := by
  obtain ⟨own, h⟩ := h
  have hmem := h.looked (Key.normalize key)
  simp only [Cache.find] at hc
  split at hc
  · cases hc
    exact ⟨own, hmem.congr rfl rfl rfl⟩
  · have hover : OwnedBy own { c with
        memory := (c.memory.get (Key.normalize key)).2
        overflow := (c.overflow.get (Cache.inUse { c with
          memory := (c.memory.get (Key.normalize key)).2 }) (Key.normalize key)).2 } :=
      ⟨hmem.resident, hmem.lingering.of_refs Lingering.refs_get, hmem.window.get _ _⟩
    split at hc
    · rename_i v hv
      simp only [bringIn] at hc
      obtain ⟨c₁, hput, hc⟩ := bind_eq_ok_iff.mp hc
      cases hc
      have hin := hover.putResident (h.lingering _ _ (Lingering.refs_of_get hv)) hput
      exact ⟨own, hin.congr rfl rfl rfl⟩
    · exact getRecord ⟨own, hover⟩ hc

/-- A value with a new number is put. -/
theorem put (h : c.Owned) {x : α} {f : Family} {r : Retention}
    (hc : (c.share x).2.put key (c.share x).1 (.disk f r) = .ok c') : c'.Owned := by
  obtain ⟨own, h⟩ := h
  obtain ⟨hshared, hx⟩ := h.share x (Key.normalize key)
  have hput : ((c.share x).2.writeRecord (Key.normalize key) x f r).putResident
    (Key.normalize key) (c.share x).1 ((c.share x).2.kind.cost x) = .ok c' := hc
  obtain ⟨-, hm, ho, hn⟩ := tiers_writeRecord (c.share x).2 (Key.normalize key) x f r
  refine ⟨_, OwnedBy.putResident (hshared.congr hn hm ho) ?_ hput⟩
  rw [hn]
  exact hx

theorem remove (h : c.Owned) (key : String) : (c.remove key).Owned := by
  obtain ⟨own, h⟩ := h
  exact ⟨own, h.resident.remove _, h.lingering.remove _, h.window.remove _⟩

theorem removeIf (h : c.Owned) (p : String → Bool) : (c.removeIf p).2.Owned :=
  let ⟨own, h⟩ := h
  ⟨own, h.removeIf p⟩

theorem clear (c : Cache α) : c.clear.Owned :=
  ⟨fun _ => "", Resident.all_of_empty rfl, Lingering.all_of_empty rfl,
    Lingering.allInWindow_of_empty rfl⟩

theorem sweep (h : c.Owned) : c.sweep.2.Owned := by
  obtain ⟨own, h⟩ := h
  exact ⟨own, h.resident, h.lingering.of_refs Lingering.refs_forgetDead, h.window⟩

theorem resizeMemory (h : c.Owned) (capacity : Nat) : (c.resizeMemory capacity).Owned := by
  obtain ⟨own, h⟩ := h
  obtain ⟨hm, hrs⟩ := h.resident.resize capacity
  exact ⟨own, hm, h.lingering.receive hrs, h.window.receive hrs⟩

theorem clearResident (h : c.Owned) : c.clearResident.Owned := by
  obtain ⟨own, h⟩ := h
  exact ⟨own, Resident.all_of_empty rfl, h.lingering, h.window⟩

theorem clearLingering (h : c.Owned) : c.clearLingering.Owned := by
  obtain ⟨own, h⟩ := h
  exact ⟨own, h.resident, Lingering.all_of_empty rfl,
    Lingering.allInWindow_of_empty rfl⟩

theorem dropWindow (h : c.Owned) : c.dropWindow.Owned := by
  obtain ⟨own, h⟩ := h
  exact ⟨own, h.resident, h.lingering, Lingering.allInWindow_of_empty rfl⟩

end Owned

end Cache

end TierCache
