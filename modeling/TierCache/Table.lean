/-!
# Finite maps

A map is a list of pairs with distinct keys. A key that is set moves to the front. The view of a
map is `get?`, and each operation is described through it.
-/
namespace TierCache

structure Table (κ α : Type) where
  pairs : List (κ × α)
  nodup : (pairs.map Prod.fst).Nodup

namespace Table

variable {κ α : Type}

def empty : Table κ α := ⟨[], List.nodup_nil⟩

def keys (t : Table κ α) : List κ := t.pairs.map Prod.fst

def values (t : Table κ α) : List α := t.pairs.map Prod.snd

def size (t : Table κ α) : Nat := t.pairs.length

def filter (t : Table κ α) (keep : κ → α → Bool) : Table κ α where
  pairs := t.pairs.filter fun p => keep p.1 p.2
  nodup := t.nodup.sublist (List.filter_sublist.map _)

variable [DecidableEq κ]

def get? (t : Table κ α) (k : κ) : Option α :=
  (t.pairs.find? fun p => p.1 = k).map Prod.snd

def contains (t : Table κ α) (k : κ) : Bool := (t.get? k).isSome

def erase (t : Table κ α) (k : κ) : Table κ α := t.filter fun k' _ => k' ≠ k

def set (t : Table κ α) (k : κ) (a : α) : Table κ α where
  pairs := (k, a) :: (t.erase k).pairs
  nodup := by
    rw [List.map_cons, List.nodup_cons]
    exact ⟨by simp [erase, filter], (t.erase k).nodup⟩

@[simp] theorem get?_empty (k : κ) : (empty : Table κ α).get? k = none := rfl

theorem get?_eq_some_iff {t : Table κ α} {k : κ} {a : α} :
    t.get? k = some a ↔ (k, a) ∈ t.pairs := by
  obtain ⟨ps, hn⟩ := t
  simp only [get?]
  induction ps with
  | nil => simp
  | cons p ps ih =>
    obtain ⟨k', b⟩ := p
    rw [List.map_cons, List.nodup_cons] at hn
    by_cases h : k' = k
    · subst h
      have : (k', a) ∉ ps := fun hm => hn.1 (List.mem_map.mpr ⟨_, hm, rfl⟩)
      simp [this, eq_comm]
    · have hc : (k, a) ≠ (k', b) := fun he => h (congrArg Prod.fst he).symm
      simpa [List.find?_cons, h, hc] using ih hn.2

@[simp] theorem get?_filter {t : Table κ α} (keep : κ → α → Bool) (k : κ) :
    (t.filter keep).get? k = (t.get? k).filter (keep k) := by
  apply Option.ext
  intro a
  simp [get?_eq_some_iff, filter, Option.filter_eq_some_iff]

@[simp] theorem get?_erase (t : Table κ α) (k k' : κ) :
    (t.erase k).get? k' = if k' = k then none else t.get? k' := by
  rw [erase, get?_filter]
  by_cases h : k' = k
  · cases t.get? k' <;> simp [h, Option.filter]
  · cases t.get? k' <;> simp [h, Option.filter]

@[simp] theorem get?_set (t : Table κ α) (k k' : κ) (a : α) :
    (t.set k a).get? k' = if k' = k then some a else t.get? k' := by
  by_cases h : k' = k
  · simp [get?, set, h]
  · rw [if_neg h, ← show (t.erase k).get? k' = t.get? k' by simp [h]]
    simp [get?, set, Ne.symm h]

@[simp] theorem contains_iff {t : Table κ α} {k : κ} : t.contains k = true ↔ k ∈ t.keys := by
  simp only [contains, Option.isSome_iff_exists, get?_eq_some_iff, keys, List.mem_map]
  exact ⟨fun ⟨a, h⟩ => ⟨_, h, rfl⟩, fun ⟨⟨_, a⟩, h, he⟩ => ⟨a, he ▸ h⟩⟩

end Table

end TierCache
