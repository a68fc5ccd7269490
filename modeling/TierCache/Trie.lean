/-!
# Trees of values

A map from the places in a tree to values. A place is the list of the names that lead to it, and
the root has no value. The view of a tree is `get?`, and each operation is described through it.
Of names side by side a new one comes first.
-/
namespace TierCache

/-- Names side by side, each with the names below it. -/
inductive Trie (κ α : Type) where
  | empty
  | entry (key : κ) (value : Option α) (below rest : Trie κ α)

namespace Trie

variable {κ α : Type}

def isEmpty : Trie κ α → Bool
  | .empty => true
  | .entry _ _ _ _ => false

/-- All places with a value. -/
def pairs : Trie κ α → List (List κ × α)
  | .empty => []
  | .entry key value below rest =>
    (value.map fun a => ([key], a)).toList ++ below.pairs.map (fun p => (key :: p.1, p.2)) ++
      rest.pairs

theorem eq_empty_of_isEmpty {t : Trie κ α} (h : t.isEmpty = true) : t = .empty := by
  cases t with
  | empty => rfl
  | entry key value below rest => cases h

variable [DecidableEq κ]

def get? : Trie κ α → List κ → Option α
  | .entry key value below rest, k :: ks =>
    if key ≠ k then rest.get? (k :: ks) else if ks = [] then value else below.get? ks
  | _, _ => none

/-- What is below a place. -/
def under : Trie κ α → List κ → Trie κ α
  | t, [] => t
  | .entry key _ below rest, k :: ks => if key ≠ k then rest.under (k :: ks) else below.under ks
  | .empty, _ => .empty

def hasName (k : κ) : Trie κ α → Bool
  | .empty => false
  | .entry key _ _ rest => key = k || rest.hasName k

/-- Gives a name another value and other names below it. -/
def replace (t : Trie κ α) (k : κ) (value : Option α) (below : Trie κ α) : Trie κ α :=
  match t with
  | .empty => .empty
  | .entry key old inner rest =>
    if key = k then .entry k value below rest
    else .entry key old inner (rest.replace k value below)

def dropName (k : κ) : Trie κ α → Trie κ α
  | .empty => .empty
  | .entry key value below rest =>
    if key = k then rest.dropName k else .entry key value below (rest.dropName k)

def putName (t : Trie κ α) (k : κ) (value : Option α) (below : Trie κ α) : Trie κ α :=
  if t.hasName k then t.replace k value below else .entry k value below t

def set (t : Trie κ α) (place : List κ) (a : α) : Trie κ α :=
  match place with
  | [] => t
  | [k] => t.putName k (some a) (t.under [k])
  | k :: ks => t.putName k (t.get? [k]) ((t.under [k]).set ks a)

def erase (t : Trie κ α) : List κ → Trie κ α
  | [] => t
  | [k] => if (t.under [k]).isEmpty then t.dropName k else t.replace k none (t.under [k])
  | k :: ks => t.replace k (t.get? [k]) ((t.under [k]).erase ks)

/-- Erases all that is below a place. -/
def clear (t : Trie κ α) : List κ → Trie κ α
  | [] => .empty
  | k :: ks => t.replace k (t.get? [k]) ((t.under [k]).clear ks)

/-- The names side by side that have a value. -/
def row : Trie κ α → List (κ × α)
  | .empty => []
  | .entry key value _ rest =>
    (value.map fun a => (key, a)).toList ++ rest.row.filter fun p => p.1 ≠ key

/-- The names right below a place, the newest first. -/
def children (t : Trie κ α) (place : List κ) : List (κ × α) := (t.under place).row

@[simp] theorem get?_empty (place : List κ) : (empty : Trie κ α).get? place = none := rfl

@[simp] theorem get?_root (t : Trie κ α) : t.get? [] = none := by cases t <;> rfl

@[simp] theorem under_root (t : Trie κ α) : t.under [] = t := by cases t <;> rfl

theorem get?_under (t : Trie κ α) (place q : List κ) (h : q ≠ []) :
    (t.under place).get? q = t.get? (place ++ q) := by
  induction t generalizing place with
  | empty => cases place <;> simp [under]
  | entry key value below rest hb hr =>
    cases place with
    | nil => rfl
    | cons k ks =>
      by_cases hs : key = k
      · simp [under, get?, hs, h, hb]
      · simpa [under, get?, hs] using hr (k :: ks)

theorem get?_of_hasName {t : Trie κ α} {k : κ} (h : t.hasName k = false) (ks : List κ) :
    t.get? (k :: ks) = none := by
  induction t with
  | empty => rfl
  | entry key value below rest _ hr =>
    simp only [hasName, Bool.or_eq_false_iff, decide_eq_false_iff_not] at h
    simp [get?, h.1, hr h.2]

theorem get?_replace (t below : Trie κ α) (k k' : κ) (value : Option α) (ks : List κ) :
    (t.replace k value below).get? (k' :: ks) =
      if k' = k ∧ t.hasName k = true then (if ks = [] then value else below.get? ks)
      else t.get? (k' :: ks) := by
  induction t with
  | empty => simp [replace, hasName]
  | entry key old inner rest _ hr => grind [replace, get?, hasName]

theorem get?_putName (t below : Trie κ α) (k k' : κ) (value : Option α) (ks : List κ) :
    (t.putName k value below).get? (k' :: ks) =
      if k' = k then (if ks = [] then value else below.get? ks) else t.get? (k' :: ks) := by
  rw [putName]
  split
  · rename_i h
    simp [get?_replace, h]
  · simp [get?, eq_comm]

theorem get?_dropName (t : Trie κ α) (k k' : κ) (ks : List κ) :
    (t.dropName k).get? (k' :: ks) = if k' = k then none else t.get? (k' :: ks) := by
  induction t with
  | empty => simp [dropName]
  | entry key value below rest _ hr => grind [dropName, get?]

theorem get?_set (t : Trie κ α) (place q : List κ) (a : α) (h : place ≠ []) :
    (t.set place a).get? q = if q = place then some a else t.get? q := by
  induction place generalizing t q with
  | nil => exact absurd rfl h
  | cons k ks ih =>
    cases q with
    | nil => simp
    | cons k' ks' =>
      by_cases hk : k' = k
      · subst hk
        have hu := get?_under t [k'] ks'
        cases ks with
        | nil => by_cases hs : ks' = [] <;> simp_all [set, get?_putName]
        | cons l ls =>
          have := ih (t.under [k']) ks' (List.cons_ne_nil l ls)
          by_cases hs : ks' = [] <;> simp_all [set, get?_putName]
      · cases ks <;> simp [set, get?_putName, hk]

@[simp] theorem get?_erase (t : Trie κ α) (place q : List κ) :
    (t.erase place).get? q = if q = place then none else t.get? q := by
  induction place generalizing t q with
  | nil => cases q <;> simp [erase]
  | cons k ks ih =>
    cases q with
    | nil => simp
    | cons k' ks' =>
      by_cases hk : k' = k
      · subst hk
        have hu := get?_under t [k'] ks'
        have hn := get?_of_hasName (t := t) (k := k')
        cases ks with
        | nil =>
          rw [erase]
          split
          · rename_i he
            rw [eq_empty_of_isEmpty he] at hu
            by_cases hs : ks' = [] <;> simp_all [get?_dropName]
          · by_cases hs : ks' = [] <;> cases ht : t.hasName k' <;> simp_all [get?_replace]
        | cons l ls =>
          have := ih (t.under [k']) ks'
          by_cases hs : ks' = [] <;> cases ht : t.hasName k' <;> simp_all [erase, get?_replace]
      · cases ks with
        | nil =>
          rw [erase]
          split <;> simp [get?_dropName, get?_replace, hk]
        | cons l ls => simp [erase, get?_replace, hk]

@[simp] theorem get?_clear (t : Trie κ α) (place q : List κ) :
    (t.clear place).get? q = if place <+: q ∧ q ≠ place then none else t.get? q := by
  induction place generalizing t q with
  | nil => cases q <;> simp [clear]
  | cons k ks ih =>
    cases q with
    | nil => simp
    | cons k' ks' =>
      by_cases hk : k' = k
      · subst hk
        have hu := get?_under t [k'] ks'
        have hn := get?_of_hasName (t := t) (k := k')
        have := ih (t.under [k']) ks'
        by_cases hs : ks' = [] <;> cases ht : t.hasName k' <;> simp_all [clear, get?_replace]
      · simp [clear, get?_replace, hk, Ne.symm hk]

theorem mem_row_iff {t : Trie κ α} {k : κ} {a : α} : (k, a) ∈ t.row ↔ t.get? [k] = some a := by
  induction t with
  | empty => simp [row]
  | entry key value below rest _ hr =>
    by_cases h : key = k
    · subst h
      simp [row, get?]
    · simp [row, get?, h, hr, Ne.symm h]

theorem nodup_row (t : Trie κ α) : (t.row.map Prod.fst).Nodup := by
  induction t with
  | empty => simp [row]
  | entry key value below rest _ hr =>
    cases value with
    | none => simpa [row] using hr.sublist (List.filter_sublist.map _)
    | some a => simp [row, hr.sublist (List.filter_sublist.map _)]

theorem mem_children_iff {t : Trie κ α} {place : List κ} {k : κ} {a : α} :
    (k, a) ∈ t.children place ↔ t.get? (place ++ [k]) = some a := by
  rw [children, mem_row_iff, get?_under t place [k] (List.cons_ne_nil k [])]

end Trie

end TierCache
