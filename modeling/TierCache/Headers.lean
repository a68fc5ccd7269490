/-!
# Header fields

The fields of a response as a map from names to values, in ascending order of the names. A name
that is set again keeps its last value.
-/
namespace TierCache

structure Headers where
  pairs : List (String × String)
  sorted : pairs.Pairwise fun a b => a.1 < b.1
  deriving DecidableEq

namespace Headers

def empty : Headers := ⟨[], .nil⟩

def insertPair (name value : String) : List (String × String) → List (String × String)
  | [] => [(name, value)]
  | (n, v) :: r =>
    if name < n then (name, value) :: (n, v) :: r
    else if n = name then (name, value) :: r
    else (n, v) :: insertPair name value r

theorem mem_insertPair {name value : String} {ps : List (String × String)}
    {p : String × String} (h : p ∈ insertPair name value ps) : p = (name, value) ∨ p ∈ ps := by
  induction ps with
  | nil => simpa [insertPair] using h
  | cons q r ih =>
    obtain ⟨n, v⟩ := q
    rw [insertPair] at h
    split at h
    · simpa using h
    · split at h
      · cases List.mem_cons.mp h with
        | inl h => exact .inl h
        | inr h => exact .inr (List.mem_cons_of_mem _ h)
      · cases List.mem_cons.mp h with
        | inl h => exact .inr (h ▸ List.mem_cons_self)
        | inr h => exact (ih h).imp id (List.mem_cons_of_mem _)

theorem lt_of_not_lt_of_ne {a b : String} (h : ¬ a < b) (hne : b ≠ a) : b < a :=
  Decidable.byContradiction fun h' => hne (String.le_antisymm h h')

theorem sorted_insertPair (name value : String) {ps : List (String × String)}
    (h : ps.Pairwise fun a b => a.1 < b.1) :
    (insertPair name value ps).Pairwise fun a b => a.1 < b.1 := by
  induction ps with
  | nil => simp [insertPair]
  | cons q r ih =>
    obtain ⟨n, v⟩ := q
    rw [List.pairwise_cons] at h
    rw [insertPair]
    split
    · rename_i hlt
      refine List.pairwise_cons.mpr ⟨?_, List.pairwise_cons.mpr h⟩
      intro p hp
      rcases List.mem_cons.mp hp with rfl | hp
      · exact hlt
      · exact String.lt_trans hlt (h.1 p hp)
    · split
      · rename_i he
        exact List.pairwise_cons.mpr ⟨fun p hp => he ▸ h.1 p hp, h.2⟩
      · rename_i hnl hne
        refine List.pairwise_cons.mpr ⟨?_, ih h.2⟩
        intro p hp
        rcases mem_insertPair hp with rfl | hp
        · exact lt_of_not_lt_of_ne hnl hne
        · exact h.1 p hp

def insert (h : Headers) (name value : String) : Headers :=
  ⟨insertPair name value h.pairs, sorted_insertPair name value h.sorted⟩

def ofList (ps : List (String × String)) : Headers :=
  ps.foldl (fun h p => h.insert p.1 p.2) empty

def get? (h : Headers) (name : String) : Option String := h.pairs.lookup name

/-- The bytes of all names and values. -/
def byteSize (h : Headers) : Nat :=
  h.pairs.foldr (fun p n => p.1.utf8ByteSize + p.2.utf8ByteSize + n) 0

end Headers

end TierCache
