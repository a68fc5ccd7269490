import TierCache.Volume

/-!
# Where paths lead

Where a path leads does not depend on the volume: a name goes down, two dots go back. The volume
only decides whether the path can be followed, which is so when all places on its way are folders.
Making the folders of a path makes exactly the places on its way.
-/
namespace TierCache

namespace Path

/-- The place that a piece leads to. -/
def advance (place : List String) (piece : String) : List String :=
  if isStill piece then place else if piece = ".." then place.dropLast else place ++ [piece]

def lead (place : List String) (pieces : List String) : List String := pieces.foldl advance place

/-- The places in which the pieces are looked up. -/
def visited (place : List String) : List String → List (List String)
  | [] => []
  | piece :: rest => place :: visited (advance place piece) rest

def goal (p : Path) : List String := lead [] p.pieces

def way (p : Path) : List (List String) := visited [] p.pieces

/-- A piece that goes down to something. -/
def IsName (piece : String) : Prop := isStill piece = false ∧ piece ≠ ".."

theorem advance_of_isName {place : List String} {piece : String} (h : IsName piece) :
    advance place piece = place ++ [piece] := by
  rw [advance, if_neg (by simp [h.1]), if_neg h.2]

theorem lead_append (place xs ys : List String) :
    lead place (xs ++ ys) = lead (lead place xs) ys := List.foldl_append

theorem visited_append (place xs ys : List String) :
    visited place (xs ++ ys) = visited place xs ++ visited (lead place xs) ys := by
  induction xs generalizing place with
  | nil => rfl
  | cons piece rest ih =>
    rw [List.cons_append, visited, visited, ih, List.cons_append]
    rfl

theorem lead_of_isStill {pieces : List String} (place : List String)
    (h : ∀ piece ∈ pieces, isStill piece = true) : lead place pieces = place := by
  induction pieces with
  | nil => rfl
  | cons piece rest ih =>
    obtain ⟨hp, hrest⟩ := List.forall_mem_cons.mp h
    have ha : advance place piece = place := by rw [advance, if_pos hp]
    exact (congrArg (lead · rest) ha).trans (ih hrest)

/-- An empty piece at the end does not change where a path leads. -/
theorem lead_dropLast {pieces : List String} (place : List String)
    (h : pieces.getLast? = some "") : lead place pieces.dropLast = lead place pieces := by
  obtain ⟨ys, rfl⟩ := List.getLast?_eq_some_iff.mp h
  rw [List.dropLast_concat, lead_append]
  simp [lead, advance, isStill]

theorem goal_join_eq (p : Path) (name : String) : (p.join name).goal = advance p.goal name := by
  unfold join goal
  split
  · rename_i hp
    rw [lead_append, lead_dropLast [] hp]
    rfl
  · rw [lead_append]
    rfl

theorem goal_join (p : Path) {name : String} (h : IsName name) :
    (p.join name).goal = p.goal ++ [name] := by
  rw [goal_join_eq, advance_of_isName h]

theorem way_join {p : Path} {name : String} (h : p.pieces.getLast? ≠ some "") :
    (p.join name).way = p.way ++ [p.goal] := by
  rw [way, pieces_join h, visited_append]
  rfl

/-- Of a path that ends in a slash, the way is that of the path without it, and once more the
place it leads to. -/
theorem mem_way_join {p : Path} {name : String} {q : List String} :
    q ∈ (p.join name).way ↔ q ∈ p.way ∨ q = p.goal := by
  by_cases h : p.pieces.getLast? = some ""
  · obtain ⟨ys, hys⟩ := List.getLast?_eq_some_iff.mp h
    have hl : p.goal = lead [] ys := by
      rw [goal, ← lead_dropLast [] h, hys, List.dropLast_concat]
    simp [way, join, hys, visited_append, visited, hl]
  · simp [way_join h]

@[simp] theorem getLast?_join (p : Path) (name : String) :
    (p.join name).pieces.getLast? = some name := by
  simp [join]

theorem pieces_join_of_isName {p : Path} {last : String} (h : p.pieces.getLast? = some last)
    (hn : IsName last) (name : String) : (p.join name).pieces = p.pieces ++ [name] := by
  refine pieces_join fun he => ?_
  rw [h, Option.some.injEq] at he
  rw [he] at hn
  exact absurd hn.1 (by decide)

end Path

namespace Volume

/-- What a file holds, and the time of its last change. -/
def fileAt? (v : Volume) (place : Place) : Option (List UInt8 × Int) :=
  match v.node? place with
  | some (.file bytes time) => some (bytes, time)
  | _ => none

/-- The path can be followed to its end. -/
def Leads (v : Volume) (p : Path) : Prop :=
  refusal p = none ∧ ∀ q ∈ p.way, v.node? q = some .folder

instance (v : Volume) (p : Path) : Decidable (v.Leads p) := inferInstanceAs (Decidable (_ ∧ _))

theorem fileAt?_eq_some_iff {v : Volume} {q : Place} {bytes : List UInt8} {time : Int} :
    v.fileAt? q = some (bytes, time) ↔ v.node? q = some (.file bytes time) := by
  rw [fileAt?]
  split <;> simp_all

theorem fileAt?_of_folder {v : Volume} {q : Place} (h : v.node? q = some .folder) :
    v.fileAt? q = none := by
  simp [fileAt?, h]

theorem node?_eq_none {v : Volume} {q : Place} (hf : v.fileAt? q = none)
    (hd : v.node? q ≠ some .folder) : v.node? q = none := by
  rw [fileAt?] at hf
  split at hf
  · cases hf
  · rename_i hn
    rw [Option.eq_none_iff_forall_ne_some]
    intro n he
    cases n with
    | folder => exact hd he
    | file bytes time => exact hn bytes time he

@[simp] theorem node?_root (v : Volume) : v.node? [] = some .folder := rfl

@[simp] theorem fileAt?_root (v : Volume) : v.fileAt? [] = none := rfl

/-- Two volumes with the same folders and files have the same at every place. -/
theorem node?_congr {v w : Volume} {q : Place}
    (hd : w.node? q = some .folder ↔ v.node? q = some .folder) (hf : w.fileAt? q = v.fileAt? q) :
    w.node? q = v.node? q := by
  unfold fileAt? at hf
  cases hw : w.node? q with
  | none =>
    cases hv : v.node? q with
    | none => rfl
    | some n => cases n <;> simp_all
  | some n =>
    cases hv : v.node? q with
    | none => cases n <;> simp_all
    | some n' => cases n <;> cases n' <;> simp_all

theorem follow_eq_ok_iff {v : Volume} {place goal : Place} {pieces : List String} :
    v.follow place pieces = .ok goal ↔
      (∀ q ∈ Path.visited place pieces, v.node? q = some .folder) ∧
        goal = Path.lead place pieces := by
  induction pieces generalizing place with
  | nil =>
    simp only [follow, Except.ok.injEq, Path.visited, Path.lead, List.foldl_nil]
    simp [eq_comm]
  | cons piece rest ih =>
    have hl : Path.lead place (piece :: rest) = Path.lead (Path.advance place piece) rest := rfl
    rw [follow, Path.visited, List.forall_mem_cons, hl]
    cases hn : v.node? place with
    | none => simp
    | some n =>
      cases n with
      | file bytes time => simp
      | folder =>
        simp only [true_and]
        rw [← ih]
        rw [Path.advance]
        split
        · rfl
        · split <;> rfl

theorem find_eq_ok_iff {v : Volume} {p : Path} {q : Place} :
    v.find p = .ok q ↔ v.Leads p ∧ q = p.goal := by
  unfold find Leads
  cases refusal p with
  | some err => simp
  | none => simp [follow_eq_ok_iff, Path.way, Path.goal]

theorem find_of_leads {v : Volume} {p : Path} (h : v.Leads p) : v.find p = .ok p.goal :=
  find_eq_ok_iff.mpr ⟨h, rfl⟩

theorem leads_join {v : Volume} {p : Path} {name : String} (hr : refusal (p.join name) = none)
    (h : v.Leads p) (hf : v.node? p.goal = some .folder) : v.Leads (p.join name) := by
  refine ⟨hr, fun q hq => ?_⟩
  rcases Path.mem_way_join.mp hq with hq | rfl
  · exact h.2 q hq
  · exact hf

theorem look_eq_ok_iff {v : Volume} {p : Path} {q : Place} {n : Node} :
    v.look p = .ok (q, n) ↔ v.Leads p ∧ q = p.goal ∧ v.node? q = some n := by
  rw [look]
  cases hf : v.find p with
  | error err =>
    have : ¬ v.Leads p := fun h => by simp [find_of_leads h] at hf
    simp [this, bind, Except.bind]
  | ok place =>
    obtain ⟨hl, rfl⟩ := find_eq_ok_iff.mp hf
    simp only [bind, Except.bind]
    cases hn : v.node? p.goal with
    | none =>
      simp only [throw, throwThe, MonadExceptOf.throw, reduceCtorEq, false_iff]
      rintro ⟨-, rfl, h⟩
      simp [hn] at h
    | some m =>
      simp only [pure, Except.pure, Except.ok.injEq, Prod.mk.injEq, hl, true_and]
      constructor
      · rintro ⟨rfl, rfl⟩
        exact ⟨rfl, hn⟩
      · rintro ⟨rfl, h⟩
        exact ⟨rfl, Option.some.inj (hn.symm.trans h)⟩

theorem look_of_leads_none {v : Volume} {p : Path} (h : v.Leads p) (hn : v.node? p.goal = none) :
    v.look p = .error .notFound := by
  rw [look, find_of_leads h]
  simp [bind, Except.bind, hn]
  rfl

theorem isFolder_iff {v : Volume} {p : Path} :
    v.isFolder p = true ↔ v.Leads p ∧ v.node? p.goal = some .folder := by
  rw [isFolder]
  cases hk : v.look p with
  | error err =>
    simp only [Bool.false_eq_true, false_iff]
    rintro ⟨hl, hn⟩
    rw [look_eq_ok_iff.mpr ⟨hl, rfl, hn⟩] at hk
    cases hk
  | ok r =>
    obtain ⟨q, n⟩ := r
    obtain ⟨hl, rfl, hn⟩ := look_eq_ok_iff.mp hk
    cases n <;> simp [hl, hn]

theorem read_eq_ok_iff {v : Volume} {p : Path} {bytes : List UInt8} :
    v.read p = .ok bytes ↔ v.Leads p ∧ ∃ time, v.fileAt? p.goal = some (bytes, time) := by
  rw [read]
  cases hk : v.look p with
  | error err =>
    simp only [reduceCtorEq, false_iff]
    rintro ⟨hl, time, ht⟩
    rw [look_eq_ok_iff.mpr ⟨hl, rfl, fileAt?_eq_some_iff.mp ht⟩] at hk
    cases hk
  | ok r =>
    obtain ⟨q, n⟩ := r
    obtain ⟨hl, rfl, hn⟩ := look_eq_ok_iff.mp hk
    cases n <;> simp [hl, hn, fileAt?, eq_comm]

theorem mem_children_iff {v : Volume} {p : Path} (h : v.Leads p) {name : String} {n : Node} :
    (name, n) ∈ v.children p ↔ v.node? (p.goal ++ [name]) = some n := by
  rw [children, find_of_leads h]
  simp [Trie.mem_children_iff, node?]

theorem nodup_children (v : Volume) (p : Path) : ((v.children p).map Prod.fst).Nodup := by
  rw [children]
  split
  · exact List.nodup_nil
  · exact Trie.nodup_row _

end Volume

end TierCache
