import TierCache.Disk.Opening
import TierCache.Proofs.Volume.Change

/-!
# Where the records of a store stand

A record stands in one of two folders under a name that is its digest, and a write is staged in a
third. Below a home whose path leaves room for these names every record can be reached.
-/
namespace TierCache

namespace Path

theorem text_append {xs : List String} {name : String} (h : xs ≠ []) :
    (⟨xs ++ [name]⟩ : Path).text = (⟨xs⟩ : Path).text ++ "/" ++ name := by
  rw [text, text, String.intercalate_append_of_ne_nil h (by simp), String.intercalate_singleton]

theorem size_text_join (p : Path) (name : String) :
    (p.join name).text.utf8ByteSize ≤ p.text.utf8ByteSize + 1 + name.utf8ByteSize := by
  have one : ("/" : String).utf8ByteSize = 1 := by decide
  have close : ∀ xs : List String, (⟨xs ++ [name]⟩ : Path).text.utf8ByteSize ≤
      (⟨xs⟩ : Path).text.utf8ByteSize + 1 + name.utf8ByteSize := by
    intro xs
    by_cases hx : xs = []
    · simp [hx, text]
    · simp only [text_append hx, String.utf8ByteSize_append, one]
      omega
  rw [join]
  split
  · rename_i hp
    obtain ⟨ys, hys⟩ := List.getLast?_eq_some_iff.mp hp
    have hs : p.text.utf8ByteSize = (⟨ys⟩ : Path).text.utf8ByteSize + if ys = [] then 0 else 1 := by
      have he : p = ⟨ys ++ [""]⟩ := congrArg Path.mk hys
      by_cases hy : ys = []
      · simp [he, hy, text]
      · simp [he, hy, text_append hy, String.utf8ByteSize_append, one]
    rw [hys, List.dropLast_concat]
    have := close ys
    omega
  · exact close p.pieces

theorem isBroken_join {p : Path} {name : String} (h : p.isBroken = false)
    (hn : name.toList.contains '\x00' = false) : (p.join name).isBroken = false := by
  unfold isBroken at h ⊢
  rw [List.any_eq_false] at h ⊢
  intro piece hp
  rw [join] at hp
  cases List.mem_append.mp hp with
  | inl hp =>
    split at hp
    · exact h piece (List.dropLast_subset _ hp)
    · exact h piece hp
  | inr hp =>
    rw [List.mem_singleton.mp hp, hn]
    exact Bool.false_ne_true

theorem longName_join {p : Path} {name : String}
    (h : ∀ piece ∈ p.pieces, isLongName piece = false) (hn : isLongName name = false) :
    ∀ piece ∈ (p.join name).pieces, isLongName piece = false := by
  intro piece hp
  rw [join] at hp
  cases List.mem_append.mp hp with
  | inl hp =>
    split at hp
    · exact h piece (List.dropLast_subset _ hp)
    · exact h piece hp
  | inr hp => rw [List.mem_singleton.mp hp, hn]

/-- An empty piece at the end is the only one that may be lost. -/
theorem mem_pieces_join {p : Path} (name : String) {piece : String} (hp : piece ∈ p.pieces) :
    piece = "" ∨ piece ∈ (p.join name).pieces := by
  rw [join]
  split
  · rename_i he
    obtain ⟨ys, hys⟩ := List.getLast?_eq_some_iff.mp he
    rw [hys] at hp ⊢
    rw [List.dropLast_concat]
    cases List.mem_append.mp hp with
    | inl hp => exact .inr (List.mem_append_left _ hp)
    | inr hp => exact .inl (List.mem_singleton.mp hp)
  · exact .inr (List.mem_append_left _ hp)

theorem longName_of_join {p : Path} {name : String}
    (h : ∀ piece ∈ (p.join name).pieces, isLongName piece = false) :
    ∀ piece ∈ p.pieces, isLongName piece = false := by
  intro piece hp
  rcases mem_pieces_join name hp with rfl | hp
  · decide
  · exact h piece hp

theorem refusal_eq_none {p : Path} (hb : p.isBroken = false)
    (hs : p.text.utf8ByteSize ≤ longest) : Volume.refusal p = none := by
  have hl : p.isTooLong = false := by
    simp only [isTooLong, decide_eq_false_iff_not]
    omega
  simp [Volume.refusal, hb, hl]

/-- A longer path is not followed where the shorter one is not. -/
theorem refusal_of_join {p : Path} {name : String} (h : Volume.refusal (p.join name) = none) :
    Volume.refusal p = none := by
  rw [Volume.refusal] at h
  split at h
  · cases h
  rename_i hb
  split at h
  · cases h
  rename_i hl
  have hbroken : p.isBroken = false := by
    rw [Bool.not_eq_true, isBroken, List.any_eq_false] at hb
    rw [isBroken, List.any_eq_false]
    intro piece hp
    rcases mem_pieces_join name hp with rfl | hp
    · decide
    · exact hb piece hp
  have hsize : p.text.utf8ByteSize ≤ (p.join name).text.utf8ByteSize := by
    rw [join]
    split
    · rename_i he
      obtain ⟨ys, hys⟩ := List.getLast?_eq_some_iff.mp he
      have hp : p = ⟨ys ++ [""]⟩ := congrArg Path.mk hys
      rw [hys, List.dropLast_concat, hp]
      by_cases hy : ys = []
      · simp [hy, text]
      · simp [text_append hy, String.utf8ByteSize_append]
    · by_cases hp : p.pieces = []
      · simp [hp, text]
      · show (⟨p.pieces⟩ : Path).text.utf8ByteSize ≤ _
        simp only [text_append hp, String.utf8ByteSize_append]
        omega
  simp only [isTooLong, decide_eq_true_eq] at hl
  exact refusal_eq_none hbroken (by omega)

end Path

theorem utf8ByteSize_of_ascii {s : String} (h : ∀ c ∈ s.toList, c.utf8Size = 1) :
    s.utf8ByteSize = s.toList.length := by
  have hl : ∀ cs : List Char, (∀ c ∈ cs, c.utf8Size = 1) →
      (String.ofList cs).utf8ByteSize = cs.length := by
    intro cs hcs
    induction cs with
    | nil => rfl
    | cons c cs ih =>
      rw [show c :: cs = [c] ++ cs from rfl, String.ofList_append, String.utf8ByteSize_append,
        ih fun c' hc' => hcs c' (List.mem_cons_of_mem c hc')]
      have := hcs c List.mem_cons_self
      simp [this, Nat.add_comm]
  simpa using hl s.toList h

theorem Hex.utf8Size_of_isDigit {c : Char} (h : isDigit c = true) : c.utf8Size = 1 := by
  rw [Char.utf8Size_eq_one_iff]
  simp only [isDigit, Char.isDigit, Bool.or_eq_true, Bool.and_eq_true, decide_eq_true_eq] at h
  rw [UInt32.le_iff_toNat_le]
  cases h with
  | inl h =>
    have := UInt32.le_iff_toNat_le.mp h.2
    exact Nat.le_trans this (by decide)
  | inr h =>
    have := UInt32.le_iff_toNat_le.mp (Char.le_def.mp h.2)
    exact Nat.le_trans this (by decide)

namespace Digest

@[simp] theorem length_text (d : Digest) : d.text.toList.length = 64 := by
  have := d.valid
  simp only [isDigestText, Bool.and_eq_true, decide_eq_true_eq] at this
  exact this.1

theorem isDigit_of_mem (d : Digest) {c : Char} (h : c ∈ d.text.toList) : Hex.isDigit c = true := by
  have := d.valid
  simp only [isDigestText, Bool.and_eq_true, List.all_eq_true] at this
  exact this.2 c h

@[simp] theorem size_text (d : Digest) : d.text.utf8ByteSize = 64 := by
  rw [utf8ByteSize_of_ascii fun c hc => Hex.utf8Size_of_isDigit (d.isDigit_of_mem hc),
    d.length_text]

theorem isName_text (d : Digest) : Path.IsName d.text := by
  have h := d.size_text
  constructor
  · rw [Path.isStill, Bool.or_eq_false_iff, decide_eq_false_iff_not, decide_eq_false_iff_not]
    constructor
    · intro he
      rw [he] at h
      exact absurd h (by decide)
    · intro he
      rw [he] at h
      exact absurd h (by decide)
  · intro he
    rw [he] at h
    exact absurd h (by decide)

theorem isLongName_text (d : Digest) : Path.isLongName d.text = false := by
  simp [Path.isLongName, Path.longestName]

theorem unbroken_text (d : Digest) : d.text.toList.contains '\x00' = false := by
  rw [← Bool.not_eq_true, List.contains_iff_mem]
  exact fun h => absurd (d.isDigit_of_mem h) (by decide)

theorem text_injective {d d' : Digest} (h : d.text = d'.text) : d = d' := by
  cases d
  cases d'
  subst h
  rfl

end Digest

namespace Disk

def folderName : Retention → String
  | .normal => "records"
  | .always => "retained"

theorem folder_eq (root : Path) (r : Retention) : folder root r = root.join (folderName r) := by
  cases r <;> rfl

theorem isName_folderName (r : Retention) : Path.IsName (folderName r) := by
  cases r <;> exact ⟨by decide, by decide⟩

theorem isName_tmp : Path.IsName "tmp" := ⟨by decide, by decide⟩

theorem folderName_ne_tmp (r : Retention) : folderName r ≠ "tmp" := by
  cases r <;> decide

theorem folderName_injective {r r' : Retention} (h : folderName r = folderName r') : r = r' := by
  cases r <;> cases r' <;> first | rfl | exact absurd h (by decide)

theorem other_ne (r : Retention) : r.other ≠ r := by
  cases r <;> decide

theorem eq_or_eq_other (r r' : Retention) : r' = r ∨ r' = r.other := by
  cases r <;> cases r' <;> simp [Retention.other]

def recordPlace (root : Path) (d : Digest) (r : Retention) : Place :=
  root.goal ++ [folderName r, d.text]

theorem goal_folder (root : Path) (r : Retention) :
    (folder root r).goal = root.goal ++ [folderName r] := by
  rw [folder_eq, Path.goal_join root (isName_folderName r)]

/-- The place of a name in one of the folders of records. -/
def slot (root : Path) (r : Retention) (name : String) : Place := root.goal ++ [folderName r, name]

theorem slot_text (root : Path) (d : Digest) (r : Retention) :
    slot root r d.text = recordPlace root d r := rfl

theorem goal_folder_append (root : Path) (r : Retention) (name : String) :
    (folder root r).goal ++ [name] = slot root r name := by
  rw [goal_folder, List.append_assoc]
  rfl

theorem prefix_slot (root : Path) (r : Retention) (name : String) :
    root.goal <+: slot root r name := List.prefix_append _ _

theorem goal_staging (root : Path) : (staging root).goal = root.goal ++ ["tmp"] :=
  Path.goal_join root isName_tmp

@[simp] theorem goal_recordPath (root : Path) (d : Digest) (r : Retention) :
    (recordPath root d r).goal = recordPlace root d r := by
  rw [recordPath, Path.goal_join _ d.isName_text, goal_folder_append, slot_text]

theorem prefix_recordPlace (root : Path) (d : Digest) (r : Retention) :
    root.goal <+: recordPlace root d r := List.prefix_append _ _

theorem goal_of_recordPlace {root root' : Path} {d d' : Digest} {r r' : Retention}
    (h : recordPlace root d r = recordPlace root' d' r') : root.goal = root'.goal :=
  (List.append_inj' h rfl).1

theorem recordPlace_injective {root : Path} {d d' : Digest} {r r' : Retention}
    (h : recordPlace root d r = recordPlace root d' r') : d = d' ∧ r = r' := by
  have := List.append_cancel_left h
  simp only [List.cons.injEq, and_true] at this
  exact ⟨Digest.text_injective this.2, folderName_injective this.1⟩

/-- The two places of a digest. -/
def recordPlaces (root : Path) (d : Digest) : List Place :=
  [recordPlace root d .normal, recordPlace root d .always]

theorem mem_recordPlaces {root : Path} {d : Digest} {q : Place} :
    q ∈ recordPlaces root d ↔ ∃ r, q = recordPlace root d r := by
  simp only [recordPlaces, List.mem_cons, List.not_mem_nil, or_false]
  constructor
  · rintro (h | h)
    · exact ⟨_, h⟩
    · exact ⟨_, h⟩
  · rintro ⟨r, h⟩
    cases r
    · exact .inl h
    · exact .inr h

/-- A place tells whose record it is, in whichever home. -/
theorem digest_of_recordPlace {root root' : Path} {d d' : Digest} {r r' : Retention}
    (h : recordPlace root d r = recordPlace root' d' r') : d = d' := by
  have hd := (List.append_inj' h rfl).2
  simp only [List.cons.injEq, and_true] at hd
  exact Digest.text_injective hd.2

theorem recordPlace_mem {root : Path} {d d' : Digest} {r : Retention} :
    recordPlace root d r ∈ recordPlaces root d' ↔ d = d' := by
  rw [mem_recordPlaces]
  constructor
  · rintro ⟨r', h⟩
    exact digest_of_recordPlace h
  · rintro rfl
    exact ⟨r, rfl⟩

@[simp] theorem recordPlace_ne_nil (root : Path) (d : Digest) (r : Retention) :
    recordPlace root d r ≠ [] := by
  simp [recordPlace]

theorem recordPlace_ne_staged (root root' : Path) (d : Digest) (r : Retention) (name : String) :
    recordPlace root d r ≠ root'.goal ++ ["tmp", name] := by
  intro h
  have h' := congrArg (fun l => (l.reverse.drop 1).head?) h
  simp only [recordPlace, List.reverse_append, List.reverse_cons, List.reverse_nil, List.nil_append,
    List.cons_append, List.drop_succ_cons, List.drop_zero, List.head?_cons, Option.some.injEq] at h'
  exact folderName_ne_tmp r h'

/-- A home whose path leaves room for the names of records, and has no piece too long for a
name. -/
structure Roomy (root : Path) : Prop where
  unbroken : root.isBroken = false
  short : root.text.utf8ByteSize + 74 ≤ Path.longest
  named : ∀ piece ∈ root.pieces, Path.isLongName piece = false

namespace Roomy

variable {root : Path}

theorem refusal (h : Roomy root) : Volume.refusal root = none :=
  Path.refusal_eq_none h.unbroken (Nat.le_trans (Nat.le_add_right _ _) h.short)

theorem refusal_join (h : Roomy root) {name : String} (hs : name.utf8ByteSize ≤ 8)
    (hn : name.toList.contains '\x00' = false) : Volume.refusal (root.join name) = none := by
  have := h.short
  have := Path.size_text_join root name
  exact Path.refusal_eq_none (Path.isBroken_join h.unbroken hn) (by omega)

theorem refusal_folder (h : Roomy root) (r : Retention) :
    Volume.refusal (folder root r) = none := by
  cases r
  · exact h.refusal_join (by decide) (by decide)
  · exact h.refusal_join (by decide) (by decide)

theorem refusal_staging (h : Roomy root) : Volume.refusal (staging root) = none :=
  h.refusal_join (by decide) (by decide)

theorem refusal_recordPath (h : Roomy root) (d : Digest) (r : Retention) :
    Volume.refusal (recordPath root d r) = none := by
  have hs := h.short
  have hf : (folder root r).isBroken = false ∧
      (folder root r).text.utf8ByteSize ≤ root.text.utf8ByteSize + 9 := by
    cases r
    · exact ⟨Path.isBroken_join h.unbroken (by decide),
        Nat.le_trans (Path.size_text_join root "records")
          (Nat.add_le_add_left (show ("records" : String).utf8ByteSize ≤ 8 by decide) _)⟩
    · exact ⟨Path.isBroken_join h.unbroken (by decide),
        Nat.le_trans (Path.size_text_join root "retained")
          (Nat.add_le_add_left (show ("retained" : String).utf8ByteSize ≤ 8 by decide) _)⟩
  have hj := Path.size_text_join (folder root r) d.text
  rw [d.size_text] at hj
  refine Path.refusal_eq_none (Path.isBroken_join hf.1 d.unbroken_text) ?_
  show ((folder root r).join d.text).text.utf8ByteSize ≤ Path.longest
  omega

theorem named_folder (h : Roomy root) (r : Retention) :
    ∀ piece ∈ (folder root r).pieces, Path.isLongName piece = false := by
  rw [folder_eq]
  exact Path.longName_join h.named (by cases r <;> decide)

end Roomy

end Disk

end TierCache
