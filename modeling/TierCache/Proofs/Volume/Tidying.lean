import TierCache.Proofs.Volume.Change

/-!
# Volumes as a tree, and changes that write no file

What stands in a volume stands in a folder, and every effect leaves it so. A volume is tidied by
changes that write no file: below one place anything may go, and on the way to it folders may come.
-/
namespace TierCache.Volume

/-- What stands in a volume stands in a folder. -/
def Rooted (v : Volume) : Prop :=
  ∀ place name, (v.node? (place ++ [name])).isSome → v.node? place = some .folder

theorem Rooted.node?_append {v : Volume} (h : v.Rooted) {place : Place}
    (hn : v.node? place = none) (below : Place) : v.node? (place ++ below) = none := by
  induction below generalizing place with
  | nil => rwa [List.append_nil]
  | cons name below ih =>
    have hc : v.node? (place ++ [name]) = none := by
      rw [← Option.not_isSome_iff_eq_none]
      intro hs
      rw [h place name hs] at hn
      cases hn
    have := ih hc
    rwa [List.append_assoc] at this

namespace Rooted

variable {v : Volume} {place : Place}

theorem dropLast (h : v.Rooted) (hn : (v.node? place).isSome) :
    v.node? place.dropLast = some .folder := by
  cases he : place.getLast? with
  | none => rw [List.getLast?_eq_none_iff.mp he]; rfl
  | some name =>
    obtain ⟨above, rfl⟩ := List.getLast?_eq_some_iff.mp he
    rw [List.dropLast_concat]
    exact h above name hn

theorem folder_of_append (h : v.Rooted) {below : Place} (hne : below ≠ [])
    (hn : (v.node? (place ++ below)).isSome) : v.node? place = some .folder := by
  cases below with
  | nil => exact absurd rfl hne
  | cons name rest =>
    refine h place name ?_
    rw [Option.isSome_iff_ne_none]
    intro hc
    have hbelow := h.node?_append hc rest
    rw [List.append_assoc, List.singleton_append] at hbelow
    rw [hbelow] at hn
    cases hn

/-- A node may come into a folder, but no file in the place of a folder. -/
theorem setNode (h : v.Rooted) (hp : place ≠ []) (hd : v.node? place.dropLast = some .folder)
    {node : Node} (hn : node = .folder ∨ v.node? place ≠ some .folder) :
    (v.setNode place node).Rooted := by
  intro q name hs
  rw [node?_setNode hp] at hs
  have hv : v.node? q = some .folder := by
    split at hs
    · rename_i he
      rw [← he, List.dropLast_concat] at hd
      exact hd
    · exact h q name hs
  rw [node?_setNode hp]
  split
  · rename_i hq
    rcases hn with rfl | hn
    · rfl
    · exact absurd (hq ▸ hv) hn
  · exact hv

theorem erase (h : v.Rooted) (hn : ∀ name, v.node? (place ++ [name]) = none) :
    ({ v with nodes := v.nodes.erase place } : Volume).Rooted := by
  intro q name hs
  rw [node?_eraseNode] at hs ⊢
  split at hs
  · cases hs
  · have hv := h q name hs
    rw [if_neg, hv]
    rintro ⟨rfl, -⟩
    rw [hn] at hs
    cases hs

theorem eraseFile (h : v.Rooted) {bytes : List UInt8} {time : Int}
    (hn : v.node? place = some (.file bytes time)) :
    ({ v with nodes := v.nodes.erase place } : Volume).Rooted := by
  refine h.erase fun name => ?_
  rw [← Option.not_isSome_iff_eq_none]
  intro hs
  rw [h place name hs] at hn
  cases hn

theorem clear (h : v.Rooted) (place : Place) :
    ({ v with nodes := v.nodes.clear place } : Volume).Rooted := by
  intro q name hs
  rw [node?_clearNodes] at hs ⊢
  split at hs
  · cases hs
  · rename_i hp
    rw [if_neg, h q name hs]
    rintro ⟨hq, hne⟩
    refine hp ⟨hq.trans (List.prefix_append _ _), ?_⟩
    intro he
    have := congrArg List.length he
    have := hq.length_le
    simp only [List.length_append, List.length_cons, List.length_nil] at *
    omega

theorem makeWay (h : v.Rooted) (hn : v.node? place = some .folder) (pieces : List String) :
    (v.makeWay place pieces).1.Rooted := by
  induction pieces generalizing v place with
  | nil => exact h
  | cons piece rest ih =>
    have hp : place ++ [piece] ≠ [] := by simp
    have hd : v.node? (place ++ [piece]).dropLast = some .folder := by
      rwa [List.dropLast_concat]
    rw [Volume.makeWay]
    split
    · exact ih h hn
    · split
      · exact ih h (h.dropLast (by rw [hn]; rfl))
      · simp only
        split
        · rename_i hf
          exact ih h hf
        · exact h
        · split
          · exact h
          · split
            · exact h
            · exact ih (h.setNode hp hd (.inl rfl)) (by rw [node?_setNode hp, if_pos rfl])

theorem makeFolders (h : v.Rooted) (p : Path) : (v.makeFolders p).1.Rooted := by
  rw [Volume.makeFolders]
  split
  · exact h
  · exact h.makeWay rfl p.pieces

/-- A path leads into a folder, also where nothing stands at its end. -/
theorem folder_of_follow (h : v.Rooted) {goal : Place} {pieces : List String}
    (hd : v.node? place.dropLast = some .folder) (hf : v.follow place pieces = .ok goal) :
    v.node? goal.dropLast = some .folder := by
  induction pieces generalizing place with
  | nil =>
    cases hf
    exact hd
  | cons piece rest ih =>
    rw [follow] at hf
    split at hf
    · rename_i hn
      split at hf
      · exact ih hd hf
      · split at hf
        · exact ih (h.dropLast (by rw [hd]; rfl)) hf
        · refine ih ?_ hf
          rwa [List.dropLast_concat]
    · cases hf
    · cases hf

theorem setFile (h : v.Rooted) {p : Path} (hp : v.filePlace p = .ok place) (bytes : List UInt8)
    (time : Int) : (v.setNode place (.file bytes time)).Rooted := by
  obtain ⟨hl, rfl, hn, -⟩ := filePlace_eq_ok_iff.mp hp
  refine h.setNode ?_ ?_ (.inr hn)
  · intro he
    rw [he] at hn
    exact hn rfl
  · exact h.folder_of_follow rfl (follow_eq_ok_iff.mpr ⟨hl.2, rfl⟩)

theorem removeTree (h : v.Rooted) (p : Path) : (v.removeTree p).1.Rooted := by
  rw [Volume.removeTree]
  split
  · simp only
    split
    · exact h.clear _
    · split
      · exact h.clear _
      · refine (h.clear _).erase fun name => ?_
        rw [node?_clearNodes, if_pos]
        exact ⟨List.prefix_append _ _, by simp⟩
  · exact h
  · exact h

theorem apply (h : v.Rooted) (e : Effect) : (v.apply e).1.Rooted := by
  cases e with
  | makeFolders p => exact h.makeFolders p
  | createFile p =>
    rw [Volume.apply, writeFile]
    cases hp : v.filePlace p with
    | error err => exact h
    | ok place => exact h.setFile hp [] v.clock
  | append p bytes =>
    rw [Volume.apply, append]
    split
    · rename_i place old time hk
      obtain ⟨-, rfl, hn⟩ := look_eq_ok_iff.mp hk
      refine h.setNode ?_ (h.dropLast (by rw [hn]; rfl)) (.inr (by simp [hn]))
      intro he
      rw [he] at hn
      cases hn
    · exact h
    · exact h
  | moveFile source target =>
    rw [Volume.apply, moveFile]
    split
    · rename_i place bytes time hk
      obtain ⟨-, rfl, hn⟩ := look_eq_ok_iff.mp hk
      cases hp : v.filePlace target with
      | error err => exact h
      | ok goal =>
        obtain ⟨hl, rfl, hf, -⟩ := filePlace_eq_ok_iff.mp hp
        have hg : target.goal ≠ [] := by
          intro he
          rw [he] at hf
          exact hf rfl
        have hd := h.folder_of_follow rfl (follow_eq_ok_iff.mpr ⟨hl.2, rfl⟩)
        have keep : ∀ q, v.node? q = some .folder →
            ({ v with nodes := v.nodes.erase source.goal } : Volume).node? q = some .folder := by
          intro q hq
          rw [node?_eraseNode, if_neg, hq]
          rintro ⟨rfl, -⟩
          rw [hq] at hn
          cases hn
        refine (h.eraseFile hn).setNode hg (keep _ hd) (.inr ?_)
        rw [node?_eraseNode]
        split
        · simp
        · exact hf
    · exact h
    · exact h
  | discard p =>
    rw [Volume.apply, removeFile]
    split
    · rename_i place bytes time hk
      exact h.eraseFile (look_eq_ok_iff.mp hk).2.2
    · exact h
    · exact h
  | clearTree p =>
    rw [Volume.apply]
    split
    · exact h.removeTree p
    · exact h

theorem run (h : v.Rooted) (es : List Effect) : (v.run es).1.Rooted := by
  induction es generalizing v with
  | nil => exact h
  | cons e es ih =>
    have he := h.apply e
    rw [Volume.run]
    split
    · rename_i w hw
      rw [hw] at he
      exact ih he
    · exact he

theorem touch (h : v.Rooted) (p : Path) : (v.touch p).Rooted := by
  rw [Volume.touch]
  split
  · rename_i place bytes time hk
    obtain ⟨-, rfl, hn⟩ := look_eq_ok_iff.mp hk
    refine h.setNode ?_ (h.dropLast (by rw [hn]; rfl)) (.inr (by simp [hn]))
    intro he
    rw [he] at hn
    cases hn
  · exact h

end Rooted

/-- What a volume comes to by changes that write no file. Below a place anything may go, and on a
way folders may come. -/
inductive Tidied (place : Place) (way : List Place) (v : Volume) : Volume → Prop where
  | refl : Tidied place way v v
  | makeFolders {w : Volume} (p : Path) (h : Tidied place way v w)
      (hp : ∀ q, q ∈ p.way ∨ q = p.goal → place <+: q ∨ q ∈ way) :
      Tidied place way v (w.makeFolders p).1
  | discard {w : Volume} (p : Path) (h : Tidied place way v w) (hp : place <+: p.goal) :
      Tidied place way v (w.discard p)
  | clearTree {w : Volume} (p : Path) (h : Tidied place way v w) (hp : place <+: p.goal) :
      Tidied place way v (w.apply (.clearTree p)).1
  | touch {w : Volume} (p : Path) (h : Tidied place way v w) (hp : place <+: p.goal) :
      Tidied place way v (w.touch p)

namespace Tidied

variable {place place' : Place} {way way' : List Place} {u v w : Volume}

theorem trans (h : Tidied place way u v) (h' : Tidied place way v w) : Tidied place way u w := by
  induction h' with
  | refl => exact h
  | makeFolders p _ hp ih => exact ih.makeFolders p hp
  | discard p _ hp ih => exact ih.discard p hp
  | clearTree p _ hp ih => exact ih.clearTree p hp
  | touch p _ hp ih => exact ih.touch p hp

theorem run {es : List Effect} (h : ∀ e ∈ es, ∀ u : Volume, Tidied place way u (u.apply e).1) :
    Tidied place way v (v.run es).1 := by
  induction es generalizing v with
  | nil => exact .refl
  | cons e es ih =>
    have he := h e List.mem_cons_self v
    rw [Volume.run]
    split
    · rename_i w hw
      rw [hw] at he
      exact he.trans (ih fun e' he' => h e' (List.mem_cons_of_mem e he'))
    · exact he

theorem mono (h : Tidied place way v w) (hp : place' <+: place)
    (hw : ∀ q ∈ way, place' <+: q ∨ q ∈ way') : Tidied place' way' v w := by
  induction h with
  | refl => exact .refl
  | makeFolders p _ hq ih =>
    exact ih.makeFolders p fun q h => (hq q h).elim (fun h => .inl (hp.trans h)) (hw q)
  | discard p _ hq ih => exact ih.discard p (hp.trans hq)
  | clearTree p _ hq ih => exact ih.clearTree p (hp.trans hq)
  | touch p _ hq ih => exact ih.touch p (hp.trans hq)

theorem medium (h : Tidied place way v w) : w.clock = v.clock ∧ w.free = v.free := by
  induction h with
  | refl => exact ⟨rfl, rfl⟩
  | @makeFolders w p _ _ ih =>
    have hm := medium_makeFolders w p
    exact ⟨hm.1.trans ih.1, hm.2.trans ih.2⟩
  | @discard w p _ _ ih =>
    have hm := medium_discard w p
    exact ⟨hm.1.trans ih.1, hm.2.trans ih.2⟩
  | @clearTree w p _ _ ih =>
    have hm := medium_apply w (.clearTree p)
    exact ⟨hm.1.trans ih.1, hm.2.trans ih.2⟩
  | @touch w p _ _ ih =>
    have hm := medium_touch w p
    exact ⟨hm.1.trans ih.1, hm.2.trans ih.2⟩

theorem rooted (h : Tidied place way v w) (hv : v.Rooted) : w.Rooted := by
  induction h with
  | refl => exact hv
  | makeFolders p _ _ ih => exact ih.makeFolders p
  | discard p _ _ ih => exact ih.run [.discard p]
  | clearTree p _ _ ih => exact ih.apply (.clearTree p)
  | touch p _ _ ih => exact ih.touch p

/-- Every file was there before, with what it holds. -/
theorem files (h : Tidied place way v w) {q : Place} {bytes : List UInt8} {time : Int}
    (hf : w.fileAt? q = some (bytes, time)) : ∃ time', v.fileAt? q = some (bytes, time') := by
  induction h generalizing time with
  | refl => exact ⟨time, hf⟩
  | makeFolders p _ _ ih =>
    rw [(makeFolders_keeps _ p).2.1] at hf
    exact ih hf
  | discard p _ _ ih =>
    rw [fileAt?_discard] at hf
    split at hf
    · cases hf
    · exact ih hf
  | @clearTree w p _ _ ih =>
    rcases node?_clearTree w p q with hn | ⟨hn, -⟩
    · rw [fileAt?, hn] at hf
      exact ih hf
    · rw [fileAt?, hn] at hf
      cases hf
  | touch p _ _ ih =>
    rw [fileAt?_touch] at hf
    split at hf
    · obtain ⟨⟨bytes', time'⟩, hw, he⟩ := Option.map_eq_some_iff.mp hf
      cases he
      exact ih hw
    · exact ih hf

/-- Elsewhere nothing goes, and folders come on the way only. -/
theorem outside (h : Tidied place way v w) {q : Place} (hq : ¬ place <+: q) :
    w.node? q = v.node? q ∨ v.node? q = none ∧ w.node? q = some .folder ∧ q ∈ way := by
  have apart : ∀ {p : Path}, place <+: p.goal → q ≠ p.goal := by
    rintro p hp rfl
    exact hq hp
  have keep : ∀ {x y : Volume}, y.node? q = x.node? q →
      (x.node? q = v.node? q ∨ v.node? q = none ∧ x.node? q = some .folder ∧ q ∈ way) →
      y.node? q = v.node? q ∨ v.node? q = none ∧ y.node? q = some .folder ∧ q ∈ way := by
    intro x y he hx
    rwa [he]
  induction h with
  | refl => exact .inl rfl
  | @makeFolders w p _ hp ih =>
    rcases node?_makeFolders_cases w p q with hn | ⟨hn, hm, hm'⟩
    · exact keep hn ih
    · refine .inr ⟨?_, hm, (hp q hm').resolve_left hq⟩
      rcases ih with ih | ⟨ih, -⟩
      · rw [← ih, hn]
      · exact ih
  | @discard w p _ hp ih =>
    refine keep ?_ ih
    rw [node?_discard, if_neg fun h => apart hp h.2.1]
  | @clearTree w p _ hp ih =>
    refine keep ?_ ih
    exact (node?_clearTree w p q).resolve_right fun h => hq (hp.trans h.2.2)
  | @touch w p _ hp ih =>
    refine keep (node?_congr (folder_touch w p q) ?_) ih
    rw [fileAt?_touch, if_neg fun h => apart hp h.2]

end Tidied

end TierCache.Volume
