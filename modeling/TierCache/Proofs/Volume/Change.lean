import TierCache.Proofs.Volume.Way

/-!
# What a change does to a volume

Each effect, described by the folders and the files that are there afterwards. Paths that cannot
be followed change nothing.
-/
namespace TierCache.Volume

theorem node?_eraseNode {v : Volume} {place q : Place} :
    ({ v with nodes := v.nodes.erase place } : Volume).node? q =
      if q = place ∧ q ≠ [] then none else v.node? q := by
  unfold node?
  by_cases hq : q = []
  · simp [hq]
  · simp [hq]

theorem node?_clearNodes {v : Volume} {place q : Place} :
    ({ v with nodes := v.nodes.clear place } : Volume).node? q =
      if place <+: q ∧ q ≠ place then none else v.node? q := by
  unfold node?
  by_cases hq : q = []
  · subst hq
    have hn : ¬ (place <+: [] ∧ [] ≠ place) := fun h => h.2 (List.prefix_nil.mp h.1).symm
    rw [if_pos rfl, if_neg hn, if_pos rfl]
  · simp [hq]

theorem fileAt?_setFile {v : Volume} {place q : Place} {bytes : List UInt8} {time : Int}
    (h : place ≠ []) : (v.setNode place (.file bytes time)).fileAt? q =
      if q = place then some (bytes, time) else v.fileAt? q := by
  unfold fileAt?
  rw [node?_setNode h]
  by_cases hq : q = place <;> simp [hq]

theorem fileAt?_setFolder {v : Volume} {place q : Place} (h : place ≠ []) :
    (v.setNode place .folder).fileAt? q = if q = place then none else v.fileAt? q := by
  unfold fileAt?
  rw [node?_setNode h]
  by_cases hq : q = place <;> simp [hq]

theorem folder_setFile {v : Volume} {place q : Place} {bytes : List UInt8} {time : Int}
    (h : place ≠ []) : (v.setNode place (.file bytes time)).node? q = some .folder ↔
      q ≠ place ∧ v.node? q = some .folder := by
  rw [node?_setNode h]
  split <;> simp_all

/-- All that `makeWay` has made or found is on the way, and it has changed nothing else. -/
theorem node?_makeWay {v w : Volume} {place : Place} {pieces : List String}
    (hp : ∀ q, q <+: place → v.node? q = some .folder)
    (h : v.makeWay place pieces = (w, none)) (q : Place) :
    w.node? q = if q ∈ Path.visited place pieces ∨ q = Path.lead place pieces
      then some .folder else v.node? q := by
  induction pieces generalizing v place with
  | nil =>
    obtain rfl : v = w := congrArg Prod.fst h
    by_cases hq : q = place
    · simp [Path.visited, Path.lead, hq, hp place (List.prefix_refl place)]
    · simp [Path.visited, Path.lead, hq]
  | cons piece rest ih =>
    have here : v.node? place = some .folder := hp place (List.prefix_refl place)
    have hl : Path.lead place (piece :: rest) = Path.lead (Path.advance place piece) rest := rfl
    have close : w.node? q = (if q ∈ Path.visited (Path.advance place piece) rest ∨
          q = Path.lead (Path.advance place piece) rest then some .folder else v.node? q) →
        w.node? q = if q ∈ Path.visited place (piece :: rest) ∨
          q = Path.lead place (piece :: rest) then some .folder else v.node? q := by
      intro he
      rw [he, hl, Path.visited]
      simp only [List.mem_cons]
      by_cases hq : q = place
      · simp [hq, here]
      · simp [hq]
    apply close
    unfold makeWay at h
    split at h
    · rename_i hs
      have ha : Path.advance place piece = place := by rw [Path.advance, if_pos hs]
      rw [ha]
      exact ih hp h
    · rename_i hs
      split at h
      · rename_i hd
        have ha : Path.advance place piece = place.dropLast := by
          rw [Path.advance, if_neg hs, if_pos hd]
        rw [ha]
        exact ih (fun q hq => hp q (hq.trans (List.dropLast_prefix place))) h
      · rename_i hd
        have ha : Path.advance place piece = place ++ [piece] := by
          rw [Path.advance, if_neg hs, if_neg hd]
        rw [ha]
        simp only at h
        -- what is made, or was there, is a folder, and so are all places above it
        have below : ∀ {u : Volume}, (∀ q, q <+: place → u.node? q = some .folder) →
            u.node? (place ++ [piece]) = some .folder →
            ∀ q, q <+: place ++ [piece] → u.node? q = some .folder := by
          intro u hu hn q hq
          rcases List.prefix_concat_iff.mp hq with rfl | hq
          · exact hn
          · exact hu q hq
        split at h
        · rename_i hn
          exact ih (below hp hn) h
        · cases h
        · rename_i hn
          split at h
          · cases h
          · split at h
            · cases h
            · have hne : place ++ [piece] ≠ [] := by simp
              have hset : ∀ q, (v.setNode (place ++ [piece]) .folder).node? q =
                  if q = place ++ [piece] then some .folder else v.node? q :=
                fun q => node?_setNode hne
              rw [ih (below (fun q hq => by rw [hset]; split <;> simp [hp q hq])
                (by simp [hset])) h]
              by_cases hq : q = place ++ [piece]
              · subst hq
                have hm : place ++ [piece] ∈ Path.visited (place ++ [piece]) rest ∨
                    place ++ [piece] = Path.lead (place ++ [piece]) rest := by
                  cases rest with
                  | nil => exact .inr rfl
                  | cons _ _ => exact .inl List.mem_cons_self
                simp [hm]
              · simp [hset, hq]

theorem node?_makeFolders {v w : Volume} {p : Path} (h : v.makeFolders p = (w, none)) (q : Place) :
    w.node? q = if q ∈ p.way ∨ q = p.goal then some .folder else v.node? q := by
  unfold makeFolders at h
  split at h
  · cases h
  · refine node?_makeWay (fun q hq => ?_) h q
    simp [List.prefix_nil.mp hq]

/-- Folders are only made where nothing stands, also if not all of them can be made. -/
theorem node?_makeWay_cases (v : Volume) (place : Place) (pieces : List String) (q : Place) :
    (v.makeWay place pieces).1.node? q = v.node? q ∨
      v.node? q = none ∧ (v.makeWay place pieces).1.node? q = some .folder ∧
        (q ∈ Path.visited place pieces ∨ q = Path.lead place pieces) := by
  induction pieces generalizing v place with
  | nil => exact .inl rfl
  | cons piece rest ih =>
    have onward : ∀ {u : Volume}, u.node? q = v.node? q ∨ v.node? q = none ∧
        u.node? q = some .folder ∧ (q ∈ Path.visited (Path.advance place piece) rest ∨
          q = Path.lead (Path.advance place piece) rest) →
        u.node? q = v.node? q ∨ v.node? q = none ∧ u.node? q = some .folder ∧
          (q ∈ Path.visited place (piece :: rest) ∨ q = Path.lead place (piece :: rest)) :=
      fun h => h.imp_right fun ⟨hn, hu, hq⟩ =>
        ⟨hn, hu, hq.imp (fun h => List.mem_cons_of_mem _ h) (fun h => h)⟩
    apply onward
    rw [makeWay, Path.advance]
    by_cases hs : Path.isStill piece = true
    · rw [if_pos hs, if_pos hs]
      exact ih v place
    · rw [if_neg hs, if_neg hs]
      by_cases hd : piece = ".."
      · rw [if_pos hd, if_pos hd]
        exact ih v place.dropLast
      · rw [if_neg hd, if_neg hd]
        simp only
        split
        · exact ih v (place ++ [piece])
        · exact .inl rfl
        · rename_i hn
          split
          · exact .inl rfl
          · split
            · exact .inl rfl
            · have hne : place ++ [piece] ≠ [] := by simp
              have h := ih (v.setNode (place ++ [piece]) .folder) (place ++ [piece])
              rw [node?_setNode hne] at h
              by_cases hq : q = place ++ [piece]
              · rw [if_pos hq] at h
                refine .inr ⟨hq ▸ hn, h.resolve_right fun h => Option.some_ne_none _ h.1, ?_⟩
                rw [hq]
                cases rest with
                | nil => exact .inr rfl
                | cons _ _ => exact .inl List.mem_cons_self
              · rwa [if_neg hq] at h

theorem node?_makeFolders_cases (v : Volume) (p : Path) (q : Place) :
    (v.makeFolders p).1.node? q = v.node? q ∨
      v.node? q = none ∧ (v.makeFolders p).1.node? q = some .folder ∧ (q ∈ p.way ∨ q = p.goal) := by
  unfold makeFolders
  split
  · exact .inl rfl
  · exact node?_makeWay_cases v [] p.pieces q

theorem medium_makeWay (v : Volume) (place : Place) (pieces : List String) :
    (v.makeWay place pieces).1.clock = v.clock ∧ (v.makeWay place pieces).1.free = v.free := by
  induction pieces generalizing v place with
  | nil => exact ⟨rfl, rfl⟩
  | cons piece rest ih =>
    rw [makeWay]
    split
    · exact ih v place
    · split
      · exact ih v place.dropLast
      · simp only
        split
        · exact ih v (place ++ [piece])
        · exact ⟨rfl, rfl⟩
        · split
          · exact ⟨rfl, rfl⟩
          · split
            · exact ⟨rfl, rfl⟩
            · exact ih (v.setNode (place ++ [piece]) .folder) (place ++ [piece])

theorem medium_makeFolders (v : Volume) (p : Path) :
    (v.makeFolders p).1.clock = v.clock ∧ (v.makeFolders p).1.free = v.free := by
  unfold makeFolders
  split
  · exact ⟨rfl, rfl⟩
  · exact medium_makeWay v [] p.pieces

theorem makeFolders_keeps (v : Volume) (p : Path) :
    (v.makeFolders p).1.clock = v.clock ∧
      (∀ q, (v.makeFolders p).1.fileAt? q = v.fileAt? q) ∧
      ∀ q, v.node? q = some .folder → (v.makeFolders p).1.node? q = some .folder := by
  refine ⟨(medium_makeFolders v p).1, fun q => ?_, fun q hq => ?_⟩
  · rcases node?_makeFolders_cases v p q with h | ⟨hn, h, -⟩
    · rw [fileAt?, h]
      rfl
    · rw [fileAt?_of_folder h, fileAt?, hn]
  · rcases node?_makeFolders_cases v p q with h | ⟨-, h, -⟩
    · rw [h, hq]
    · exact h

theorem isFolder_of_makeFolders {v w : Volume} {p : Path} (h : v.makeFolders p = (w, none)) :
    w.isFolder p = true := by
  have hr : refusal p = none := by
    unfold makeFolders at h
    split at h
    · cases h
    · assumption
  rw [isFolder_iff]
  exact ⟨⟨hr, fun q hq => by simp [node?_makeFolders h, hq]⟩, by simp [node?_makeFolders h]⟩

/-- Nothing but a file on the way and a name that is too long keeps `makeWay` from its end, if there
is something or the way ends in a name. -/
theorem makeWay_ok {v : Volume} {place : Place} {pieces : List String}
    (hn : ∀ piece ∈ pieces, Path.isLongName piece = false)
    (hf : ∀ q, q ∈ Path.visited place pieces ∨ q = Path.lead place pieces → v.fileAt? q = none)
    (hlast : v.node? (Path.lead place pieces) = none →
      ∀ name, pieces.getLast? = some name → Path.IsName name) :
    ∃ w, v.makeWay place pieces = (w, none) := by
  induction pieces generalizing v place with
  | nil => exact ⟨v, rfl⟩
  | cons piece rest ih =>
    have hl : Path.lead place (piece :: rest) = Path.lead (Path.advance place piece) rest := rfl
    have hn' := (List.forall_mem_cons.mp hn).2
    have hf' : ∀ q, q ∈ Path.visited (Path.advance place piece) rest ∨
        q = Path.lead (Path.advance place piece) rest → v.fileAt? q = none := by
      intro q hq
      refine hf q (hq.imp (fun h => ?_) (fun h => ?_))
      · exact List.mem_cons_of_mem _ h
      · exact h.trans hl.symm
    have hlast' : v.node? (Path.lead (Path.advance place piece) rest) = none →
        ∀ name, rest.getLast? = some name → Path.IsName name := by
      intro hnone name he
      apply hlast hnone
      rw [List.getLast?_cons, he]
      rfl
    unfold makeWay
    split
    · rename_i hs
      rw [show Path.advance place piece = place by rw [Path.advance, if_pos hs]] at hf' hlast'
      exact ih hn' hf' hlast'
    · rename_i hs
      split
      · rename_i hd
        rw [show Path.advance place piece = place.dropLast by
          rw [Path.advance, if_neg hs, if_pos hd]] at hf' hlast'
        exact ih hn' hf' hlast'
      · rename_i hd
        rw [show Path.advance place piece = place ++ [piece] by
          rw [Path.advance, if_neg hs, if_neg hd]] at hf' hlast'
        simp only
        have hm : place ++ [piece] ∈ Path.visited (place ++ [piece]) rest ∨
            place ++ [piece] = Path.lead (place ++ [piece]) rest := by
          cases rest with
          | nil => exact .inr rfl
          | cons _ _ => exact .inl List.mem_cons_self
        have hnf : v.fileAt? (place ++ [piece]) = none := hf' _ hm
        split
        · exact ih hn' hf' hlast'
        · rename_i hfile
          rw [fileAt?_eq_some_iff.mpr hfile] at hnf
          cases hnf
        · rename_i hnone
          rw [if_neg (by simp [(List.forall_mem_cons.mp hn).1])]
          rw [if_neg]
          · refine ih hn' (fun q hq => ?_) fun hnone => hlast' ?_
            · rw [fileAt?_setFolder (by simp), hf' q hq, ite_self]
            · rw [node?_setNode (by simp)] at hnone
              split at hnone
              · cases hnone
              · exact hnone
          · -- the way does not end in a dot
            intro hall
            simp only [Bool.and_eq_true, List.all_eq_true] at hall
            have hlead := Path.lead_of_isStill (place ++ [piece]) hall.1
            cases he : rest.getLast? with
            | none => simp [List.getLast?_eq_none_iff.mp he] at hall
            | some name =>
              have hname := (hlast' (by rw [hlead]; exact hnone) name he).1
              simp [hall.1 name (List.mem_of_getLast? he)] at hname

/-- The folders of a path can be made if there is something or it ends in a name. -/
theorem makeFolders_ok {v : Volume} {p : Path} (hr : refusal p = none)
    (hn : ∀ piece ∈ p.pieces, Path.isLongName piece = false)
    (hf : ∀ q, q ∈ p.way ∨ q = p.goal → v.fileAt? q = none)
    (hlast : v.node? p.goal = none → ∃ name, p.pieces.getLast? = some name ∧ Path.IsName name) :
    ∃ w, v.makeFolders p = (w, none) := by
  unfold makeFolders
  rw [hr]
  refine makeWay_ok hn hf fun hnone name' he => ?_
  obtain ⟨name, hlast, hname⟩ := hlast hnone
  obtain rfl := Option.some.inj (hlast.symm.trans he)
  exact hname

/-- The folders of a path cannot be made where a file is in the place of one, or where the path ends
in a dot and there is nothing. -/
theorem file_of_makeFolders {v : Volume} {p : Path} (hr : refusal p = none)
    (hn : ∀ piece ∈ p.pieces, Path.isLongName piece = false) (h : (v.makeFolders p).2 ≠ none) :
    (∃ q, (q ∈ p.way ∨ q = p.goal) ∧ (v.fileAt? q).isSome) ∨ v.node? p.goal = none := by
  by_cases hgoal : v.node? p.goal = none
  · exact .inr hgoal
  by_cases hfile : ∃ q, (q ∈ p.way ∨ q = p.goal) ∧ (v.fileAt? q).isSome
  · exact .inl hfile
  obtain ⟨w, hw⟩ := makeFolders_ok (v := v) hr hn
    (fun q hq => Option.not_isSome_iff_eq_none.mp fun hf => hfile ⟨q, hq, hf⟩)
    fun hnone => absurd hnone hgoal
  exact absurd (congrArg Prod.snd hw) h

/-- A way that can be made is made, whatever it goes on to. -/
theorem makeWay_append {v w : Volume} {place : Place} {xs ys : List String}
    (h : v.makeWay place xs = (w, none)) (hy : ∃ y ∈ ys, Path.isStill y = false) :
    v.makeWay place (xs ++ ys) = w.makeWay (Path.lead place xs) ys := by
  induction xs generalizing v place with
  | nil =>
    cases h
    rfl
  | cons piece rest ih =>
    have hl : Path.lead place (piece :: rest) = Path.lead (Path.advance place piece) rest := rfl
    rw [makeWay] at h
    rw [List.cons_append, makeWay, hl, Path.advance]
    split
    · rename_i hs
      rw [if_pos hs] at h
      exact ih h
    · rename_i hs
      rw [if_neg hs] at h
      split
      · rename_i hd
        rw [if_pos hd] at h
        exact ih h
      · rename_i hd
        rw [if_neg hd] at h
        simp only at h ⊢
        split at h
        · exact ih h
        · cases h
        · split at h
          · cases h
          · rename_i hlong
            split at h
            · cases h
            · -- the longer way does not end in a dot either
              obtain ⟨y, hm, hy⟩ := hy
              have hend : ((rest ++ ys).all Path.isStill && (rest ++ ys).contains ".") = false := by
                rw [Bool.and_eq_false_iff]
                refine .inl (List.all_eq_false.mpr ⟨y, List.mem_append_right _ hm, ?_⟩)
                rw [hy]
                exact Bool.false_ne_true
              simp only [hlong, hend, if_false, Bool.false_eq_true]
              exact ih h

theorem filePlace_eq_ok_iff {v : Volume} {p : Path} {q : Place} :
    v.filePlace p = .ok q ↔ v.Leads p ∧ q = p.goal ∧ v.node? q ≠ some .folder ∧
      q.getLast?.any Path.isLongName = false := by
  unfold filePlace
  cases hf : v.find p with
  | error err =>
    have : ¬ v.Leads p := fun h => by simp [find_of_leads h] at hf
    simp [this, bind, Except.bind]
  | ok place =>
    obtain ⟨hl, rfl⟩ := find_eq_ok_iff.mp hf
    simp only [bind, Except.bind, hl, true_and]
    by_cases hd : v.node? p.goal = some .folder
    · simp only [hd, if_true, throw, throwThe, MonadExceptOf.throw, reduceCtorEq, false_iff]
      rintro ⟨rfl, h, -⟩
      exact h hd
    · cases hn : p.goal.getLast?.any Path.isLongName with
      | true =>
        simp [hd, throw, throwThe, MonadExceptOf.throw]
        rintro rfl -
        exact hn
      | false =>
        simp [hd, pure, Except.pure]
        constructor
        · rintro rfl
          exact ⟨rfl, hd, hn⟩
        · exact fun h => h.1.symm

theorem fileAt?_writeFile {v w : Volume} {p : Path} {bytes : List UInt8}
    (h : v.writeFile p bytes = .ok w) (q : Place) :
    w.fileAt? q = if q = p.goal then some (bytes, v.clock) else v.fileAt? q := by
  rw [writeFile] at h
  cases hp : v.filePlace p with
  | error err =>
    rw [hp] at h
    cases h
  | ok place =>
    rw [hp] at h
    cases h
    obtain ⟨-, rfl, hn, -⟩ := filePlace_eq_ok_iff.mp hp
    refine fileAt?_setFile fun he => ?_
    rw [he] at hn
    exact hn rfl

theorem fileAt?_append {v w : Volume} {p : Path} {bytes : List UInt8}
    (h : v.append p bytes = .ok w) : ∃ old time, v.fileAt? p.goal = some (old, time) ∧
      ∀ q, w.fileAt? q = if q = p.goal then some (old ++ bytes, v.clock) else v.fileAt? q := by
  rw [append] at h
  split at h
  · rename_i place old time hk
    cases h
    obtain ⟨-, rfl, hn⟩ := look_eq_ok_iff.mp hk
    refine ⟨old, time, fileAt?_eq_some_iff.mpr hn, fun q => fileAt?_setFile fun he => ?_⟩
    rw [he] at hn
    cases hn
  · cases h
  · cases h

theorem fileAt?_moveFile {v w : Volume} {source target : Path}
    (h : v.moveFile source target = .ok w) : ∃ bytes time,
      v.fileAt? source.goal = some (bytes, time) ∧ ∀ q, w.fileAt? q =
        if q = target.goal then some (bytes, time)
        else if q = source.goal then none else v.fileAt? q := by
  rw [moveFile] at h
  split at h
  · rename_i place bytes time hk
    obtain ⟨-, rfl, hn⟩ := look_eq_ok_iff.mp hk
    cases hp : v.filePlace target with
    | error err =>
      rw [hp] at h
      cases h
    | ok goal =>
      rw [hp] at h
      cases h
      obtain ⟨-, rfl, hf, -⟩ := filePlace_eq_ok_iff.mp hp
      refine ⟨bytes, time, fileAt?_eq_some_iff.mpr hn, fun q => ?_⟩
      rw [fileAt?_setFile fun he => hf (by rw [he]; rfl)]
      split
      · rfl
      · rw [fileAt?, node?_eraseNode]
        by_cases hq : q = source.goal
        · have hne : q ≠ [] := by
            rintro rfl
            rw [← hq] at hn
            cases hn
          rw [if_pos ⟨hq, hne⟩, if_pos hq]
        · rw [if_neg fun h => hq h.1, if_neg hq]
          rfl
  · cases h
  · cases h

theorem append_of_file {v : Volume} {p : Path} {old : List UInt8} {time : Int}
    (h : v.Leads p) (hf : v.fileAt? p.goal = some (old, time)) (bytes : List UInt8) :
    v.append p bytes = .ok (v.setNode p.goal (.file (old ++ bytes) v.clock)) := by
  rw [append, look_eq_ok_iff.mpr ⟨h, rfl, fileAt?_eq_some_iff.mp hf⟩]

/-- A file that is there is moved wherever a file may stand. -/
theorem moveFile_of_file {v : Volume} {source : Path} {bytes : List UInt8} {time : Int}
    (h : v.Leads source) (hf : v.fileAt? source.goal = some (bytes, time)) (target : Path) :
    v.moveFile source target = (v.filePlace target).map fun goal =>
      { v with nodes := v.nodes.erase source.goal }.setNode goal (.file bytes time) := by
  rw [moveFile, look_eq_ok_iff.mpr ⟨h, rfl, fileAt?_eq_some_iff.mp hf⟩]
  rfl

theorem node?_discard (v : Volume) (p : Path) (q : Place) :
    (v.discard p).node? q =
      if v.Leads p ∧ q = p.goal ∧ (v.fileAt? q).isSome then none else v.node? q := by
  have hd : v.discard p = (v.settle (v.removeFile p)).1 := by
    simp [discard, run, apply]
  rw [hd, removeFile]
  cases hk : v.look p with
  | error err =>
    have hn : ¬ (v.Leads p ∧ q = p.goal ∧ (v.fileAt? q).isSome) := by
      rintro ⟨hl, rfl, hs⟩
      obtain ⟨⟨bytes, time⟩, he⟩ := Option.isSome_iff_exists.mp hs
      rw [look_eq_ok_iff.mpr ⟨hl, rfl, fileAt?_eq_some_iff.mp he⟩] at hk
      cases hk
    simp only [if_neg hn, settle]
  | ok r =>
    obtain ⟨place, n⟩ := r
    obtain ⟨hl, rfl, hn⟩ := look_eq_ok_iff.mp hk
    cases n with
    | folder =>
      have hn' : ¬ (v.Leads p ∧ q = p.goal ∧ (v.fileAt? q).isSome) := by
        rintro ⟨-, rfl, hs⟩
        simp [fileAt?_of_folder hn] at hs
      simp only [if_neg hn', settle]
    | file bytes time =>
      have hne : p.goal ≠ [] := by
        intro he
        simp [he] at hn
      simp only [settle, node?_eraseNode, hl, true_and]
      by_cases hq : q = p.goal
      · subst hq
        simp [hne, fileAt?_eq_some_iff.mpr hn]
      · simp [hq]

theorem folder_discard (v : Volume) (p : Path) (q : Place) :
    (v.discard p).node? q = some .folder ↔ v.node? q = some .folder := by
  rw [node?_discard]
  split
  · rename_i h
    simp only [reduceCtorEq, false_iff]
    intro hd
    simp [fileAt?_of_folder hd] at h
  · rfl

@[simp] theorem fileAt?_discard (v : Volume) (p : Path) (q : Place) :
    (v.discard p).fileAt? q = if v.Leads p ∧ q = p.goal then none else v.fileAt? q := by
  by_cases h : v.Leads p ∧ q = p.goal
  · rw [if_pos h]
    unfold fileAt?
    rw [node?_discard]
    by_cases hs : (v.fileAt? q).isSome
    · rw [if_pos ⟨h.1, h.2, hs⟩]
    · rw [if_neg (fun h' => hs h'.2.2)]
      exact Option.not_isSome_iff_eq_none.mp hs
  · rw [if_neg h]
    unfold fileAt?
    rw [node?_discard, if_neg (fun h' => h ⟨h'.1, h'.2.1⟩)]

/-- A touch changes the time of a file only. -/
@[simp] theorem fileAt?_touch (v : Volume) (p : Path) (q : Place) :
    (v.touch p).fileAt? q =
      if v.Leads p ∧ q = p.goal then (v.fileAt? q).map fun f => (f.1, v.clock)
      else v.fileAt? q := by
  by_cases h : v.Leads p ∧ q = p.goal
  · obtain ⟨hl, rfl⟩ := h
    rw [if_pos ⟨hl, rfl⟩]
    unfold touch
    cases hn : v.node? p.goal with
    | none => rw [look_of_leads_none hl hn]; simp [fileAt?, hn]
    | some n =>
      rw [look_eq_ok_iff.mpr ⟨hl, rfl, hn⟩]
      cases n with
      | folder => simp [fileAt?_of_folder hn]
      | file bytes time =>
        have hne : p.goal ≠ [] := by
          intro he
          simp [he] at hn
        simp [fileAt?_setFile hne, fileAt?_eq_some_iff.mpr hn]
  · rw [if_neg h]
    unfold touch
    split
    · rename_i place bytes time hk
      obtain ⟨hl, rfl, hn⟩ := look_eq_ok_iff.mp hk
      have hne : p.goal ≠ [] := by
        intro he
        simp [he] at hn
      rw [fileAt?_setFile hne, if_neg (fun hq => h ⟨hl, hq⟩)]
    · rfl

theorem folder_touch (v : Volume) (p : Path) (q : Place) :
    (v.touch p).node? q = some .folder ↔ v.node? q = some .folder := by
  unfold touch
  split
  · rename_i place bytes time hk
    obtain ⟨hl, rfl, hn⟩ := look_eq_ok_iff.mp hk
    have hne : p.goal ≠ [] := by
      intro he
      simp [he] at hn
    rw [folder_setFile hne]
    constructor
    · exact fun h => h.2
    · intro h
      refine ⟨?_, h⟩
      rintro rfl
      simp [hn] at h
  · rfl

/-- What goes away is at the end of the path or below it. -/
theorem node?_removeTree (v : Volume) (p : Path) (q : Place) :
    (v.removeTree p).1.node? q = v.node? q ∨
      (v.removeTree p).1.node? q = none ∧ v.Leads p ∧ p.goal <+: q := by
  unfold removeTree
  split
  · rename_i place hk
    obtain ⟨hl, rfl, hn⟩ := look_eq_ok_iff.mp hk
    have he : ∀ {u : Volume}, u.node? q = v.node? q ∨ u.node? q = none ∧ v.Leads p ∧ p.goal <+: q →
        ({ u with nodes := u.nodes.erase p.goal } : Volume).node? q = v.node? q ∨
        ({ u with nodes := u.nodes.erase p.goal } : Volume).node? q = none ∧
          v.Leads p ∧ p.goal <+: q := by
      intro u hu
      rw [node?_eraseNode]
      by_cases hq : q = p.goal ∧ q ≠ []
      · exact .inr ⟨if_pos hq, hl, hq.1 ▸ List.prefix_refl q⟩
      · rwa [if_neg hq]
    have hcl : ({ v with nodes := v.nodes.clear p.goal } : Volume).node? q = v.node? q ∨
        ({ v with nodes := v.nodes.clear p.goal } : Volume).node? q = none ∧
          v.Leads p ∧ p.goal <+: q := by
      rw [node?_clearNodes]
      by_cases hq : p.goal <+: q ∧ q ≠ p.goal
      · exact .inr ⟨if_pos hq, hl, hq.1⟩
      · exact .inl (if_neg hq)
    simp only
    split
    · exact hcl
    · split
      · exact hcl
      · exact he hcl
  · exact .inl rfl
  · exact .inl rfl

theorem node?_clearTree (v : Volume) (p : Path) (q : Place) :
    (v.apply (.clearTree p)).1.node? q = v.node? q ∨
      (v.apply (.clearTree p)).1.node? q = none ∧ v.Leads p ∧ p.goal <+: q := by
  rw [apply]
  split
  · exact node?_removeTree v p q
  · exact .inl rfl

/-- A folder that is cleared away loses all that is below it. Whether it stays itself depends on
where its path leads through. -/
theorem clearTree_of_isFolder {v : Volume} {p : Path} (hf : v.isFolder p = true)
    (hp : p.endsInDot = false) : ∃ w, v.apply (.clearTree p) = (w, none) ∧ w.clock = v.clock ∧
      w.fileAt? p.goal = none ∧
      ∀ q, q ≠ p.goal → w.node? q = if p.goal <+: q then none else v.node? q := by
  obtain ⟨hl, hn⟩ := isFolder_iff.mp hf
  have hk : v.look p = .ok (p.goal, .folder) := look_eq_ok_iff.mpr ⟨hl, rfl, hn⟩
  have hc : v.contains p = true := by simp [contains, hk, Except.toBool]
  have hcl : ∀ q, q ≠ p.goal → ({ v with nodes := v.nodes.clear p.goal } : Volume).node? q =
      if p.goal <+: q then none else v.node? q := by
    intro q hq
    simp [node?_clearNodes, hq]
  have hg : ({ v with nodes := v.nodes.clear p.goal } : Volume).node? p.goal = some .folder := by
    simp [node?_clearNodes, hn]
  have hcle : ({ v with nodes := (v.nodes.clear p.goal).erase p.goal } : Volume).fileAt? p.goal =
      none := by
    by_cases h : p.goal = []
    · simp [h]
    · simp [fileAt?, node?, h]
  have hclq : ∀ q, q ≠ p.goal →
      ({ v with nodes := (v.nodes.clear p.goal).erase p.goal } : Volume).node? q =
        if p.goal <+: q then none else v.node? q := by
    intro q hq
    rw [← hcl q hq]
    simp [node?, hq]
  rw [apply, if_pos hc, removeTree, hk]
  simp only [hp]
  split
  · exact ⟨_, rfl, rfl, fileAt?_of_folder hg, hcl⟩
  · exact ⟨_, rfl, rfl, hcle, hclq⟩

theorem clearTree_of_none {v : Volume} {p : Path} (hl : v.Leads p) (hn : v.node? p.goal = none) :
    v.apply (.clearTree p) = (v, none) := by
  have hc : v.contains p = false := by
    rw [contains, look_of_leads_none hl hn]
    rfl
  rw [apply, hc, if_neg Bool.false_ne_true]

theorem clearTree_of_file {v : Volume} {p : Path} {bytes : List UInt8} {time : Int}
    (hl : v.Leads p) (hn : v.node? p.goal = some (.file bytes time)) :
    v.apply (.clearTree p) = (v, some .notAFolder) := by
  have hk : v.look p = .ok (p.goal, .file bytes time) := look_eq_ok_iff.mpr ⟨hl, rfl, hn⟩
  have hc : v.contains p = true := by
    rw [contains, hk]
    rfl
  rw [apply, if_pos hc, removeTree, hk]

/-- Whatever is no file can be cleared away. -/
theorem clearTree_ok {v : Volume} {p : Path} (hl : v.Leads p) (hp : p.endsInDot = false)
    (hf : v.fileAt? p.goal = none) : ∃ w, v.apply (.clearTree p) = (w, none) := by
  cases hn : v.node? p.goal with
  | none => exact ⟨v, clearTree_of_none hl hn⟩
  | some node =>
    cases node with
    | file bytes time =>
      rw [fileAt?, hn] at hf
      cases hf
    | folder =>
      obtain ⟨w, hw, -⟩ := clearTree_of_isFolder (isFolder_iff.mpr ⟨hl, hn⟩) hp
      exact ⟨w, hw⟩

/-- A path that could be cleared away has nothing below it any more. -/
theorem node?_of_clearTree {v w : Volume} {p : Path} (hl : v.Leads p) (hp : p.endsInDot = false)
    (h : v.apply (.clearTree p) = (w, none)) {q : Place} (hq : q ≠ p.goal)
    (hv : v.node? p.goal = none → p.goal <+: q → v.node? q = none) :
    w.node? q = if p.goal <+: q then none else v.node? q := by
  cases hn : v.node? p.goal with
  | none =>
    rw [clearTree_of_none hl hn] at h
    cases h
    split
    · rename_i hb
      exact hv hn hb
    · rfl
  | some node =>
    cases node with
    | file bytes time =>
      rw [clearTree_of_file hl hn] at h
      cases h
    | folder =>
      obtain ⟨w', hw, -, -, hwn⟩ := clearTree_of_isFolder (isFolder_iff.mpr ⟨hl, hn⟩) hp
      rw [hw] at h
      cases h
      exact hwn q hq

theorem medium_removeTree (v : Volume) (p : Path) :
    (v.removeTree p).1.clock = v.clock ∧ (v.removeTree p).1.free = v.free := by
  unfold removeTree
  split
  · simp only
    split
    · exact ⟨rfl, rfl⟩
    · split
      · exact ⟨rfl, rfl⟩
      · exact ⟨rfl, rfl⟩
  · exact ⟨rfl, rfl⟩
  · exact ⟨rfl, rfl⟩

/-- No effect sets the clock, and none is told in the free space. -/
theorem medium_apply (v : Volume) (e : Effect) :
    (v.apply e).1.clock = v.clock ∧ (v.apply e).1.free = v.free := by
  cases e with
  | makeFolders p => exact medium_makeFolders v p
  | createFile p =>
    rw [apply, writeFile]
    cases v.filePlace p with
    | error err => exact ⟨rfl, rfl⟩
    | ok place => exact ⟨rfl, rfl⟩
  | append p bytes =>
    rw [apply, append]
    split
    · exact ⟨rfl, rfl⟩
    · exact ⟨rfl, rfl⟩
    · exact ⟨rfl, rfl⟩
  | moveFile source target =>
    rw [apply, moveFile]
    split
    · cases v.filePlace target with
      | error err => exact ⟨rfl, rfl⟩
      | ok goal => exact ⟨rfl, rfl⟩
    · exact ⟨rfl, rfl⟩
    · exact ⟨rfl, rfl⟩
  | discard p =>
    rw [apply, removeFile]
    split
    · exact ⟨rfl, rfl⟩
    · exact ⟨rfl, rfl⟩
    · exact ⟨rfl, rfl⟩
  | clearTree p =>
    rw [apply]
    split
    · exact medium_removeTree v p
    · exact ⟨rfl, rfl⟩

theorem medium_run (v : Volume) (es : List Effect) :
    (v.run es).1.clock = v.clock ∧ (v.run es).1.free = v.free := by
  induction es generalizing v with
  | nil => exact ⟨rfl, rfl⟩
  | cons e es ih =>
    have he := medium_apply v e
    rw [run]
    split
    · rename_i w hw
      rw [hw] at he
      exact ⟨(ih w).1.trans he.1, (ih w).2.trans he.2⟩
    · exact he

theorem medium_discard (v : Volume) (p : Path) :
    (v.discard p).clock = v.clock ∧ (v.discard p).free = v.free := medium_run v [.discard p]

theorem medium_touch (v : Volume) (p : Path) :
    (v.touch p).clock = v.clock ∧ (v.touch p).free = v.free := by
  unfold touch
  split
  · exact ⟨rfl, rfl⟩
  · exact ⟨rfl, rfl⟩

end TierCache.Volume
