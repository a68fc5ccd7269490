import TierCache.Path
import TierCache.Trie

/-!
# Volumes

A tree of folders and files, each file with its bytes and the time of its last change. A path is
followed through the folders that are there, also where it leads back. A volume is changed by
effects, run in a row up to the first that fails; what was done before stays done.
-/
namespace TierCache

/-- The names from the root down. -/
abbrev Place := List String

inductive Node where
  | folder
  | file (bytes : List UInt8) (time : Int)
  deriving DecidableEq

inductive VolumeError where
  | notFound
  | notAFolder
  | isAFolder
  | taken
  | nameTooLong
  | badName
  | invalid
  deriving DecidableEq, Repr

def VolumeError.message : VolumeError → String
  | .notFound => "No such file or directory (os error 2)"
  | .notAFolder => "Not a directory (os error 20)"
  | .isAFolder => "Is a directory (os error 21)"
  | .taken => "File exists (os error 17)"
  | .nameTooLong => "File name too long (os error 36)"
  | .badName => "file name contained an unexpected NUL byte"
  | .invalid => "Invalid argument (os error 22)"

structure Volume where
  nodes : Trie String Node
  /-- The time of the changes made now. -/
  clock : Int
  /-- Free bytes, if the medium tells. -/
  free : Option Nat

namespace Volume

def empty : Volume := ⟨.empty, 0, none⟩

/-- The root is always a folder. -/
def node? (v : Volume) (place : Place) : Option Node :=
  if place = [] then some .folder else v.nodes.get? place

/-- Follows the pieces of a path. Every piece is looked up in a folder. -/
def follow (v : Volume) (place : Place) : List String → Except VolumeError Place
  | [] => .ok place
  | piece :: rest =>
    match v.node? place with
    | some .folder =>
      if Path.isStill piece then v.follow place rest
      else if piece = ".." then v.follow place.dropLast rest
      else v.follow (place ++ [piece]) rest
    | some (.file _ _) => .error .notAFolder
    | none => .error .notFound

/-- What keeps a path from being followed at all. -/
def refusal (p : Path) : Option VolumeError :=
  if p.isBroken then some .badName else if p.isTooLong then some .nameTooLong else none

/-- Where a path leads. There may be nothing, but the folder before it is there. -/
def find (v : Volume) (p : Path) : Except VolumeError Place :=
  match refusal p with
  | some err => .error err
  | none => v.follow [] p.pieces

/-- What stands at a path, and where. -/
def look (v : Volume) (p : Path) : Except VolumeError (Place × Node) := do
  let place ← v.find p
  match v.node? place with
  | some node => return (place, node)
  | none => throw .notFound

def contains (v : Volume) (p : Path) : Bool := (v.look p).toBool

def isFolder (v : Volume) (p : Path) : Bool :=
  match v.look p with
  | .ok (_, .folder) => true
  | _ => false

def read (v : Volume) (p : Path) : Except VolumeError (List UInt8) :=
  match v.look p with
  | .ok (_, .file bytes _) => .ok bytes
  | .ok (_, .folder) => .error .isAFolder
  | .error err => .error err

/-- The names in a folder, with what stands there. -/
def children (v : Volume) (p : Path) : List (String × Node) :=
  match v.find p with
  | .error _ => []
  | .ok place => v.nodes.children place

def setNode (v : Volume) (place : Place) (node : Node) : Volume :=
  { v with nodes := v.nodes.set place node }

theorem node?_setNode {v : Volume} {place q : Place} {node : Node} (h : place ≠ []) :
    (v.setNode place node).node? q = if q = place then some node else v.node? q := by
  by_cases hq : q = place
  · subst hq
    simp [node?, setNode, h, Trie.get?_set]
  · simp [node?, setNode, hq, Trie.get?_set _ _ _ _ h]

/-- Makes the missing folders on a way, as many as it can. The last of them is not made if the way
goes on with a dot: the dot is looked up in it first. -/
def makeWay (v : Volume) (place : Place) : List String → Volume × Option VolumeError
  | [] => (v, none)
  | piece :: rest =>
    if Path.isStill piece then v.makeWay place rest
    else if piece = ".." then v.makeWay place.dropLast rest
    else
      let here := place ++ [piece]
      match v.node? here with
      | some .folder => v.makeWay here rest
      | some (.file _ _) => (v, some .taken)
      | none =>
        if Path.isLongName piece then (v, some .nameTooLong)
        else if rest.all Path.isStill && rest.contains "." then (v, some .notFound)
        else (v.setNode here .folder).makeWay here rest

/-- Makes the folders of a path that are missing. -/
def makeFolders (v : Volume) (p : Path) : Volume × Option VolumeError :=
  match refusal p with
  | some err => (v, some err)
  | none => v.makeWay [] p.pieces

theorem folder_of_follow {v : Volume} {place goal : Place} {pieces : List String}
    (h : v.follow place pieces = .ok goal) (hg : v.node? goal = some .folder) :
    v.node? place = some .folder := by
  cases pieces with
  | nil =>
    cases h
    exact hg
  | cons piece rest =>
    rw [follow] at h
    split at h
    · assumption
    · cases h
    · cases h

theorem makeWay_of_follow {v : Volume} {place goal : Place} {pieces : List String}
    (h : v.follow place pieces = .ok goal) (hg : v.node? goal = some .folder) :
    v.makeWay place pieces = (v, none) := by
  induction pieces generalizing place with
  | nil => rfl
  | cons piece rest ih =>
    have hp := folder_of_follow h hg
    rw [follow, hp] at h
    simp only at h
    rw [makeWay]
    split
    · rename_i hs
      rw [if_pos hs] at h
      exact ih h
    · rename_i hs
      rw [if_neg hs] at h
      split
      · rename_i hd
        rw [if_pos hd] at h
        exact ih h
      · rename_i hd
        rw [if_neg hd] at h
        simp only
        rw [folder_of_follow h hg]
        exact ih h

/-- Folders that are there already will do. -/
theorem makeFolders_of_isFolder {v : Volume} {p : Path} (h : v.isFolder p = true) :
    v.makeFolders p = (v, none) := by
  unfold isFolder look find at h
  rw [makeFolders]
  cases hr : refusal p with
  | some err =>
    rw [hr] at h
    cases h
  | none =>
    rw [hr] at h
    cases hf : v.follow [] p.pieces with
    | error err =>
      simp only [hf] at h
      cases h
    | ok goal =>
      refine makeWay_of_follow hf ?_
      simp only [hf, bind, Except.bind, pure, Except.pure] at h
      cases hn : v.node? goal with
      | none =>
        rw [hn] at h
        cases h
      | some node =>
        rw [hn] at h
        cases node with
        | folder => rfl
        | file bytes time => cases h

/-- The place for a file, which may be taken by another file only. -/
def filePlace (v : Volume) (p : Path) : Except VolumeError Place := do
  let place ← v.find p
  if v.node? place = some .folder then throw .isAFolder
  if place.getLast?.any Path.isLongName then throw .nameTooLong
  return place

def writeFile (v : Volume) (p : Path) (bytes : List UInt8) : Except VolumeError Volume := do
  let place ← v.filePlace p
  return v.setNode place (.file bytes v.clock)

def append (v : Volume) (p : Path) (bytes : List UInt8) : Except VolumeError Volume :=
  match v.look p with
  | .ok (place, .file old _) => .ok (v.setNode place (.file (old ++ bytes) v.clock))
  | .ok (_, .folder) => .error .isAFolder
  | .error err => .error err

/-- A file that is moved keeps its time and takes the place of an older one. -/
def moveFile (v : Volume) (source target : Path) : Except VolumeError Volume :=
  match v.look source with
  | .ok (place, .file bytes time) => do
    let goal ← v.filePlace target
    return { v with nodes := v.nodes.erase place }.setNode goal (.file bytes time)
  | .ok (_, .folder) => .error .isAFolder
  | .error err => .error err

def removeFile (v : Volume) (p : Path) : Except VolumeError Volume :=
  match v.look p with
  | .ok (place, .file _ _) => .ok { v with nodes := v.nodes.erase place }
  | .ok (_, .folder) => .error .isAFolder
  | .error err => .error err

/-- Removes what is in a folder and then the folder. It stays if its path leads through something
that was in it, or ends in a dot. -/
def removeTree (v : Volume) (p : Path) : Volume × Option VolumeError :=
  match v.look p with
  | .ok (place, .folder) =>
    let emptied := { v with nodes := v.nodes.clear place }
    if !emptied.contains p then (emptied, none)
    else if p.endsInDot then (emptied, some .invalid)
    else ({ emptied with nodes := emptied.nodes.erase place }, none)
  | .ok (_, .file _ _) => (v, some .notAFolder)
  | .error err => (v, some err)

inductive Effect where
  /-- Makes the folders of a path that are missing. -/
  | makeFolders (p : Path)
  | createFile (p : Path)
  | append (p : Path) (bytes : List UInt8)
  | moveFile (source target : Path)
  /-- Removes a file, if there is one. -/
  | discard (p : Path)
  /-- Removes a folder, if there is one. -/
  | clearTree (p : Path)
  deriving DecidableEq

/-- The volume after a change that does all or nothing. -/
def settle (v : Volume) : Except VolumeError Volume → Volume × Option VolumeError
  | .ok w => (w, none)
  | .error err => (v, some err)

def apply (v : Volume) : Effect → Volume × Option VolumeError
  | .makeFolders p => v.makeFolders p
  | .createFile p => v.settle (v.writeFile p [])
  | .append p bytes => v.settle (v.append p bytes)
  | .moveFile source target => v.settle (v.moveFile source target)
  | .discard p => ((v.settle (v.removeFile p)).1, none)
  | .clearTree p => if v.contains p then v.removeTree p else (v, none)

/-- The volume after a row of effects, and the failure that ended the row early. -/
def run (v : Volume) : List Effect → Volume × Option VolumeError
  | [] => (v, none)
  | e :: effects =>
    match v.apply e with
    | (v, none) => v.run effects
    | stopped => stopped

theorem run_append (v : Volume) (es fs : List Effect) :
    v.run (es ++ fs) = match v.run es with
      | (v', none) => v'.run fs
      | stopped => stopped := by
  induction es generalizing v with
  | nil => rfl
  | cons e es ih =>
    simp only [List.cons_append, run]
    obtain ⟨v', _ | err⟩ := v.apply e
    · exact ih v'
    · rfl

def discard (v : Volume) (p : Path) : Volume := (v.run [.discard p]).1

/-- Gives a file the present time. -/
def touch (v : Volume) (p : Path) : Volume :=
  match v.look p with
  | .ok (place, .file bytes _) => v.setNode place (.file bytes v.clock)
  | _ => v

def stageName (n : Nat) : String := "stage" ++ toString (100000 + n)

/-- A name for a new file in a folder: the first that is free of the numbered ones. -/
def freshName (v : Volume) (folder : Path) : String :=
  let taken := (v.children folder).map Prod.fst
  let names := (List.range (taken.length + 1)).map stageName
  (names.find? fun name => !taken.contains name).getD (stageName taken.length)

end Volume

end TierCache
