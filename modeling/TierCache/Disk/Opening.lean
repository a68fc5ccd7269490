import TierCache.Budget
import TierCache.Disk.Store

/-!
# Opening a record store

A store lives in a folder named for the version of its format. Opening it removes the folders of
other versions and whatever was left in staging, and builds the index from the files it finds, in
the order of their times. Of two copies of a record the later one is kept.
-/
namespace TierCache.Disk

/-- How much a store may take: a number of bytes, or what the free space suggests. -/
inductive Allowance where
  | explicit (bytes : Nat)
  | automatic
  deriving DecidableEq, Repr

/-- The free space is only known where there is something at the path. -/
def Allowance.bytes (allowance : Allowance) (v : Volume) (path : String) : Except Problem Nat :=
  match allowance with
  | .explicit bytes => .ok bytes
  | .automatic =>
    match if v.contains (.ofString path) then v.free else none with
    | some free => .ok (Budget.automatic free)
    | none => .error (.noStorage ("cannot determine free space of " ++ path))

/-- The name of a version folder, of any version. -/
def isVersionName (name : String) : Bool :=
  match name.toList with
  | 'v' :: ds => ds.all Char.isDigit
  | _ => false

def versionName (version : UInt32) : String := "v" ++ toString version.toNat

/-- The folders of other versions. -/
def staleVersions (v : Volume) (root : Path) (current : String) : List Path :=
  (v.children root).filterMap fun (name, node) =>
    if isVersionName name && name ≠ current && node = .folder then some (root.join name) else none

def removeStale (v : Volume) (root : Path) (current : String) : Volume :=
  (staleVersions v root current).foldl (fun v p => (v.run [.clearTree p]).1) v

def preparePlan (root : Path) : List Volume.Effect := [
  .makeFolders (folder root .normal),
  .makeFolders (folder root .always),
  .clearTree (staging root),
  .makeFolders (staging root)]

/-- A record file that was found, with its time. -/
structure Found where
  time : Int
  digest : Digest
  info : RecordInfo

def foundIn (v : Volume) (root : Path) (r : Retention) : List Found :=
  (v.children (folder root r)).filterMap fun (name, node) =>
    match node, Digest.parse? name with
    | .file bytes time, some d => some ⟨time, d, ⟨bytes.length, r⟩⟩
    | _, _ => none

/-- The files that are no records. -/
def strays (v : Volume) (root : Path) (r : Retention) : List Path :=
  (v.children (folder root r)).filterMap fun (name, node) =>
    match node, Digest.parse? name with
    | .file _ _, none => some ((folder root r).join name)
    | _, _ => none

def discardAll (v : Volume) (ps : List Path) : Volume := ps.foldl Volume.discard v

/-- Takes a found record into the index. An earlier copy of it is removed. -/
def Store.adopt (s : Store) (v : Volume) (f : Found) : Store × Volume :=
  let v := match s.index.get? f.digest with
    | some earlier => v.discard (s.pathOf f.digest earlier.retention)
    | none => v
  ({ s with index := s.index.insert f.digest f.info }, v)

/-- Earliest first. Of two records of one time, the one that may be evicted comes first. -/
def inOrder (found : List Found) : List Found := found.mergeSort fun a b => a.time ≤ b.time

def Store.rebuild (s : Store) (v : Volume) : Store × Volume :=
  let found := foundIn v s.root .normal ++ foundIn v s.root .always
  let v := discardAll v (strays v s.root .normal ++ strays v s.root .always)
  let (s, v) := (inOrder found).foldl (fun (s, v) f => s.adopt v f) (s, v)
  s.shrink v

/-- Nothing is opened without a capacity, or where a folder cannot be made. -/
def Store.open? (v : Volume) (root : Path) (version : UInt32) (capacity : Nat) :
    Option Store × Volume :=
  match v.makeFolders root with
  | (v, some _) => (none, v)
  | (v, none) =>
    if capacity = 0 then (none, v)
    else
      let current := versionName version
      let home := root.join current
      match (removeStale v root current).run (preparePlan home) with
      | (v, some _) => (none, v)
      | (v, none) =>
        let (s, v) := rebuild ⟨home, capacity, .empty⟩ v
        (some s, v)

end TierCache.Disk
