import TierCache.Disk.Index
import TierCache.Problem
import TierCache.Volume

/-!
# Record stores

A store keeps one file for each digest, named by it, in one of two folders: `records` for those
that may be evicted and `retained` for the others. A write is staged in a third folder and moved
to its place, so that a reader never sees a half-written record. The times of the files hold the
order of use until the store is opened again.
-/
namespace TierCache.Disk

structure Store where
  root : Path
  capacity : Nat
  index : Index

inductive WriteResult where
  | committed
  | disabled
  | failed
  deriving DecidableEq, Repr

/-- The folder of the records of one retention. -/
def folder (root : Path) : Retention → Path
  | .normal => root.join "records"
  | .always => root.join "retained"

def staging (root : Path) : Path := root.join "tmp"

def recordPath (root : Path) (d : Digest) (r : Retention) : Path := (folder root r).join d.text

namespace Store

def pathOf (s : Store) (d : Digest) (r : Retention) : Path := recordPath s.root d r

/-- Forgets a record and removes its file. -/
def evict (s : Store) (v : Volume) (d : Digest) : Store × Volume :=
  match s.index.get? d with
  | some info => ({ s with index := s.index.forget d }, v.discard (s.pathOf d info.retention))
  | none => (s, v)

def evictAll (s : Store) (v : Volume) (ds : List Digest) : Store × Volume :=
  ds.foldl (fun (s, v) d => s.evict v d) (s, v)

/-- Evicts the least recently used records until the sizes fit; retained records stay. -/
def shrink (s : Store) (v : Volume) : Store × Volume :=
  s.evictAll v (s.index.toEvict s.capacity)

/-- The effects of a write where the staging folder is there: the record is staged, moved to its
place, and a copy of the other retention is removed. -/
def writePlan (s : Store) (stage : Path) (d : Digest) (bytes : List UInt8) (r : Retention) :
    List Volume.Effect := [
  .createFile stage,
  .append stage bytes,
  .moveFile stage (s.pathOf d r),
  .discard (s.pathOf d r.other)]

def stagePath (s : Store) (v : Volume) : Path :=
  (staging s.root).join (v.freshName (staging s.root))

def put (s : Store) (v : Volume) (d : Digest) (bytes : List UInt8) (r : Retention) :
    WriteResult × Store × Volume :=
  match v.makeFolders (staging s.root) with
  | (v, some _) => (.failed, s, v)
  | (v, none) =>
    let stage := s.stagePath v
    match v.run (s.writePlan stage d bytes r) with
    | (v, some _) => (.failed, s, v.discard stage)
    | (v, none) =>
      (.committed, shrink { s with index := s.index.insert d ⟨bytes.length, r⟩ } v)

/-- A record that is found gone is forgotten; one that cannot be read stays indexed. -/
def get (s : Store) (v : Volume) (d : Digest) : Option (List UInt8) × Store × Volume :=
  match s.index.get? d with
  | none => (none, s, v)
  | some info =>
    let s := { s with index := s.index.touch d }
    let path := s.pathOf d info.retention
    match v.read path with
    | .ok bytes => (some bytes, s, v.touch path)
    | .error .notFound => (none, { s with index := s.index.forget d }, v)
    | .error _ => (none, s, v)

def contains (s : Store) (d : Digest) : Bool := s.index.contains d

def remove (s : Store) (v : Volume) (d : Digest) : Bool × Store × Volume :=
  (s.contains d, s.evict v d)

/-- The readable records that satisfy a predicate. -/
def matching (s : Store) (v : Volume) (p : Digest → List UInt8 → Bool) : List Digest :=
  s.index.records.pairs.filterMap fun (d, info) =>
    match v.read (s.pathOf d info.retention) with
    | .ok bytes => if p d bytes then some d else none
    | .error _ => none

def removeIf (s : Store) (v : Volume) (p : Digest → List UInt8 → Bool) :
    Nat × Store × Volume :=
  let ds := s.matching v p
  (ds.length, s.evictAll v ds)

/-- The effects of removing all records: each folder of records is removed and made again. -/
def wipePlan (s : Store) : List Volume.Effect := [
  .clearTree (folder s.root .normal),
  .makeFolders (folder s.root .normal),
  .clearTree (folder s.root .always),
  .makeFolders (folder s.root .always)]

/-- Removes all records. If a folder cannot be removed the index stays as it was. -/
def wipe (s : Store) (v : Volume) : Except Problem Unit × Store × Volume :=
  match v.run s.wipePlan with
  | (v, some err) => (.error (.storage err.message), s, v)
  | (v, none) => (.ok (), { s with index := .empty }, v)

def retainedEntries (s : Store) : Nat :=
  (s.index.records.values.filter fun info => info.retention = .always).length

end Store

end TierCache.Disk
