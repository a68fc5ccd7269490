import TierCache.Key.Digest
import TierCache.Recency

/-!
# The index of a record store

Which digests have a record, how large each record is, and whether it may be evicted, with the
order of use and the sum of the sizes.
-/
namespace TierCache

inductive Retention where
  /-- May be evicted. -/
  | normal
  | always
  deriving DecidableEq, Repr

def Retention.other : Retention → Retention
  | .normal => .always
  | .always => .normal

namespace Disk

structure RecordInfo where
  size : Nat
  retention : Retention
  deriving DecidableEq, Repr

structure Index where
  records : Table Digest RecordInfo
  recency : Recency Digest
  totalSize : Nat

namespace Index

def empty : Index := ⟨.empty, .empty, 0⟩

def get? (ix : Index) (d : Digest) : Option RecordInfo := ix.records.get? d

def contains (ix : Index) (d : Digest) : Bool := ix.records.contains d

/-- The size of a record, none if there is no record. -/
def sizeOf (ix : Index) (d : Digest) : Nat := ((ix.get? d).map RecordInfo.size).getD 0

/-- The record becomes the most recently used one. -/
def insert (ix : Index) (d : Digest) (info : RecordInfo) : Index where
  records := ix.records.set d info
  recency := ix.recency.touch d
  totalSize := ix.totalSize - ix.sizeOf d + info.size

def forget (ix : Index) (d : Digest) : Index :=
  if ix.contains d then
    { records := ix.records.erase d
      recency := ix.recency.erase d
      totalSize := ix.totalSize - ix.sizeOf d }
  else ix

def touch (ix : Index) (d : Digest) : Index := { ix with recency := ix.recency.touch d }

/-- The records that may be evicted, least recently used first, with their sizes. -/
def evictable (ix : Index) : List (Digest × Nat) :=
  ix.recency.toList.filterMap fun d =>
    match ix.get? d with
    | some info => if info.retention = .normal then some (d, info.size) else none
    | none => none

/-- The first records whose sizes together reach the excess, or all of them. -/
def victims : Nat → List (Digest × Nat) → List Digest
  | _, [] => []
  | excess, (d, size) :: r => if excess = 0 then [] else d :: victims (excess - size) r

/-- The records to evict for a capacity. -/
def toEvict (ix : Index) (capacity : Nat) : List Digest :=
  victims (ix.totalSize - capacity) ix.evictable

end Index

end Disk

end TierCache
