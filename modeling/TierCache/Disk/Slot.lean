import TierCache.Disk.Opening
import TierCache.Json.Basic

/-!
# Slots for a record store

A store that may be missing. Without a store nothing is kept and nothing fails.
-/
namespace TierCache.Disk

abbrev Slot := Option Store

structure SlotCounts where
  enabled : Bool := false
  entries : Nat := 0
  retainedEntries : Nat := 0
  sizeBytes : Nat := 0
  capacityBytes : Nat := 0
  deriving DecidableEq, Repr

def SlotCounts.document (s : SlotCounts) : Json := .record [
  ("enabled", .truth s.enabled), ("entries", .number s.entries),
  ("retained_entries", .number s.retainedEntries), ("size_bytes", .number s.sizeBytes),
  ("capacity_bytes", .number s.capacityBytes)]

namespace Slot

def put (slot : Slot) (v : Volume) (d : Digest) (bytes : List UInt8) (r : Retention) :
    WriteResult × Slot × Volume :=
  match slot with
  | some s =>
    let (outcome, s, v) := s.put v d bytes r
    (outcome, some s, v)
  | none => (.disabled, none, v)

def get (slot : Slot) (v : Volume) (d : Digest) : Option (List UInt8) × Slot × Volume :=
  match slot with
  | some s =>
    let (bytes, s, v) := s.get v d
    (bytes, some s, v)
  | none => (none, none, v)

def contains (slot : Slot) (d : Digest) : Bool := slot.any fun s => s.contains d

def remove (slot : Slot) (v : Volume) (d : Digest) : Bool × Slot × Volume :=
  match slot with
  | some s =>
    let (removed, s, v) := s.remove v d
    (removed, some s, v)
  | none => (false, none, v)

def removeIf (slot : Slot) (v : Volume) (p : Digest → List UInt8 → Bool) :
    Nat × Slot × Volume :=
  match slot with
  | some s =>
    let (count, s, v) := s.removeIf v p
    (count, some s, v)
  | none => (0, none, v)

def wipe (slot : Slot) (v : Volume) : Except Problem Unit × Slot × Volume :=
  match slot with
  | some s =>
    let (result, s, v) := s.wipe v
    (result, some s, v)
  | none => (.ok (), none, v)

def shrink (slot : Slot) (v : Volume) : Slot × Volume :=
  match slot with
  | some s =>
    let (s, v) := s.shrink v
    (some s, v)
  | none => (none, v)

def capacity (slot : Slot) : Nat := (slot.map Store.capacity).getD 0

def stats (slot : Slot) : SlotCounts :=
  match slot with
  | some s =>
    { enabled := true
      entries := s.index.records.size
      retainedEntries := s.retainedEntries
      sizeBytes := s.index.totalSize
      capacityBytes := s.capacity }
  | none => {}

end Slot

end TierCache.Disk
