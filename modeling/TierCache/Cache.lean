import TierCache.Archive
import TierCache.Key.SizeTag
import TierCache.Lingering
import TierCache.Record

/-!
# The tiered cache

A look-up asks the memory tier, then the overflow tier, then one family of records on disk, and
brings what it finds back into memory. A write goes to disk first, if its placement says so, and
to memory in any case. All tiers know a key only in its normalized form.

A value is told apart by its number. Callers may keep values in use, which keeps them alive in
the overflow tier.
-/
namespace TierCache

/-- How values of one type become records, and what they cost in memory. -/
structure ValueKind (α : Type) where
  encode : α → Except Problem (List UInt8)
  decode : List UInt8 → Except Problem α
  storedKey : List UInt8 → Option String
  cost : α → Nat

/-- Every value costs one. -/
def ValueKind.counted {α : Type} (k : ValueKind α) : ValueKind α := { k with cost := fun _ => 1 }

inductive Placement where
  | memory
  | disk (family : Family) (retention : Retention)
  deriving DecidableEq, Repr

structure Cache (α : Type) where
  kind : ValueKind α
  memory : Resident (Shared α)
  overflow : Lingering α
  archive : Archive
  volume : Volume
  stats : TierCounts
  /-- The numbers of the values that callers use, once for each use. -/
  held : List Nat
  nextId : Nat

namespace Cache

variable {α : Type}

def new (kind : ValueKind α) (memoryCapacity overflowWindow : Nat) (archive : Archive)
    (volume : Volume) : Cache α where
  kind
  memory := .empty memoryCapacity
  overflow := .empty overflowWindow
  archive
  volume
  stats := {}
  held := []
  nextId := 0

/-- A value under a number of its own. -/
def share (c : Cache α) (value : α) : Shared α × Cache α :=
  (⟨c.nextId, value⟩, { c with nextId := c.nextId + 1 })

def hold (c : Cache α) (id : Nat) : Cache α := { c with held := id :: c.held }

def release (c : Cache α) (id : Nat) : Cache α := { c with held := c.held.erase id }

/-- Values that a caller or the memory tier uses. -/
def inUse (c : Cache α) (id : Nat) : Bool :=
  c.held.contains id || c.memory.entries.values.any fun e => e.value.id = id

/-- Puts a value into memory; what memory drops for it goes to the overflow tier. -/
def putResident (c : Cache α) (key : String) (v : Shared α) (cost : Nat) :
    Except Fault (Cache α) := do
  let (memory, removed) ← c.memory.put key v cost
  return { c with memory, overflow := c.overflow.receive removed }

def bringIn (c : Cache α) (key : String) (v : Shared α) : Except Fault (Cache α) :=
  c.putResident key v (c.kind.cost v.value)

def countMiss (c : Cache α) : Cache α :=
  { c with stats := { c.stats with misses := c.stats.misses + 1 } }

def dropRecord (c : Cache α) (family : Family) (d : Digest) : Cache α :=
  let (_, slot, volume) := (c.archive.get family).remove c.volume d
  { c with archive := c.archive.set family slot, volume }

/-- The record on disk; one that cannot be decoded is removed. -/
def getRecord (c : Cache α) (key : String) (family : Family) :
    Except Fault (Option (Shared α) × Cache α) :=
  let d := Digest.ofKey key
  let (bytes, slot, volume) := (c.archive.get family).get c.volume d
  let c := { c with archive := c.archive.set family slot, volume }
  match bytes with
  | none => .ok (none, c.countMiss)
  | some bytes =>
    match c.kind.decode bytes with
    | .ok value => do
      let (v, c) := c.share value
      let c ← c.bringIn key v
      return (some v, { c with stats := { c.stats with diskHits := c.stats.diskHits + 1 } })
    | .error _ =>
      let c := (c.dropRecord family d).countMiss
      .ok (none, { c with stats := { c.stats with decodeFailures := c.stats.decodeFailures + 1 } })

def find (c : Cache α) (key : String) (family : Family) :
    Except Fault (Option (Shared α) × Cache α) :=
  let key := Key.normalize key
  let (found, memory) := c.memory.get key
  let c := { c with memory }
  match found with
  | some v =>
    .ok (some v, { c with stats := { c.stats with memoryHits := c.stats.memoryHits + 1 } })
  | none =>
    let (found, overflow) := c.overflow.get c.inUse key
    let c := { c with overflow }
    match found with
    | some v => do
      let c ← c.bringIn key v
      return (some v, { c with stats := { c.stats with overflowHits := c.stats.overflowHits + 1 } })
    | none => c.getRecord key family

def get (c : Cache α) (key : String) : Except Fault (Option (Shared α) × Cache α) :=
  c.find key .general

/-- Writes a record. A value that cannot be encoded stays off the disk. -/
def writeRecord (c : Cache α) (key : String) (value : α) (family : Family) (retention : Retention) :
    Cache α :=
  match c.kind.encode value with
  | .error _ => c
  | .ok bytes =>
    let (outcome, slot, volume) :=
      (c.archive.get family).put c.volume (Digest.ofKey key) bytes retention
    let c := { c with archive := c.archive.set family slot, volume }
    match outcome with
    | .committed => { c with stats := { c.stats with diskWrites := c.stats.diskWrites + 1 } }
    | _ => c

def putCosting (c : Cache α) (key : String) (v : Shared α) (cost : Nat)
    (placement : Placement) : Except Fault (Cache α) :=
  let key := Key.normalize key
  match placement with
  | .memory => c.putResident key v cost
  | .disk family retention => (c.writeRecord key v.value family retention).putResident key v cost

def put (c : Cache α) (key : String) (v : Shared α) (placement : Placement) :
    Except Fault (Cache α) :=
  c.putCosting key v (c.kind.cost v.value) placement

def remove (c : Cache α) (key : String) : Cache α :=
  let key := Key.normalize key
  let d := Digest.ofKey key
  let (memory, _) := c.memory.remove key
  let (_, archive, volume) := c.archive.forEach c.volume fun slot v => slot.remove v d
  { c with memory, overflow := c.overflow.remove key, archive, volume }

/-- Removes every key that a predicate accepts, and counts the records removed. A record counts
under the key it was stored for. -/
def removeIf (c : Cache α) (p : String → Bool) : Nat × Cache α :=
  let (memory, _) := c.memory.keepIf fun key => !p key
  let overflow := c.overflow.keepIf fun key => !p key
  let accepts (bytes : List UInt8) : Bool :=
    (c.kind.storedKey bytes).any fun key => p (Key.normalize key)
  let (counts, archive, volume) :=
    c.archive.forEach c.volume fun slot v => slot.removeIf v fun _ bytes => accepts bytes
  (counts.foldr (· + ·) 0, { c with memory, overflow, archive, volume })

/-- A family that cannot be cleared does not stop the others. -/
def clear (c : Cache α) : Cache α :=
  let (memory, _) := c.memory.clear
  let (_, archive, volume) := c.archive.forEach c.volume fun slot v => slot.wipe v
  { c with memory, overflow := c.overflow.clear, archive, volume }

/-- Forgets dead values and trims the stores; tells how many values were dead. -/
def sweep (c : Cache α) : Nat × Cache α :=
  let (purged, overflow) := c.overflow.forgetDead c.inUse
  let (_, archive, volume) := c.archive.forEach c.volume fun slot v => ((), slot.shrink v)
  (purged, { c with overflow, archive, volume })

def dropWindow (c : Cache α) : Cache α := { c with overflow := c.overflow.dropWindow }

def clearLingering (c : Cache α) : Cache α := { c with overflow := c.overflow.clear }

def clearResident (c : Cache α) : Cache α := { c with memory := c.memory.clear.1 }

/-- What memory drops for a smaller capacity goes to the overflow tier. -/
def resizeMemory (c : Cache α) (capacity : Nat) : Cache α :=
  let (memory, removed) := c.memory.resize capacity
  { c with memory, overflow := c.overflow.receive removed }

structure Snapshot where
  tiers : TierCounts
  memory : EntryCounts
  /-- The keys that the overflow tier knows, those of dead values too. -/
  lingering : Nat
  families : List (Family × Disk.SlotCounts)
  deriving DecidableEq, Repr

def Snapshot.document (s : Snapshot) : Json := .record [
  ("tiers", s.tiers.document), ("memory", s.memory.document),
  ("overflow_entries", .number s.lingering),
  ("families", .list (s.families.map fun f => .list [.text f.1.name, f.2.document]))]

def snapshot (c : Cache α) : Snapshot where
  tiers := c.stats
  memory := c.memory.stats
  lingering := c.overflow.size
  families := Family.all.map fun f => (f, (c.archive.get f).stats)

end Cache

def Record.kind : ValueKind Record where
  encode := Record.encode
  decode := Record.decode
  storedKey := Record.storedKey
  cost := Record.byteSize

/-- A cache of responses. -/
abbrev RecordCache := Cache Record

def RecordCache.ofSettings (s : Settings) (v : Volume) : Except Fault RecordCache := do
  let (archive, v) ← Archive.ofSettings s v
  return Cache.new Record.kind s.memoryCapacity s.overflowWindow archive v

end TierCache
