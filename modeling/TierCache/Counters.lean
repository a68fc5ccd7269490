import TierCache.Binary64
import TierCache.Fault
import TierCache.Json.Basic

/-!
# Counters

What a memory tier and a tiered cache count, the share of hits, and the documents that show the
counters.
-/
namespace TierCache

/-- The share of hits in all look-ups, none before the first. -/
def hitShare (hits total : Nat) : Binary64 := if total = 0 then .zero else .ratio hits total

structure EntryCounts where
  hits : Nat := 0
  misses : Nat := 0
  evictions : Nat := 0
  totalEntries : Nat := 0
  totalCost : Nat := 0
  deriving DecidableEq, Repr

namespace EntryCounts

def rate (s : EntryCounts) : Except Fault Binary64 := do
  let total ← addCounts s.hits s.misses
  return hitShare s.hits total

def document (s : EntryCounts) : Json := .record [
  ("hits", .number s.hits), ("misses", .number s.misses), ("evictions", .number s.evictions),
  ("total_entries", .number s.totalEntries), ("total_cost", .number s.totalCost)]

end EntryCounts

structure TierCounts where
  memoryHits : Nat := 0
  overflowHits : Nat := 0
  diskHits : Nat := 0
  misses : Nat := 0
  decodeFailures : Nat := 0
  diskWrites : Nat := 0
  deriving DecidableEq, Repr

namespace TierCounts

def rate (s : TierCounts) : Except Fault Binary64 := do
  let inRam ← addCounts s.memoryHits s.overflowHits
  let hits ← addCounts inRam s.diskHits
  let total ← addCounts hits s.misses
  return hitShare hits total

def document (s : TierCounts) : Json := .record [
  ("memory_hits", .number s.memoryHits), ("overflow_hits", .number s.overflowHits),
  ("disk_hits", .number s.diskHits), ("misses", .number s.misses),
  ("decode_failures", .number s.decodeFailures), ("disk_writes", .number s.diskWrites)]

end TierCounts

end TierCache
