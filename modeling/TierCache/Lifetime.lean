import TierCache.Span

/-!
# Freshness of cached data

Each entry carries two instants. Up to the soft expiry it is fresh, up to the hard expiry it is
stale but may be served while a refresh runs, and from the hard expiry on it is never served.
-/
namespace TierCache

inductive Freshness where
  | fresh
  | stale
  | expired
  deriving DecidableEq, Repr

/-- The fetch that an answer from the cache asks for. -/
inductive Fetch where
  | none
  | background
  | blocking
  deriving DecidableEq, Repr

structure Metadata where
  serverTimestamp : Instant
  softExpiry : Instant
  hardExpiry : Instant
  alwaysRetain : Bool
  deriving DecidableEq, Repr

namespace Freshness

def mayServe : Freshness → Bool
  | .expired => false
  | _ => true

def fetch : Freshness → Fetch
  | .fresh => .none
  | .stale => .background
  | .expired => .blocking

def ofMetadata (m : Metadata) (now : Instant) : Freshness :=
  if m.hardExpiry ≤ now then .expired
  else if m.softExpiry ≤ now then .stale
  else .fresh

/-- An entry that is not there is expired. -/
def ofEntry (m : Option Metadata) (now : Instant) : Freshness :=
  match m with
  | some m => ofMetadata m now
  | none => .expired

theorem mayServe_ofMetadata (m : Metadata) (now : Instant) :
    (ofMetadata m now).mayServe = decide (now < m.hardExpiry) := by
  rw [ofMetadata]
  have h : now < m.hardExpiry ↔ ¬ m.hardExpiry ≤ now := UInt64.not_le.symm
  by_cases hh : m.hardExpiry ≤ now
  · simp [hh, h, mayServe]
  · by_cases hs : m.softExpiry ≤ now <;> simp [hh, hs, h, mayServe]

end Freshness

/-- Metadata of data that arrives now. Without a time to refresh the data stays fresh until it
expires. -/
def Metadata.ofLifetime (serverTimestamp now : Instant) (toRefresh toLive : Span) : Metadata where
  serverTimestamp
  softExpiry := if toRefresh.isZero then .after now toLive.millis else .after now toRefresh.millis
  hardExpiry := .after now toLive.millis
  alwaysRetain := false

end TierCache
