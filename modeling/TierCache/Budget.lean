import TierCache.Binary64
import TierCache.Fault

/-!
# Disk budgets

How much disk a cache may take, and how a budget is divided between the general and the distinct
family.
-/
namespace TierCache.Budget

/-- Bytes that are left free for others. -/
def keptFree : Nat := 30 * 1024 * 1024

def ceiling : Nat := 20 * 1024 * 1024

/-- What a cache takes of the free space when nobody has set its capacity. -/
def automatic (free : Nat) : Nat := min (free - keptFree) ceiling

/-- The general and the distinct part. The distinct part is computed in doubles, so for a large
budget it may come out above the budget itself. -/
def split (budget : Nat) (distinctRatio : Binary64) : Except Fault (Nat × Nat) :=
  if (!distinctRatio.isPositive && !distinctRatio.isNan) || distinctRatio.exceedsOne then
    .ok (budget, 0)
  else do
    let distinct := ((Binary64.ofNat budget).mul distinctRatio).truncate
    let general ← subCounts budget distinct
    return (general, distinct)

end TierCache.Budget
