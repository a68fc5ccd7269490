import TierCache.Disk.Slot
import TierCache.Settings

/-!
# Families of records

Three record stores side by side: `general` and `distinct` share one budget, `permanent` has its
own. A family without a budget has no store.
-/
namespace TierCache

inductive Family where
  | general
  | distinct
  | permanent
  deriving DecidableEq, Repr

def Family.all : List Family := [.general, .distinct, .permanent]

def Family.name : Family → String
  | .general => "general"
  | .distinct => "distinct"
  | .permanent => "permanent"

structure Archive where
  general : Disk.Slot
  distinct : Disk.Slot
  permanent : Disk.Slot

namespace Archive

def single (general : Disk.Slot) : Archive := ⟨general, none, none⟩

def disabled : Archive := single none

def get (a : Archive) : Family → Disk.Slot
  | .general => a.general
  | .distinct => a.distinct
  | .permanent => a.permanent

def set (a : Archive) (family : Family) (slot : Disk.Slot) : Archive :=
  match family with
  | .general => { a with general := slot }
  | .distinct => { a with distinct := slot }
  | .permanent => { a with permanent := slot }

/-- The bytes for all records, none where the cache folder cannot be made or measured. -/
def diskBudget (s : Settings) (v : Volume) : Nat × Volume :=
  match v.makeFolders (.ofString s.cachePath) with
  | (v, some _) => (0, v)
  | (v, none) =>
    let allowance : Disk.Allowance := match s.diskCapacity with
      | some bytes => .explicit bytes
      | none => .automatic
    match allowance.bytes v s.cachePath with
    | .ok bytes => (bytes, v)
    | .error _ => (0, v)

def openFamily (s : Settings) (v : Volume) (family : Family) (bytes : Nat) :
    Disk.Slot × Volume :=
  if bytes = 0 then (none, v)
  else
    let root := (Path.ofString s.cachePath).join family.name
    Disk.Store.open? v root s.formatVersion bytes

def ofSettings (s : Settings) (v : Volume) : Except Fault (Archive × Volume) := do
  let (budget, v) := diskBudget s v
  let (generalBytes, distinctBytes) ← Budget.split budget s.distinctRatio
  let (general, v) := openFamily s v .general generalBytes
  let (distinct, v) := openFamily s v .distinct distinctBytes
  let (permanent, v) := openFamily s v .permanent s.permanentCapacity
  return (⟨general, distinct, permanent⟩, v)

/-- Does the same to each store in turn and gathers the results. -/
def forEach {β : Type} (a : Archive) (v : Volume)
    (act : Disk.Slot → Volume → β × Disk.Slot × Volume) : List β × Archive × Volume :=
  let (x, general, v) := act a.general v
  let (y, distinct, v) := act a.distinct v
  let (z, permanent, v) := act a.permanent v
  ([x, y, z], ⟨general, distinct, permanent⟩, v)

end Archive

end TierCache
