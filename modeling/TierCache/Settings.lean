import TierCache.Binary64.Read
import TierCache.Text.Blank
import TierCache.Text.Utf8

/-!
# Configuration

The settings of a cache, read from environment variables. A variable that is missing, is no text
or does not hold a number of the right kind leaves the default.
-/
namespace TierCache

structure Settings where
  /-- The path of the cache folder, which may be no text. -/
  cacheDir : List UInt8
  memoryCapacity : Nat := 16 * 1024 * 1024
  overflowWindow : Nat := 64
  parsedEntries : Nat := 15
  /-- None takes a share of the free space. -/
  diskCapacity : Option Nat := none
  distinctRatio : Binary64 := .zero
  permanentCapacity : Nat := 3 * 1024 * 1024
  formatVersion : UInt32 := 1
  /-- In seconds. -/
  sweepInterval : Nat := 30
  deriving DecidableEq, Repr

namespace Settings

/-- The bytes of an environment variable, if it is set. -/
abbrev Environment := String → Option (List UInt8)

/-- A folder in the one for temporary files, whose own path may end in a slash. -/
def defaultCacheDir (env : Environment) : List UInt8 :=
  let parent := (env "TMPDIR").getD (Utf8.encode "/tmp")
  let slash := if parent.getLast?.all (· = 0x2F) then [] else [0x2F]
  parent ++ slash ++ Utf8.encode "respcache"

/-- The path of the cache folder as it is shown and followed: names on a volume are text, so bytes
that are none are replaced. -/
def cachePath (s : Settings) : String := Utf8.decodeLossy s.cacheDir

/-- The text of a variable, without blanks at its ends. -/
def word? (env : Environment) (name : String) : Option (List Char) :=
  match (env name).map Utf8.decode with
  | some (.ok s) => some (trim s.toList)
  | _ => none

def count? (env : Environment) (name : String) : Option Nat :=
  (word? env name).bind (Decimal.unsigned? UInt64.size)

/-- Only a share between zero and one is a ratio; anything else turns the split off. -/
def ratioOrZero (x : Binary64) : Binary64 :=
  if (x.isPositive && !x.exceedsOne) || x.isZero then x else .zero

def ofEnvironment (env : Environment) : Settings :=
  let d : Settings := { cacheDir := defaultCacheDir env }
  { cacheDir := (env "CACHE_DIR").getD d.cacheDir
    memoryCapacity := (count? env "CACHE_MEMORY_CAPACITY").getD d.memoryCapacity
    overflowWindow := (count? env "CACHE_OVERFLOW_ENTRIES").getD d.overflowWindow
    parsedEntries := (count? env "CACHE_DECODED_ENTRIES").getD d.parsedEntries
    diskCapacity := count? env "CACHE_DISK_CAPACITY"
    distinctRatio := ratioOrZero
      (((word? env "CACHE_DISTINCT_RATIO").bind Binary64.read?).getD d.distinctRatio)
    permanentCapacity := (count? env "CACHE_PERMANENT_CAPACITY").getD d.permanentCapacity
    formatVersion := (((word? env "CACHE_FORMAT_VERSION").bind
      (Decimal.unsigned? UInt32.size)).map UInt32.ofNat).getD d.formatVersion
    sweepInterval := (count? env "CACHE_MAINTENANCE_INTERVAL").getD d.sweepInterval }

end Settings

end TierCache
