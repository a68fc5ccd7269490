import TierCache.Cache
import TierCache.Text.Occurs
import TierCache.Text.Quoted

/-!
# Commands

What the command line can do with a cache: show its counters, empty it, remove the records of some
keys, or watch over it.
-/
namespace TierCache

inductive Command where
  | stats
  | clear
  | purge (criteria : List String)
  | watch
  deriving DecidableEq, Repr

inductive CommandError where
  | noCriteria
  | unknown (word : String)
  deriving DecidableEq, Repr

def CommandError.message : CommandError → String
  | .noCriteria => "purge needs at least one key substring"
  | .unknown word =>
    "unknown command " ++ Quoted.ofChars word.toList ++ ", expected stats, clear, purge or watch"

/-- What a run of the program leaves behind. -/
structure Outcome where
  exitCode : Nat
  out : String
  err : String
  volume : Volume

namespace Command

def ofArgs : List String → Except CommandError Command
  | [] => .ok .stats
  | "stats" :: _ => .ok .stats
  | "clear" :: _ => .ok .clear
  | ["purge"] => .error .noCriteria
  | "purge" :: criteria => .ok (.purge criteria)
  | "watch" :: _ => .ok .watch
  | word :: _ => .error (.unknown word)

/-- A watch does one round of maintenance. -/
def apply (store : RecordCache) : Command → String × RecordCache
  | .stats => (String.ofList (store.snapshot.document.pretty ++ ['\n']), store)
  | .clear => ("", store.clear)
  | .purge criteria => ("", (store.removeIf (holdsAny criteria)).2)
  | .watch => ("", store.sweep.2)

/-- The cache is opened before the words of the command are looked at. -/
def run (args : List String) (settings : Settings) (volume : Volume) : Except Fault Outcome := do
  let store ← RecordCache.ofSettings settings volume
  match ofArgs args with
  | .error e => return ⟨1, "", "Error: " ++ e.message ++ "\n", store.volume⟩
  | .ok command =>
    let (out, store) := apply store command
    return ⟨0, out, "", store.volume⟩

end Command

end TierCache
