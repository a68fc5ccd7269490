import TierCache.Command

/-!
# The program

Reads the cache folder into a volume, runs one command on it, and writes the changes back.
-/
namespace TierCache.Program

/-- Paths are taken from the root of the disk or from the working folder. -/
def base (cacheDir : String) : String := if cacheDir.startsWith "/" then "/" else ""

def diskPath (base : String) (place : Place) : String :=
  if base = "" && place = [] then "." else base ++ String.intercalate "/" place

/-- Everything at a place and below it. -/
partial def readTree (base : String) (v : Volume) (place : Place) : IO Volume := do
  let here := (← IO.currentDir) / diskPath base place
  if !(← here.pathExists) then return v
  let info ← here.metadata
  if info.type == .dir then
    let mut v := if place = [] then v else v.setNode place .folder
    for entry in ← here.readDir do
      v ← readTree base v (place ++ [entry.fileName])
    return v
  let bytes ← IO.FS.readBinFile (diskPath base place)
  let time := info.modified.sec * 1000000000 + (info.modified.nsec.toNat : Int)
  return v.setNode place (.file bytes.data.toList time)

/-- What stands on the way to a place, found step by step. -/
def readWay (base : String) (v : Volume) (place : Place) : List String → IO Volume
  | [] => return v
  | piece :: rest => do
    if Path.isStill piece then readWay base v place rest
    else if piece = ".." then readWay base v place.dropLast rest
    else
      let place := place ++ [piece]
      let here := (← IO.currentDir) / diskPath base place
      if !(← here.pathExists) then return v
      readWay base (v.setNode place (if ← here.isDir then .folder else .file [] 0)) place rest

def readVolume (cacheDir : String) : IO Volume := do
  let p := Path.ofString cacheDir
  let v ← readWay (base cacheDir) .empty [] p.pieces
  match v.look p with
  | .ok (place, _) => readTree (base cacheDir) v place
  | .error _ => return v

def removeGone (base : String) (old new : Volume) : IO Unit :=
  old.nodes.pairs.forM fun (place, node) => do
    if (new.node? place).isNone && (new.node? place.dropLast).isSome then
      match node with
      | .folder => IO.FS.removeDirAll (diskPath base place)
      | .file _ _ => IO.FS.removeFile (diskPath base place)

def writeNew (base : String) (old new : Volume) : IO Unit := do
  let ascending := new.nodes.pairs.mergeSort fun a b => a.1.length ≤ b.1.length
  ascending.forM fun (place, node) => do
    if old.node? place ≠ some node then
      match node with
      | .folder => IO.FS.createDirAll (diskPath base place)
      | .file bytes _ => IO.FS.writeBinFile (diskPath base place) ⟨bytes.toArray⟩

def writeVolume (cacheDir : String) (old new : Volume) : IO Unit := do
  removeGone (base cacheDir) old new
  writeNew (base cacheDir) old new

def settingNames : List String := [
  "TMPDIR", "CACHE_DIR", "CACHE_MEMORY_CAPACITY", "CACHE_OVERFLOW_ENTRIES",
  "CACHE_DECODED_ENTRIES", "CACHE_DISK_CAPACITY", "CACHE_DISTINCT_RATIO",
  "CACHE_PERMANENT_CAPACITY", "CACHE_FORMAT_VERSION", "CACHE_MAINTENANCE_INTERVAL"]

def readSettings : IO Settings := do
  let values ← settingNames.mapM fun name => return (name, ← IO.getEnv name)
  return .ofEnvironment fun name => (values.lookup name).join.map Utf8.encode

/-- One run of a command. The exit code of a fault tells it from a refused command. -/
def runOnce (args : List String) (settings : Settings) : IO UInt32 := do
  let volume ← readVolume settings.cachePath
  match Command.run args settings volume with
  | .error fault =>
    (← IO.getStderr).putStrLn fault.message
    return 101
  | .ok outcome =>
    writeVolume settings.cachePath volume outcome.volume
    (← IO.getStdout).putStr outcome.out
    (← IO.getStderr).putStr outcome.err
    return UInt32.ofNat outcome.exitCode

partial def watch (args : List String) (settings : Settings) : IO UInt32 := do
  IO.sleep (UInt32.ofNat (min (settings.sweepInterval * 1000) (UInt32.size - 1)))
  let code ← runOnce args settings
  if code ≠ 0 then return code
  watch args settings

end TierCache.Program

open TierCache.Program in
def main (args : List String) : IO UInt32 := do
  let settings ← readSettings
  match TierCache.Command.ofArgs args with
  | .ok .watch => watch args settings
  | _ => runOnce args settings
