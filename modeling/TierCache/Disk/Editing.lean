import TierCache.Disk.Store

/-!
# The right to write a record

Writes may overlap. A write needs the right to its digest, which one write has at a time: another
one that comes meanwhile is refused. The right is given back when the write has ended, whatever came
of it.
-/
namespace TierCache.Disk

inductive EditResult where
  /-- Another write of the digest is in progress, and nothing was written. -/
  | busy
  | ended (outcome : WriteResult)
  deriving DecidableEq, Repr

/-- Takes the right to a digest, unless a write has it already. -/
def claim (editors : List Digest) (d : Digest) : Option (List Digest) :=
  if d ∈ editors then none else some (d :: editors)

def release (editors : List Digest) (d : Digest) : List Digest := editors.erase d

/-- A write while others hold the rights to some digests. -/
def Store.edit (s : Store) (editors : List Digest) (v : Volume) (d : Digest) (bytes : List UInt8)
    (r : Retention) : EditResult × List Digest × Store × Volume :=
  match claim editors d with
  | none => (.busy, editors, s, v)
  | some editors =>
    let (outcome, s, v) := s.put v d bytes r
    (.ended outcome, release editors d, s, v)

end TierCache.Disk
