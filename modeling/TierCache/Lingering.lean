import TierCache.Resident

/-!
# The overflow tier

Values that the memory tier dropped for its capacity can be found again for as long as anyone
still uses them. The tier remembers one value for each key without keeping it in use; a window of
the newest few it does keep. A value is told apart by its number: equal values of different
numbers are different values.
-/
namespace TierCache

structure Shared (α : Type) where
  id : Nat
  value : α
  deriving DecidableEq, Repr

structure Lingering (α : Type) where
  refs : Table String (Shared α)
  window : Table String (Shared α)
  order : Recency String
  windowSize : Nat

namespace Lingering

variable {α : Type}

def empty (windowSize : Nat) : Lingering α := ⟨.empty, .empty, .empty, windowSize⟩

/-- A value is alive while the window holds it or others use it. -/
def isAlive (o : Lingering α) (inUse : Nat → Bool) (v : Shared α) : Bool :=
  inUse v.id || o.window.values.any fun w => w.id = v.id

/-- Drops the oldest keys of the window until it fits. -/
def narrowRounds : Nat → Lingering α → Lingering α
  | 0, o => o
  | n + 1, o =>
    if o.window.size ≤ o.windowSize then o
    else
      match o.order.popOldest with
      | (none, _) => o
      | (some key, order) => narrowRounds n { o with window := o.window.erase key, order }

def narrow (o : Lingering α) : Lingering α := narrowRounds o.order.order.length o

def put (o : Lingering α) (key : String) (v : Shared α) : Lingering α :=
  let o := { o with refs := o.refs.set key v }
  if o.windowSize = 0 then o
  else narrow { o with window := o.window.set key v, order := o.order.touch key }

/-- Takes over what the memory tier dropped for its capacity; other removals end here. -/
def receive (o : Lingering α) (removed : List (Removal (Shared α))) : Lingering α :=
  removed.foldl (fun o r => if r.cause.isEviction then o.put r.key r.value else o) o

/-- A dead value is forgotten. -/
def get (o : Lingering α) (inUse : Nat → Bool) (key : String) : Option (Shared α) × Lingering α :=
  match o.refs.get? key with
  | none => (none, o)
  | some v =>
    if o.isAlive inUse v then (some v, o) else (none, { o with refs := o.refs.erase key })

def remove (o : Lingering α) (key : String) : Lingering α :=
  { o with
    refs := o.refs.erase key
    window := o.window.erase key
    order := o.order.erase key }

/-- Removes all keys that `keep` rejects. -/
def keepIf (o : Lingering α) (keep : String → Bool) : Lingering α :=
  (o.refs.keys.filter fun k => !keep k).foldl remove o

/-- Gives up the window. -/
def dropWindow (o : Lingering α) : Lingering α :=
  { o with window := .empty, order := o.order.clear }

/-- Forgets the dead values, and counts them. -/
def forgetDead (o : Lingering α) (inUse : Nat → Bool) : Nat × Lingering α :=
  let refs := o.refs.filter fun _ v => o.isAlive inUse v
  (o.refs.size - refs.size, { o with refs })

def clear (o : Lingering α) : Lingering α :=
  { o with refs := .empty, window := .empty, order := o.order.clear }

def size (o : Lingering α) : Nat := o.refs.size

def isEmpty (o : Lingering α) : Bool := o.size = 0

end Lingering

end TierCache
