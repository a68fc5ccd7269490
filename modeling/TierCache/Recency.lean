import TierCache.Table

/-!
# Recency of use

Each touch stamps a key with the next tick. The ticks are kept from both sides: by key, and as a
list of stamped keys in ascending order of their ticks. Read without its stamps this list is the
view `toList`, least recently used key first.
-/
namespace TierCache

structure Recency (κ : Type) where
  ticks : Table κ Nat
  order : List (Nat × κ)
  nextTick : Nat

namespace Recency

variable {κ : Type}

def empty : Recency κ := ⟨.empty, [], 0⟩

def toList (r : Recency κ) : List κ := r.order.map Prod.snd

def size (r : Recency κ) : Nat := r.ticks.size

def isEmpty (r : Recency κ) : Bool := r.ticks.pairs.isEmpty

def oldest? (r : Recency κ) : Option κ := r.order.head?.map Prod.snd

/-- Ticks are never used twice, also after this. -/
def clear (r : Recency κ) : Recency κ := { r with ticks := .empty, order := [] }

@[simp] theorem toList_empty : (empty : Recency κ).toList = [] := rfl

@[simp] theorem toList_clear (r : Recency κ) : r.clear.toList = [] := rfl

theorem oldest?_eq_head? (r : Recency κ) : r.oldest? = r.toList.head? := by
  simp [oldest?, toList]

variable [DecidableEq κ]

def contains (r : Recency κ) (k : κ) : Bool := r.ticks.contains k

/-- The order without the key stamped by a tick. -/
def dropTick (order : List (Nat × κ)) : Option Nat → List (Nat × κ)
  | none => order
  | some tick => order.filter fun e => e.1 ≠ tick

/-- The next tick is above all others, so the key goes to the end. -/
def touch (r : Recency κ) (k : κ) : Recency κ where
  ticks := r.ticks.set k r.nextTick
  order := dropTick r.order (r.ticks.get? k) ++ [(r.nextTick, k)]
  nextTick := r.nextTick + 1

def erase (r : Recency κ) (k : κ) : Recency κ :=
  { r with ticks := r.ticks.erase k, order := dropTick r.order (r.ticks.get? k) }

def popOldest (r : Recency κ) : Option κ × Recency κ :=
  match r.order with
  | [] => (none, r)
  | (_, k) :: order => (some k, { r with ticks := r.ticks.erase k, order })

@[simp] theorem fst_popOldest (r : Recency κ) : r.popOldest.1 = r.toList.head? := by
  unfold popOldest toList
  cases r.order <;> rfl

@[simp] theorem toList_popOldest (r : Recency κ) : r.popOldest.2.toList = r.toList.tail := by
  unfold popOldest toList
  split <;> simp_all

end Recency

end TierCache
