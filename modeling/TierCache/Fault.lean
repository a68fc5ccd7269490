/-!
# 64-bit counters

Costs and hit counters are natural numbers below `UInt64.size`. A sum or difference that leaves
this range is a fault, and the operation that needed it has no result.
-/
namespace TierCache

inductive Fault where
  | addOverflow
  | subOverflow
  deriving DecidableEq, Repr

def Fault.message : Fault → String
  | .addOverflow => "attempt to add with overflow"
  | .subOverflow => "attempt to subtract with overflow"

def addCounts (a b : Nat) : Except Fault Nat :=
  if a + b < UInt64.size then .ok (a + b) else .error .addOverflow

def subCounts (a b : Nat) : Except Fault Nat :=
  if b ≤ a then .ok (a - b) else .error .subOverflow

theorem addCounts_eq_ok_iff {a b c : Nat} :
    addCounts a b = .ok c ↔ a + b < UInt64.size ∧ c = a + b := by
  rw [addCounts]
  split <;> rename_i h <;> simp [h, eq_comm]

theorem subCounts_eq_ok_iff {a b c : Nat} : subCounts a b = .ok c ↔ b ≤ a ∧ c = a - b := by
  rw [subCounts]
  split <;> rename_i h <;> simp [h, eq_comm]

/-- A computation that ends well does so in each of its steps. -/
theorem bind_eq_ok_iff {α β ε : Type} {x : Except ε α} {f : α → Except ε β} {b : β} :
    x >>= f = .ok b ↔ ∃ a, x = .ok a ∧ f a = .ok b := by
  constructor
  · intro h
    cases x with
    | error e => cases h
    | ok a => exact ⟨a, rfl, h⟩
  · rintro ⟨a, rfl, h⟩
    exact h

theorem map_eq_ok_iff {α β ε : Type} {x : Except ε α} {f : α → β} {b : β} :
    x.map f = .ok b ↔ ∃ a, x = .ok a ∧ f a = b := by
  cases x with
  | error e => simp [Except.map]
  | ok a => simp [Except.map]

theorem toOption_eq_some_iff {α ε : Type} {x : Except ε α} {a : α} :
    x.toOption = some a ↔ x = .ok a := by
  cases x with
  | error e => simp [Except.toOption]
  | ok b => simp [Except.toOption]

theorem toOption_eq_none_iff {α ε : Type} {x : Except ε α} :
    x.toOption = none ↔ ∃ e, x = .error e := by
  cases x with
  | error e => simp [Except.toOption]
  | ok b => simp [Except.toOption]

theorem exists_of_any {α ε : Type} {x : Except ε α} {check : α → Bool}
    (h : x.toOption.any check = true) : ∃ a, x = .ok a ∧ check a = true := by
  rw [Option.any_eq_true] at h
  obtain ⟨a, ha, hcheck⟩ := h
  exact ⟨a, toOption_eq_some_iff.mp ha, hcheck⟩

end TierCache
