/-!
# Lengths of time and instants

An instant is a count of milliseconds in 64 bits. A span has seconds in 64 bits and nanoseconds;
its milliseconds are kept in 64 bits, from zero again after the last.
-/
namespace TierCache

abbrev Instant := UInt64

structure Span where
  seconds : UInt64
  nanos : Nat
  nanos_lt : nanos < 1000000000

namespace Span

def zero : Span := ⟨0, 0, by decide⟩

def ofMillis (ms : UInt64) : Span where
  seconds := ms / 1000
  nanos := ms.toNat % 1000 * 1000000
  nanos_lt := by omega

/-- Whole seconds among the nanoseconds are carried over. -/
def ofParts (seconds : UInt64) (nanos : Nat) : Span where
  seconds := seconds + UInt64.ofNat (nanos / 1000000000)
  nanos := nanos % 1000000000
  nanos_lt := Nat.mod_lt _ (by decide)

def isZero (s : Span) : Bool := s.seconds = 0 && s.nanos = 0

/-- Nanoseconds are cut off. -/
def wholeMillis (s : Span) : Nat := s.seconds.toNat * 1000 + s.nanos / 1000000

def millis (s : Span) : UInt64 := UInt64.ofNat s.wholeMillis

end Span

/-- The instant that a clock shows when it is put forward; it starts again after the last one. -/
def Instant.advance (now : Instant) (span : Span) : Instant := now + span.millis

/-- The later instant, or the last one there is. -/
def Instant.after (now ms : UInt64) : Instant :=
  UInt64.ofNat (min (now.toNat + ms.toNat) (UInt64.size - 1))

theorem Instant.toNat_after (now ms : UInt64) :
    (Instant.after now ms).toNat = min (now.toNat + ms.toNat) (UInt64.size - 1) := by
  have hs : UInt64.size = 18446744073709551616 := rfl
  rw [Instant.after, UInt64.toNat_ofNat', Nat.mod_eq_of_lt (by omega)]

end TierCache
