import TierCache.Sha256
import TierCache.Text.Hex
import TierCache.Text.Utf8

/-!
# Digests of keys

A digest is the lowercase hexadecimal SHA-256 of a key. It names the record of that key on disk.
-/
namespace TierCache

def isDigestText (s : String) : Bool := s.toList.length = 64 && s.toList.all Hex.isDigit

structure Digest where
  text : String
  valid : isDigestText text = true
  deriving DecidableEq

namespace Digest

def ofKey (key : String) : Digest where
  text := String.ofList (Hex.ofBytes (Sha256.hash (Utf8.encode key)))
  valid := by simp [isDigestText, Hex.all_ofBytes]

def parse? (s : String) : Option Digest :=
  if h : isDigestText s = true then some ⟨s, h⟩ else none

theorem parse?_eq_some_iff {s : String} {d : Digest} : parse? s = some d ↔ d.text = s := by
  rw [parse?]
  split
  · rename_i h
    rw [Option.some.injEq]
    exact ⟨fun e => e ▸ rfl, fun e => by cases d; subst e; rfl⟩
  · rename_i h
    simp only [reduceCtorEq, false_iff]
    intro e
    exact h (e ▸ d.valid)

end Digest

end TierCache
