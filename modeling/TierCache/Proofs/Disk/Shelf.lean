import TierCache.Disk.Slot
import TierCache.Proofs.Disk.Index

/-!
# Runs of a record store, and the list that explains them

What can be done to a record store, one call at a time, each under its own setting of the clock. A
shelf is what a store comes to: the records with their bytes, least recently used first, and the
places that no record can take. Each call is described by what it does to this list.
-/
namespace TierCache.Disk

inductive Action where
  | put (d : Digest) (bytes : List UInt8) (r : Retention)
  | get (d : Digest)
  | contains (d : Digest)
  | remove (d : Digest)
  | removeIf (p : Digest → List UInt8 → Bool)
  | wipe
  | shrink

inductive Answer where
  | written (outcome : WriteResult)
  | bytes (found : Option (List UInt8))
  | truth (b : Bool)
  | count (n : Nat)
  | wiped (result : Except Problem Unit)
  | shrunk

namespace Slot

def act (slot : Slot) (v : Volume) : Action → Answer × Slot × Volume
  | .put d bytes r =>
    let (outcome, slot, v) := slot.put v d bytes r
    (.written outcome, slot, v)
  | .get d =>
    let (bytes, slot, v) := slot.get v d
    (.bytes bytes, slot, v)
  | .contains d => (.truth (slot.contains d), slot, v)
  | .remove d =>
    let (removed, slot, v) := slot.remove v d
    (.truth removed, slot, v)
  | .removeIf p =>
    let (count, slot, v) := slot.removeIf v p
    (.count count, slot, v)
  | .wipe =>
    let (result, slot, v) := slot.wipe v
    (.wiped result, slot, v)
  | .shrink =>
    let (slot, v) := slot.shrink v
    (.shrunk, slot, v)

@[simp] theorem act_none (v : Volume) (a : Action) : (Slot.act none v a).2 = (none, v) := by
  cases a <;> rfl

end Slot

/-- A record with its bytes and the time of its file. -/
structure Row where
  digest : Digest
  retention : Retention
  bytes : List UInt8
  time : Int

/-- Where the file of a row stands. -/
def Row.key (e : Row) : Digest × Retention := (e.digest, e.retention)

def Row.entry (e : Row) : Digest × RecordInfo := (e.digest, ⟨e.bytes.length, e.retention⟩)

structure Shelf where
  capacity : Nat
  /-- Least recently used first. -/
  rows : List Row
  /-- A record of this digest and retention cannot be written. -/
  blocked : Digest → Retention → Bool
  /-- It cannot be written even when all else has been removed. -/
  pinned : Digest → Retention → Bool

namespace Shelf

def size (sh : Shelf) : Nat := total (fun e => e.bytes.length) sh.rows

def find? (sh : Shelf) (d : Digest) : Option Row := sh.rows.find? (·.digest = d)

/-- The row becomes the most recently used one. -/
def add (sh : Shelf) (e : Row) : Shelf :=
  { sh with rows := sh.rows.filter (·.digest ≠ e.digest) ++ [e] }

def without (sh : Shelf) (ds : List Digest) : Shelf :=
  { sh with rows := sh.rows.filter (·.digest ∉ ds) }

def evictable (sh : Shelf) : List Row := sh.rows.filter (·.retention = .normal)

def victims (sh : Shelf) : List Digest :=
  Index.victims (sh.size - sh.capacity) (sh.evictable.map fun e => (e.digest, e.bytes.length))

def shrink (sh : Shelf) : Shelf := sh.without sh.victims

def matching (sh : Shelf) (p : Digest → List UInt8 → Bool) : List Digest :=
  (sh.rows.filter fun e => p e.digest e.bytes).map Row.digest

def wipe (sh : Shelf) : Shelf := { sh with rows := [], blocked := sh.pinned }

def act (sh : Shelf) (now : Int) : Action → Answer × Shelf
  | .put d bytes r =>
    if sh.blocked d r then (.written .failed, sh)
    else (.written .committed, (sh.add ⟨d, r, bytes, now⟩).shrink)
  | .get d =>
    match sh.find? d with
    | some e => (.bytes (some e.bytes), sh.add { e with time := now })
    | none => (.bytes none, sh)
  | .contains d => (.truth (sh.find? d).isSome, sh)
  | .remove d => (.truth (sh.find? d).isSome, sh.without [d])
  | .removeIf p => (.count (sh.matching p).length, sh.without (sh.matching p))
  | .wipe => (.wiped (.ok ()), sh.wipe)
  | .shrink => (.shrunk, sh.shrink)

variable {sh : Shelf} {d : Digest} {e : Row}

@[simp] theorem capacity_act (sh : Shelf) (now : Int) (a : Action) :
    (sh.act now a).2.capacity = sh.capacity := by
  cases a with
  | put d bytes r =>
    simp only [act]
    split
    · rfl
    · rfl
  | get d =>
    simp only [act]
    split
    · rfl
    · rfl
  | contains d => rfl
  | remove d => rfl
  | removeIf p => rfl
  | wipe => rfl
  | shrink => rfl

theorem digest_of_find? (h : sh.find? d = some e) : e.digest = d := by
  simpa using List.find?_some h

theorem mem_of_find? (h : sh.find? d = some e) : e ∈ sh.rows := List.mem_of_find?_eq_some h

theorem find?_eq_none_iff : sh.find? d = none ↔ ∀ e ∈ sh.rows, e.digest ≠ d := by
  simp [find?]

theorem mem_rows_add {e e' : Row} : e' ∈ (sh.add e).rows ↔
    e' ∈ sh.rows ∧ e'.digest ≠ e.digest ∨ e' = e := by
  simp [add]

theorem mem_rows_without {ds : List Digest} : e ∈ (sh.without ds).rows ↔
    e ∈ sh.rows ∧ e.digest ∉ ds := by
  simp [without]

theorem find?_without {ds : List Digest} (h : d ∉ ds) : (sh.without ds).find? d = sh.find? d := by
  rw [find?, find?, without, List.find?_filter]
  congr 1
  funext e
  by_cases he : e.digest = d
  · simp [he, h]
  · simp [he]

/-- Each digest stands in one row. -/
def Distinct (sh : Shelf) : Prop := (sh.rows.map Row.digest).Nodup

theorem Distinct.nodup (h : sh.Distinct) : sh.rows.Nodup :=
  List.Pairwise.of_map Row.digest (fun _ _ hne he => hne (congrArg Row.digest he)) h

theorem Distinct.eq (h : sh.Distinct) {e e' : Row} (he : e ∈ sh.rows) (he' : e' ∈ sh.rows)
    (hd : e.digest = e'.digest) : e = e' := eq_of_nodup_map h he he' hd

theorem Distinct.find?_of_mem (h : sh.Distinct) (he : e ∈ sh.rows) :
    sh.find? e.digest = some e := by
  cases hf : sh.find? e.digest with
  | none => exact absurd rfl (find?_eq_none_iff.mp hf e he)
  | some e' =>
    have hd := digest_of_find? hf
    rw [h.eq he (mem_of_find? hf) hd.symm]

theorem Distinct.add (h : sh.Distinct) (e : Row) : (sh.add e).Distinct := by
  unfold Distinct Shelf.add
  rw [List.map_append, List.nodup_append]
  refine ⟨h.sublist (List.filter_sublist.map _), by simp, ?_⟩
  intro d hd d' hd' he
  obtain ⟨e', he', rfl⟩ := List.mem_map.mp hd
  simp only [List.map_cons, List.map_nil, List.mem_singleton] at hd'
  have := (List.mem_filter.mp he').2
  rw [decide_eq_true_eq] at this
  exact this (he.trans hd')

theorem Distinct.without (h : sh.Distinct) (ds : List Digest) : (sh.without ds).Distinct :=
  h.sublist (List.filter_sublist.map _)

/-- A shelf that fits, or holds nothing that may be evicted. -/
def Settled (sh : Shelf) : Prop :=
  sh.size ≤ sh.capacity ∨ ∀ e ∈ sh.rows, e.retention = .always

theorem victims_eq_nil_iff : sh.victims = [] ↔ sh.Settled := by
  have hs : sh.evictable = [] ↔ ∀ e ∈ sh.rows, e.retention = .always := by
    rw [evictable, List.filter_eq_nil_iff]
    refine forall_congr' fun e => imp_congr_right fun _ => ?_
    cases e.retention <;> simp
  unfold victims Settled
  rw [← hs]
  cases sh.evictable with
  | nil => simp [Index.victims]
  | cons e es =>
    simp only [List.map_cons, Index.victims, List.cons_ne_nil, or_false]
    split
    · rename_i h
      exact iff_of_true rfl (by omega)
    · rename_i h
      exact iff_of_false (by simp) (by omega)

theorem shrink_of_settled (h : sh.Settled) : sh.shrink = sh := by
  rw [shrink, victims_eq_nil_iff.mpr h, without, List.filter_eq_self.mpr (by simp)]

/-- The victims are the first rows, no fewer than are needed and no more. -/
theorem victims_eq (excess : Nat) (rows : List Row) : ∃ gone rest, rows = gone ++ rest ∧
    Index.victims excess (rows.map fun e => (e.digest, e.bytes.length)) = gone.map Row.digest ∧
    (rest = [] ∨ excess ≤ total (fun e => e.bytes.length) gone) ∧
    ∀ before e after, gone = before ++ e :: after →
      total (fun e => e.bytes.length) before < excess :=
  Index.victims_split Row.digest (fun e => e.bytes.length) excess rows

theorem settled_shrink (sh : Shelf) : sh.shrink.Settled := by
  obtain ⟨gone, rest, hev, hv, henough, -⟩ := victims_eq (sh.size - sh.capacity) sh.evictable
  have hm : ∀ e ∈ gone, e.digest ∈ sh.victims := by
    intro e he
    rw [victims, hv]
    exact List.mem_map.mpr ⟨e, he, rfl⟩
  cases henough with
  | inl hrest =>
    rw [hrest, List.append_nil] at hev
    refine .inr fun e he => ?_
    obtain ⟨he, hd⟩ := mem_rows_without.mp he
    cases hr : e.retention with
    | always => rfl
    | normal =>
      have hmem : e ∈ sh.evictable := List.mem_filter.mpr ⟨he, decide_eq_true hr⟩
      rw [hev] at hmem
      exact absurd (hm e hmem) hd
  | inr henough =>
    refine .inl ?_
    have hs := total_filter_add (fun e => e.bytes.length) (fun e => e.digest ∈ sh.victims) sh.rows
    have hsub : gone.Sublist sh.rows := by
      have hg := List.sublist_append_left gone rest
      rw [← hev] at hg
      exact hg.trans List.filter_sublist
    have hle : total (fun e => e.bytes.length) gone ≤
        total (fun e => e.bytes.length) (sh.rows.filter (·.digest ∈ sh.victims)) := by
      refine total_sublist _ ?_
      rw [← List.filter_eq_self.mpr fun e he => decide_eq_true (hm e he)]
      exact hsub.filter _
    have he : sh.shrink.size =
        total (fun e => e.bytes.length)
          (sh.rows.filter fun e => !decide (e.digest ∈ sh.victims)) := by
      simp [size, shrink, without]
    have : sh.shrink.capacity = sh.capacity := rfl
    have : sh.size = total (fun e => e.bytes.length) sh.rows := rfl
    omega

/-- The order of use does not matter for whether a shelf fits. -/
theorem Settled.of_perm {sh' : Shelf} (h : sh.Settled) (hp : (sh'.rows.map Row.entry).Perm
    (sh.rows.map Row.entry)) (hc : sh'.capacity = sh.capacity) : sh'.Settled := by
  cases h with
  | inl h =>
    refine .inl ?_
    have := total_perm (fun p : Digest × RecordInfo => p.2.size) hp
    rw [total_map, total_map] at this
    unfold size at h ⊢
    rw [hc]
    exact Nat.le_trans (Nat.le_of_eq this) h
  | inr h =>
    refine .inr fun e he => ?_
    obtain ⟨e', he', heq⟩ := List.mem_map.mp (hp.mem_iff.mp (List.mem_map.mpr ⟨e, he, rfl⟩))
    have := congrArg (fun p : Digest × RecordInfo => p.2.retention) heq
    exact this.symm.trans (h e' he')

theorem Settled.without (h : sh.Settled) (ds : List Digest) : (sh.without ds).Settled := by
  cases h with
  | inl h => exact .inl (Nat.le_trans (total_sublist _ List.filter_sublist) h)
  | inr h => exact .inr fun e he => h e (mem_rows_without.mp he).1

end Shelf

end TierCache.Disk
