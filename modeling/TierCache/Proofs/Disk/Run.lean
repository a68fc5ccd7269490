import TierCache.Proofs.Disk.Wiping

/-!
# Runs of a record store

Every run of a store is explained by a run of the shelf that it holds: the same answers, the same
statistics, the same records in the same order. What a record holds was written last, or was there
at the start.
-/
namespace TierCache.Disk

/-- A call, its answer, and what is seen after it. -/
structure Event where
  action : Action
  answer : Answer
  stats : SlotCounts
  /-- The records, least recently used first, with what can be read of each. -/
  inventory : List (Digest × RecordInfo × Option (List UInt8))

namespace Slot

def inventory (slot : Slot) (v : Volume) : List (Digest × RecordInfo × Option (List UInt8)) :=
  match slot with
  | some s => s.index.entries.map fun (d, info) =>
    (d, info, (v.read (s.pathOf d info.retention)).toOption)
  | none => []

/-- Calls in a row, each with the time that the clock shows then. -/
def run (slot : Slot) (v : Volume) : List (Int × Action) → List Event × Slot × Volume
  | [] => ([], slot, v)
  | (now, a) :: calls =>
    let (answer, slot, v) := slot.act { v with clock := now } a
    let (events, slot', w) := slot.run v calls
    (⟨a, answer, slot.stats, slot.inventory v⟩ :: events, slot', w)

end Slot

namespace Shelf

def stats (sh : Shelf) : SlotCounts where
  enabled := true
  entries := sh.rows.length
  retainedEntries := (sh.rows.filter (·.retention = .always)).length
  sizeBytes := sh.size
  capacityBytes := sh.capacity

def inventory (sh : Shelf) : List (Digest × RecordInfo × Option (List UInt8)) :=
  sh.rows.map fun e => (e.digest, ⟨e.bytes.length, e.retention⟩, some e.bytes)

def run (sh : Shelf) : List (Int × Action) → List Event × Shelf
  | [] => ([], sh)
  | (now, a) :: calls =>
    let (answer, sh) := sh.act now a
    let (events, sh') := sh.run calls
    (⟨a, answer, sh.stats, sh.inventory⟩ :: events, sh')

end Shelf

namespace Holds

variable {s : Store} {v : Volume} {sh : Shelf}

theorem stats_eq (h : Holds s v sh) : Slot.stats (some s) = sh.stats := by
  simp only [Slot.stats, Shelf.stats, h.size_records, h.retainedEntries_eq, h.totalSize_eq,
    h.capacity]

theorem inventory_eq (h : Holds s v sh) : Slot.inventory (some s) v = sh.inventory := by
  simp only [Slot.inventory, Shelf.inventory, h.entries, List.map_map]
  refine List.map_congr_left fun e he => ?_
  simp only [Function.comp_apply, Row.entry, h.read_eq he]
  rfl

/-- Each call answers as the shelf does. -/
theorem act (h : Holds s v sh) (a : Action) :
    ∃ s' w, Slot.act (some s) v a = ((sh.act v.clock a).1, some s', w) ∧
      Result s v (sh.act v.clock a).2 s' w := by
  cases a with
  | put d bytes r => exact h.put d bytes r
  | get d => exact h.get d
  | contains d =>
    refine ⟨s, v, ?_, h, rfl, .refl s.root v⟩
    simp only [Slot.act, Slot.contains, Option.any_some, h.contains_eq, Shelf.act]
  | remove d => exact h.remove d
  | removeIf p => exact h.removeIf p
  | wipe => exact h.wipe
  | shrink => exact ⟨_, _, rfl, h.shrink, root_shrink s v, frame_shrink h.agrees⟩

/-- And so does a run, whatever the clock shows. -/
theorem run (h : Holds s v sh) (calls : List (Int × Action)) :
    ∃ s' w, Slot.run (some s) v calls = ((sh.run calls).1, some s', w) ∧
      Holds s' w (sh.run calls).2 ∧ s'.root = s.root ∧
      ∀ q, ¬ s.root.goal <+: q → w.node? q = v.node? q := by
  induction calls generalizing s v sh with
  | nil => exact ⟨s, v, rfl, h, rfl, fun _ _ => rfl⟩
  | cons call calls ih =>
    obtain ⟨now, a⟩ := call
    have hc : Holds s { v with clock := now } sh := h.congr_node fun _ => rfl
    obtain ⟨s₁, w₁, hact, hres⟩ := hc.act a
    obtain ⟨s₂, w₂, hrun, hh, hroot, hframe⟩ := ih hres.holds
    refine ⟨s₂, w₂, ?_, hh, hroot.trans hres.root, fun q hq => ?_⟩
    · simp only [Slot.run, hact, hrun, Shelf.run, hres.holds.stats_eq, hres.holds.inventory_eq]
    · rw [hframe q (hres.root ▸ hq), hres.frame.outside q hq]
      rfl

end Holds

/-- The bytes that a committed write gave a digest. -/
def Event.written? (e : Event) (d : Digest) : Option (List UInt8) :=
  match e.action, e.answer with
  | .put d' bytes _, .written .committed => if d' = d then some bytes else none
  | _, _ => none

/-- The bytes of the last committed write. -/
def lastWritten (d : Digest) : List Event → Option (List UInt8)
  | [] => none
  | e :: events => (lastWritten d events).or (e.written? d)

namespace Shelf

variable {sh : Shelf}

/-- A row holds what the call wrote, or was there before. -/
theorem rows_act (now : Int) (a : Action) {e : Row} (he : e ∈ (sh.act now a).2.rows)
    (stats : SlotCounts) (inventory : List (Digest × RecordInfo × Option (List UInt8))) :
    (Event.mk a (sh.act now a).1 stats inventory).written? e.digest = some e.bytes ∨
      (Event.mk a (sh.act now a).1 stats inventory).written? e.digest = none ∧
        ∃ e' ∈ sh.rows, e'.key = e.key ∧ e'.bytes = e.bytes := by
  cases a with
  | put d bytes r =>
    simp only [act] at he ⊢
    split
    · rename_i hb
      rw [if_pos hb] at he
      exact .inr ⟨rfl, e, he, rfl, rfl⟩
    · rename_i hb
      rw [if_neg hb] at he
      rcases mem_rows_add.mp (mem_rows_without.mp he).1 with ⟨he, hd⟩ | rfl
      · exact .inr ⟨if_neg (Ne.symm hd), e, he, rfl, rfl⟩
      · exact .inl (if_pos rfl)
  | get d =>
    refine .inr ⟨rfl, ?_⟩
    simp only [act] at he
    cases hf : sh.find? d with
    | none =>
      rw [hf] at he
      exact ⟨e, he, rfl, rfl⟩
    | some e' =>
      rw [hf] at he
      rcases mem_rows_add.mp he with ⟨he, -⟩ | rfl
      · exact ⟨e, he, rfl, rfl⟩
      · exact ⟨e', mem_of_find? hf, rfl, rfl⟩
  | contains d => exact .inr ⟨rfl, e, he, rfl, rfl⟩
  | remove d => exact .inr ⟨rfl, e, (mem_rows_without.mp he).1, rfl, rfl⟩
  | removeIf p => exact .inr ⟨rfl, e, (mem_rows_without.mp he).1, rfl, rfl⟩
  | wipe => cases he
  | shrink => exact .inr ⟨rfl, e, (mem_rows_without.mp he).1, rfl, rfl⟩

/-- Without a write every row was there before. -/
theorem rows_of_ne_put {now : Int} {a : Action} (ha : ∀ d bytes r, a ≠ .put d bytes r) {e : Row}
    (he : e ∈ (sh.act now a).2.rows) :
    ∃ e' ∈ sh.rows, e'.digest = e.digest ∧ e'.bytes = e.bytes := by
  rcases rows_act now a he {} [] with hw | ⟨-, e', he', hk, hb⟩
  · cases a with
    | put d bytes r => exact absurd rfl (ha d bytes r)
    | get d => cases hw
    | contains d => cases hw
    | remove d => cases hw
    | removeIf p => cases hw
    | wipe => cases hw
    | shrink => cases hw
  · exact ⟨e', he', congrArg Prod.fst hk, hb⟩

theorem rows_run (calls : List (Int × Action)) {e : Row} (he : e ∈ (sh.run calls).2.rows) :
    lastWritten e.digest (sh.run calls).1 = some e.bytes ∨
      lastWritten e.digest (sh.run calls).1 = none ∧
        ∃ e' ∈ sh.rows, e'.key = e.key ∧ e'.bytes = e.bytes := by
  induction calls generalizing sh with
  | nil => exact .inr ⟨rfl, e, he, rfl, rfl⟩
  | cons call calls ih =>
    obtain ⟨now, a⟩ := call
    simp only [run, lastWritten] at he ⊢
    rcases ih he with hl | ⟨hl, e', he', hk, hb⟩
    · exact .inl (by rw [hl, Option.some_or])
    · have hd : e'.digest = e.digest := congrArg Prod.fst hk
      rw [hl, Option.none_or]
      rcases rows_act now a he' (sh.act now a).2.stats (sh.act now a).2.inventory with
        hw | ⟨hw, e'', he'', hk', hb'⟩
      · rw [hd, hb] at hw
        exact .inl hw
      · rw [hd] at hw
        exact .inr ⟨hw, e'', he'', hk'.trans hk, hb'.trans hb⟩

end Shelf

end TierCache.Disk
