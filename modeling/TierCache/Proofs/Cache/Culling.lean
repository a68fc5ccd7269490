import TierCache.Proofs.Cache.Moves
import TierCache.Proofs.Disk.Culling

/-!
# Removing all keys that a predicate accepts

One predicate is asked about the keys in memory, about those the overflow tier tracks, and about
the keys that records were stored for. What it accepts goes from all three, and nothing else
changes. To ask it again finds nothing more.
-/
namespace TierCache

open Disk

variable {α : Type}

namespace Disk.Slot

variable {slot slot' : Slot} {v w : Volume} {p : Digest → List UInt8 → Bool}

/-- The records that are accepted, none where there is no store. -/
def accepted (slot : Slot) (v : Volume) (p : Digest → List UInt8 → Bool) :
    List (Digest × RecordInfo) :=
  match slot with
  | some s => s.accepted v p
  | none => []

def AcceptedAt (slot : Slot) (v : Volume) (p : Digest → List UInt8 → Bool) (q : Place) : Prop :=
  ∃ s, slot = some s ∧ s.AcceptedAt v p q

/-- The store of the slot, if it has one, has lost the accepted records. -/
def Culled (p : Digest → List UInt8 → Bool) (v : Volume) (slot slot' : Slot) : Prop :=
  match slot with
  | some s => ∃ s', slot' = some s' ∧ Disk.Culled p v s s'
  | none => slot' = none

/-- Records may have been removed from other places before, which matters to nobody here. -/
theorem removeIf_culled (hs : ∀ s, slot = some s → s.index.Sound) {gone : Place → Prop}
    (h : Volume.Lost gone v w)
    (hn : ∀ s, slot = some s → ∀ d r, ¬ gone (recordPlace s.root d r)) :
    (slot.removeIf w p).1 = (slot.accepted v p).length ∧
      Culled p v slot (slot.removeIf w p).2.1 ∧
      Volume.Lost (fun q => gone q ∨ slot.AcceptedAt v p q) v (slot.removeIf w p).2.2 := by
  cases slot with
  | none => exact ⟨rfl, rfl, h.congr fun q => ⟨fun hq => hq.resolve_right nofun, .inl⟩⟩
  | some s =>
    have hs := hs s rfl
    have ha : s.accepts w p = s.accepts v p := by
      funext e
      rw [Bool.eq_iff_iff, Store.accepts_of_lost h]
      exact and_iff_left (hn s rfl e.1 e.2.retention)
    have hacc : s.accepted w p = s.accepted v p := by rw [Store.accepted, ha, Store.accepted]
    obtain ⟨hroot, hcapacity, hsurvivors, htotal, hsound⟩ := Store.culled_removeIf hs w p
    rw [ha] at hsurvivors
    rw [hacc] at htotal
    refine ⟨?_, ⟨_, rfl, hroot, hcapacity, hsurvivors, htotal, hsound⟩,
      (h.trans (Store.lost_removeIf hs w p)).congr fun q => or_congr_right ?_⟩
    · rw [accepted, ← hacc]
      exact Store.fst_removeIf hs w p
    · simp only [AcceptedAt, Option.some.injEq, exists_eq_left', Store.AcceptedAt, hacc]

/-- A store that has lost its accepted records has none left, wherever files are gone. -/
theorem Culled.again (h : Culled p v slot slot') {gone : Place → Prop}
    (hw : Volume.Lost gone v w) : slot'.removeIf w p = (0, slot', w) := by
  cases slot with
  | none =>
    cases h
    rfl
  | some s =>
    obtain ⟨s', rfl, hc⟩ := h
    have hnone : s'.removeIf w p = (0, s', w) := by
      refine Store.removeIf_of_none hc.sound fun e he => ?_
      rw [hc.survivors, List.mem_filter, Bool.not_eq_true'] at he
      have hroot : s'.accepts v p e = s.accepts v p e := by
        rw [Store.accepts, Store.pathOf, hc.root, Store.accepts, Store.pathOf]
      rw [← Bool.not_eq_true, Store.accepts_of_lost hw, hroot, he.2]
      exact fun hn => Bool.false_ne_true hn.1
    simp only [Slot.removeIf, hnone]

end Disk.Slot

namespace Archive

variable {a b : Archive} {v w : Volume} {p : Digest → List UInt8 → Bool}

/-- The stores of other families have their files elsewhere. -/
theorem Orderly.not_acceptedAt (h : a.Orderly) {f g : Family} (hne : f ≠ g) {s : Store}
    (hs : a.get g = some s) (d : Digest) (r : Retention) :
    ¬ (a.get f).AcceptedAt v p (recordPlace s.root d r) := by
  rintro ⟨t, ht, e, -, heq⟩
  exact h.apart f g hne t s ht hs (goal_of_recordPlace heq).symm

/-- Archives of which each store has lost the accepted records. -/
structure Culled (p : Digest → List UInt8 → Bool) (a : Archive) (v : Volume) (b : Archive)
    (w : Volume) : Prop where
  stores : ∀ f, (a.get f).Culled p v (b.get f)
  /-- The files of these records are gone, and nothing else, so that all others have their bytes
  and their times. -/
  files : Volume.Lost (fun q => ∃ f, (a.get f).AcceptedAt v p q) v w
  kept : ∀ f s, a.get f = some s → ∀ e ∈ s.index.entries, s.accepts v p e = false →
    w.node? (recordPlace s.root e.1 e.2.retention) = v.node? (recordPlace s.root e.1 e.2.retention)

/-- The file of a record that is not accepted is none of those that go. -/
theorem Orderly.not_accepted (h : a.Orderly) {f : Family} {s : Store} (hs : a.get f = some s)
    {e : Digest × RecordInfo} (he : e ∈ s.index.entries) (ha : s.accepts v p e = false) :
    ¬ ∃ g, (a.get g).AcceptedAt v p (recordPlace s.root e.1 e.2.retention) := by
  rintro ⟨g, hg⟩
  by_cases hgf : g = f
  · subst hgf
    obtain ⟨t, ht, e', he', heq⟩ := hg
    cases hs.symm.trans ht
    obtain ⟨hmem, ha'⟩ := List.mem_filter.mp he'
    have hsame : e = e' := eq_of_nodup_map (h.atRest g s hs).sound.nodup_entries he hmem
      (recordPlace_injective heq).1
    rw [hsame, ha'] at ha
    cases ha
  · exact h.not_acceptedAt hgf hs e.1 e.2.retention hg

theorem Orderly.removeIf (h : a.Orderly) (v : Volume) (p : Digest → List UInt8 → Bool) :
    (a.forEach v fun slot v => slot.removeIf v p).1 =
        Family.all.map (fun f => ((a.get f).accepted v p).length) ∧
      Culled p a v (a.forEach v fun slot v => slot.removeIf v p).2.1
        (a.forEach v fun slot v => slot.removeIf v p).2.2 := by
  have sound : ∀ f s, a.get f = some s → s.index.Sound := fun f s hs => (h.atRest f s hs).sound
  obtain ⟨hn₁, hc₁, hl₁⟩ := Slot.removeIf_culled (p := p) (sound .general)
    (.nothing v) fun _ _ _ _ => id
  obtain ⟨hn₂, hc₂, hl₂⟩ := Slot.removeIf_culled (p := p) (sound .distinct) hl₁ fun s hs d r hq =>
    h.not_acceptedAt (by decide) hs d r (hq.resolve_left id)
  obtain ⟨hn₃, hc₃, hl₃⟩ := Slot.removeIf_culled (p := p) (sound .permanent) hl₂ fun s hs d r hq =>
    hq.elim (fun hq => h.not_acceptedAt (by decide) hs d r (hq.resolve_left id))
      (h.not_acceptedAt (by decide) hs d r)
  have hfiles : Volume.Lost (fun q => ∃ f, (a.get f).AcceptedAt v p q) v
      (a.forEach v fun slot v => slot.removeIf v p).2.2 := by
    refine hl₃.congr fun q => ?_
    simp only [Family.exists_iff, false_or, or_assoc]
  refine ⟨?_, fun f => ?_, hfiles, fun f s hs e he ha => hfiles.kept _ (h.not_accepted hs he ha)⟩
  · simp only [forEach, Family.all, List.map_cons, List.map_nil]
    rw [← hn₁, ← hn₂, ← hn₃]
    rfl
  · cases f with
    | general => exact hc₁
    | distinct => exact hc₂
    | permanent => exact hc₃

theorem Culled.again (h : Culled p a v b w) :
    b.forEach w (fun slot v => slot.removeIf v p) = ([0, 0, 0], b, w) := by
  have hg := (h.stores .general).again h.files
  have hd := (h.stores .distinct).again h.files
  have hp := (h.stores .permanent).again h.files
  simp only [get] at hg hd hp
  simp only [forEach, hg, hd, hp]

end Archive

/-- Whether the key that a record was stored for is accepted. -/
def ValueKind.accepts (kind : ValueKind α) (q : String → Bool) (_ : Digest)
    (bytes : List UInt8) : Bool := (kind.storedKey bytes).any fun key => q (Key.normalize key)

namespace Cache

variable {p : Design α} {c c' : Cache α}

theorem removeIf_eq (c : Cache α) (q : String → Bool) : c.removeIf q =
    ((c.archive.forEach c.volume fun slot v =>
        slot.removeIf v (c.kind.accepts q)).1.foldr (· + ·) 0,
      { c with
        memory := (c.memory.keepIf fun k => !q k).1
        overflow := c.overflow.keepIf fun k => !q k
        archive := (c.archive.forEach c.volume fun slot v =>
          slot.removeIf v (c.kind.accepts q)).2.1
        volume := (c.archive.forEach c.volume fun slot v =>
          slot.removeIf v (c.kind.accepts q)).2.2 }) := rfl

theorem Orderly.removeIf_again (h : c.Orderly) (q : String → Bool) :
    (c.removeIf q).2.removeIf q = (0, (c.removeIf q).2) := by
  have hm := c.memory.keepIf_again fun k => !q k
  have ho := h.tidy.lingering.keepIf_again fun k => !q k
  have ha := (h.stores.removeIf c.volume (c.kind.accepts q)).2.again
  rw [removeIf_eq c, removeIf_eq]
  simp only [hm, ho, ha, List.foldr_cons, List.foldr_nil]

/-- Caches before and after a removal of all keys that a predicate accepts. -/
structure Culled (q : String → Bool) (c : Cache α) (count : Nat) (c' : Cache α) : Prop where
  /-- Memory has the entries that stay, with their costs and in their order of use. -/
  memory : ∃ l : Ranking (Shared α), l.Mirrors c.memory ∧ (l.filter fun k => !q k).Mirrors c'.memory
  counters : c'.memory.hits = c.memory.hits ∧ c'.memory.misses = c.memory.misses ∧
    c'.memory.evictions = c.memory.evictions
  /-- No overflow tier would take over what memory removes. -/
  ended : ∀ o : Lingering α, o.receive (c.memory.keepIf fun k => !q k).2 = o
  overflow : c'.overflow = c.overflow.only fun k => !q k
  disk : Archive.Culled (c.kind.accepts q) c.archive c.volume c'.archive c'.volume
  count : count = total (fun f =>
    ((c.archive.get f).accepted c.volume (c.kind.accepts q)).length) Family.all
  rest : c'.kind = c.kind ∧ c'.stats = c.stats ∧ c'.held = c.held ∧ c'.nextId = c.nextId
  again : c'.removeIf q = (0, c')

/-- A removal takes what the predicate accepts out of all tiers, and nothing else. -/
theorem removeIf_exact (h : c.Reached p) (q : String → Bool) :
    Culled q c (c.removeIf q).1 (c.removeIf q).2 := by
  have ho := h.orderly
  obtain ⟨l, hl⟩ := ho.tidy.ranked
  obtain ⟨hmirrors, hremoved⟩ := hl.keepIf fun k => !q k
  obtain ⟨hcounts, hculled⟩ := ho.stores.removeIf c.volume (c.kind.accepts q)
  exact
    { memory := ⟨l, hl, hmirrors⟩
      counters := c.memory.counters_keepIf _
      ended := by
        refine fun o => o.receive_eq_self fun r hr => ?_
        obtain ⟨row, -, rfl⟩ := List.mem_map.mp (hremoved.mem_iff.mp hr)
        rfl
      overflow := ho.tidy.lingering.keepIf_eq _
      disk := hculled
      count := congrArg (List.foldr (· + ·) 0) hcounts
      rest := ⟨rfl, rfl, rfl, rfl⟩
      again := ho.removeIf_again q }

/-- A kind of values that keeps the key only of some records. -/
def keyedDesign : Design (List UInt8) := { storeDesign with
  kind := { plainBytes with storedKey := fun bytes => if bytes = [1] then some "a" else none } }

def twoRecords : List (Move (List UInt8)) := [.make [1], .put "a" ⟨0, [1]⟩ (.disk .general .normal),
  .make [2], .put "b" ⟨1, [2]⟩ (.disk .general .always)]

/-- Of two records whose keys are accepted only one has its key in it. -/
theorem removeIf_exact_keyed : ∃ c : Cache (List UInt8), c.Reached keyedDesign ∧
    (c.removeIf fun _ => true).1 = 1 ∧
    Culled (fun _ => true) c (c.removeIf fun _ => true).1 (c.removeIf fun _ => true).2 := by
  obtain ⟨c, h, hcount⟩ := exists_reached keyedDesign .empty twoRecords
    (fun c => (c.removeIf fun _ => true).1) (b := 1) (by decide +kernel)
  exact ⟨c, h, hcount, removeIf_exact h _⟩

end Cache

end TierCache
