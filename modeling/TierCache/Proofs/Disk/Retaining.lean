import TierCache.Proofs.Disk.Eviction
import TierCache.Proofs.Disk.Reopening

/-!
# Retained records

A retained record never gives way to others, and is found again as a retained one whenever the store
is opened again, at whatever capacity. So it stays until a call takes it out or writes its digest
anew. Written anew as one that may be evicted, it gives way like any other.
-/
namespace TierCache.Disk

namespace Shelf

variable {sh : Shelf} {e : Row} {d : Digest} {bytes : List UInt8}

/-- The bytes are there as a retained record of the digest. -/
def Retains (sh : Shelf) (d : Digest) (bytes : List UInt8) : Prop :=
  ∃ e ∈ sh.rows, e.key = (d, .always) ∧ e.bytes = bytes

namespace Retains

theorem shrink (h : sh.Retains d bytes) (hd : sh.Distinct) : sh.shrink.Retains d bytes := by
  obtain ⟨e, he, hk, hb⟩ := h
  exact ⟨e, mem_shrink_of_always hd he (congrArg Prod.snd hk), hk, hb⟩

theorem add (h : sh.Retains d bytes) (he : e.digest ≠ d) : (sh.add e).Retains d bytes := by
  obtain ⟨a, ha, hk, hb⟩ := h
  have had : a.digest = d := congrArg Prod.fst hk
  exact ⟨a, mem_rows_add.mpr (.inl ⟨ha, fun heq => he (heq.symm.trans had)⟩), hk, hb⟩

theorem without (h : sh.Retains d bytes) {ds : List Digest} (hds : d ∉ ds) :
    (sh.without ds).Retains d bytes := by
  obtain ⟨a, ha, hk, hb⟩ := h
  have had : a.digest = d := congrArg Prod.fst hk
  exact ⟨a, mem_rows_without.mpr ⟨ha, had ▸ hds⟩, hk, hb⟩

theorem find? (h : sh.Retains d bytes) (hd : sh.Distinct) :
    ∃ e, sh.find? d = some e ∧ e.key = (d, .always) ∧ e.bytes = bytes := by
  obtain ⟨e, he, hk, hb⟩ := h
  have hf := hd.find?_of_mem he
  rw [show e.digest = d from congrArg Prod.fst hk] at hf
  exact ⟨e, hf, hk, hb⟩

end Retains

end Shelf

/-- The call leaves a record of these bytes alone. -/
def Action.Spares (d : Digest) (bytes : List UInt8) : Action → Prop
  | .put d' _ _ => d' ≠ d
  | .remove d' => d' ≠ d
  | .removeIf p => p d bytes = false
  | .wipe => False
  | .get _ => True
  | .contains _ => True
  | .shrink => True

namespace Shelf

variable {sh : Shelf} {d : Digest} {bytes : List UInt8}

theorem Retains.act (h : sh.Retains d bytes) (hd : sh.Distinct) {a : Action}
    (ha : a.Spares d bytes) (now : Int) : (sh.act now a).2.Retains d bytes := by
  cases a with
  | put d' bytes' r =>
    simp only [Shelf.act]
    split
    · exact h
    · exact (h.add (e := ⟨d', r, bytes', now⟩) ha).shrink (hd.add _)
  | get d' =>
    simp only [Shelf.act]
    cases hf : sh.find? d' with
    | none => exact h
    | some e =>
      have hed := digest_of_find? hf
      by_cases hdd : d' = d
      · obtain ⟨a, ha, hk, hb⟩ := h.find? hd
        rw [← hdd, hf] at ha
        cases ha
        exact ⟨{ e with time := now }, mem_rows_add.mpr (.inr rfl), hk, hb⟩
      · exact h.add (e := { e with time := now }) fun he => hdd (hed.symm.trans he)
  | contains d' => exact h
  | remove d' => exact h.without fun hm => ha (List.mem_singleton.mp hm).symm
  | removeIf p =>
    refine h.without fun hm => ?_
    obtain ⟨e, he, hde⟩ := List.mem_map.mp hm
    obtain ⟨he, hp⟩ := List.mem_filter.mp he
    obtain ⟨e', he', hk, hb⟩ := h
    have heq := hd.eq he he' (hde.trans (congrArg Prod.fst hk).symm)
    rw [heq, hb, show e'.digest = d from congrArg Prod.fst hk] at hp
    exact Bool.false_ne_true (ha.symm.trans hp)
  | wipe => exact ha.elim
  | shrink => exact h.shrink hd

/-- What was put last is the only row of its digest. -/
theorem find?_put {now : Int} {r : Retention} (hb : sh.blocked d r = false) {e : Row}
    (he : e ∈ (sh.act now (.put d bytes r)).2.rows) (hed : e.digest = d) :
    e = ⟨d, r, bytes, now⟩ := by
  simp only [Shelf.act, hb, Bool.false_eq_true, if_false] at he
  rcases mem_rows_add.mp (mem_rows_without.mp he).1 with ⟨-, hne⟩ | rfl
  · exact absurd hed hne
  · rfl

end Shelf

/-- A call, or opening the store again at a capacity. -/
inductive Turn where
  | call (now : Int) (a : Action)
  | reopen (capacity : Nat)

def Turn.Spares (d : Digest) (bytes : List UInt8) : Turn → Prop
  | .call _ a => a.Spares d bytes
  | .reopen capacity => capacity ≠ 0

def turn (root : Path) (version : UInt32) (state : Slot × Volume) : Turn → Slot × Volume
  | .call now a => (state.1.act { state.2 with clock := now } a).2
  | .reopen capacity => Store.open? state.2 root version capacity

def turns (root : Path) (version : UInt32) (start : Slot × Volume) (ts : List Turn) :
    Slot × Volume := ts.foldl (turn root version) start

variable {s s' : Store} {v w : Volume} {sh : Shelf} {root : Path} {version : UInt32}
  {capacity : Nat} {d : Digest} {bytes : List UInt8}

/-- The store opens again at any capacity, with the rows that it had as far as they may stay. -/
theorem Holds.reopen (h : Holds s v sh) (hs : s.root = homeOf root version)
    (hf : Volume.refusal root = none) (hc : capacity ≠ 0) :
    ∃ s' w, ∃ sh' : Shelf, Store.open? v root version capacity = (some s', w) ∧
      Holds s' w sh'.shrink ∧ s'.root = s.root ∧ sh'.capacity = capacity ∧
      sh'.rows.Perm sh.rows := by
  have hr := hs ▸ h.agrees.roomy
  have hst := hs ▸ h.agrees.standing
  obtain ⟨s', w, ho⟩ := open_of_standing hr hst hf hc
  obtain ⟨rows, hop⟩ := opened hr (fun hn => by rw [hst.node?_staging] at hn; cases hn) ho
  obtain ⟨b, p, hh⟩ := hop.holds
  have hperm := hop.perm h hs
  have hdistinct : (Shelf.mk capacity rows b p).Distinct :=
    (hperm.map Row.digest).nodup_iff.mpr h.distinct
  refine ⟨s', w, _, ho, hh, hop.root_eq.trans hs.symm, ?_, ?_⟩
  · rw [Shelf.addAll_eq]
  · rw [@Shelf.rows_addAll ⟨capacity, [], b, p⟩ rows hdistinct]
    exact hperm

/-- A turn keeps the store, and every retained record that it spares. -/
theorem Holds.turn (h : Holds s v sh) (hs : s.root = homeOf root version)
    (hf : Volume.refusal root = none) {t : Turn} (ht : t ≠ .reopen 0) :
    ∃ s' w, ∃ sh' : Shelf, Disk.turn root version (some s, v) t = (some s', w) ∧ Holds s' w sh' ∧
      s'.root = homeOf root version ∧
      ∀ d bytes, t.Spares d bytes → sh.Retains d bytes → sh'.Retains d bytes := by
  cases t with
  | call now a =>
    have hc : Holds s { v with clock := now } sh := h.congr_node fun _ => rfl
    obtain ⟨s', w, hact, hres⟩ := hc.act a
    refine ⟨s', w, _, ?_, hres.holds, hres.root.trans hs, fun d bytes hspares hret => ?_⟩
    · simp only [Disk.turn, hact]
    · exact hret.act h.distinct hspares now
  | reopen capacity =>
    have hc : capacity ≠ 0 := fun hz => ht (hz ▸ rfl)
    obtain ⟨s', w, sh', ho, hh, hroot, -, hperm⟩ := h.reopen hs hf hc
    refine ⟨s', w, _, ho, hh, hroot.trans hs, fun d bytes _ ⟨e, he, hk⟩ => ?_⟩
    have hret : sh'.Retains d bytes := ⟨e, hperm.mem_iff.mpr he, hk⟩
    exact hret.shrink ((hperm.map _).nodup_iff.mpr h.distinct)

theorem Holds.turns (h : Holds s v sh) (hs : s.root = homeOf root version)
    (hf : Volume.refusal root = none) {ts : List Turn} (ht : ∀ t ∈ ts, t ≠ .reopen 0) :
    ∃ s' w, ∃ sh' : Shelf, Disk.turns root version (some s, v) ts = (some s', w) ∧ Holds s' w sh' ∧
      s'.root = homeOf root version ∧
      ∀ d bytes, (∀ t ∈ ts, t.Spares d bytes) → sh.Retains d bytes → sh'.Retains d bytes := by
  induction ts generalizing s v sh with
  | nil => exact ⟨s, v, sh, rfl, h, hs, fun _ _ _ hret => hret⟩
  | cons t ts ih =>
    obtain ⟨s₁, w₁, sh₁, hturn, hh₁, hs₁, hret₁⟩ := h.turn hs hf (ht t List.mem_cons_self)
    obtain ⟨s₂, w₂, sh₂, hturns, hh₂, hs₂, hret₂⟩ :=
      ih hh₁ hs₁ fun t' ht' => ht t' (List.mem_cons_of_mem t ht')
    refine ⟨s₂, w₂, sh₂, ?_, hh₂, hs₂, fun d bytes hspares hret => ?_⟩
    · rw [Disk.turns, List.foldl_cons, hturn]
      exact hturns
    · exact hret₂ d bytes (fun t' ht' => hspares t' (List.mem_cons_of_mem t ht'))
        (hret₁ d bytes (hspares t List.mem_cons_self) hret)

/-- A write is committed only where the record can be written, and the shelf has it then. -/
theorem Holds.committed (h : Holds s v sh) {now : Int} {r : Retention} {slot : Slot}
    (hput : Slot.act (some s) { v with clock := now } (.put d bytes r) =
      (.written .committed, slot, w)) :
    ∃ s', slot = some s' ∧ Holds s' w (sh.act now (.put d bytes r)).2 ∧ s'.root = s.root ∧
      sh.blocked d r = false := by
  have hc : Holds s { v with clock := now } sh := h.congr_node fun _ => rfl
  obtain ⟨s', w', hact, hres⟩ := hc.put d bytes r
  rw [hput] at hact
  obtain ⟨hanswer, hrest⟩ := Prod.mk.inj hact
  obtain ⟨rfl, rfl⟩ := Prod.mk.inj hrest
  refine ⟨s', rfl, hres.holds, hres.root, ?_⟩
  cases hb : sh.blocked d r with
  | false => rfl
  | true =>
    simp only [Shelf.act, hb, if_true] at hanswer
    cases hanswer

/-- The record is there as a retained one, with its bytes, until it is put as one that may be
evicted. -/
structure Sheltered (root : Path) (version : UInt32) (state : Slot × Volume) (d : Digest)
    (bytes : List UInt8) : Prop where
  indexed : ∃ s, state.1 = some s ∧ s.index.get? d = some ⟨bytes.length, .always⟩
  read : (state.1.get state.2 d).1 = some bytes
  /-- Put as one that may be evicted, it is no longer retained, and gives way to a capacity that it
  exceeds. -/
  ended : ∀ now bytes' slot w, state.1.act { state.2 with clock := now } (.put d bytes' .normal) =
      (.written .committed, slot, w) →
    (∃ s, slot = some s ∧ ∀ info, s.index.get? d = some info → info = ⟨bytes'.length, .normal⟩) ∧
    ∀ capacity, capacity ≠ 0 → capacity < bytes'.length →
      ∃ s x, Store.open? w root version capacity = (some s, x) ∧ s.index.get? d = none

theorem Holds.sheltered (h : Holds s v sh) (hs : s.root = homeOf root version)
    (hf : Volume.refusal root = none) (hret : sh.Retains d bytes) :
    Sheltered root version (some s, v) d bytes := by
  obtain ⟨e, he, hk, hb⟩ := hret.find? h.distinct
  obtain ⟨hed, her⟩ := Prod.mk.inj hk
  refine ⟨⟨s, rfl, ?_⟩, ?_, fun now bytes' slot w hput => ?_⟩
  · rw [h.get?_eq, he, Option.map_some, Row.entry, her, hb]
  · obtain ⟨s', w, hact, -⟩ := h.get d
    simp only [Slot.act, Shelf.act, he, Prod.mk.injEq, Answer.bytes.injEq] at hact
    rw [hact.1, hb]
  · obtain ⟨s', rfl, hh, hroot, hblocked⟩ := h.committed hput
    refine ⟨⟨s', rfl, fun info hi => ?_⟩, fun capacity hc hlt => ?_⟩
    · rw [hh.get?_eq, Option.map_eq_some_iff] at hi
      obtain ⟨e, he, rfl⟩ := hi
      rw [Shelf.find?_put hblocked (Shelf.mem_of_find? he) (Shelf.digest_of_find? he)]
      rfl
    · obtain ⟨s'', x, sh', ho, hh', -, hcap, hperm⟩ := hh.reopen (hroot.trans hs) hf hc
      refine ⟨s'', x, ho, ?_⟩
      rw [hh'.get?_eq, Option.map_eq_none_iff, Shelf.find?_eq_none_iff]
      intro e he hed
      have hrow := hperm.mem_iff.mp (Shelf.mem_rows_without.mp he).1
      have heq := Shelf.find?_put hblocked hrow hed
      -- a shelf above its capacity has retained rows only, and this one is not retained
      rcases Shelf.settled_shrink sh' with hfits | hall
      · have hle : total (fun e => e.bytes.length) [e] ≤ sh'.shrink.size :=
          total_sublist _ (List.singleton_sublist.mpr he)
        have hsize : e.bytes.length = bytes'.length := by rw [heq]
        have hcap' : sh'.shrink.capacity = capacity := hcap
        rw [total_cons, total_nil] at hle
        omega
      · have hnormal : e.retention = .normal := by rw [heq]
        rw [hall e he] at hnormal
        cases hnormal

/-- A record that was committed as a retained one stays, with its bytes, whatever else is done and
at whatever capacities the store is opened again. -/
theorem retained_outlives (hr : Roomy (homeOf root version)) (hv : v.Rooted)
    (ho : Store.open? v root version capacity = (some s, w)) {before after : List Turn}
    (hbefore : ∀ t ∈ before, t ≠ .reopen 0) {now : Int} {slot : Slot} {x : Volume}
    (hput : (turns root version (some s, w) before).1.act
        { (turns root version (some s, w) before).2 with clock := now } (.put d bytes .always) =
      (.written .committed, slot, x))
    (hafter : ∀ t ∈ after, t.Spares d bytes) :
    Sheltered root version (turns root version (slot, x) after) d bytes := by
  obtain ⟨rows, hop⟩ := opened hr (fun hn below => hv.node?_append hn below) ho
  obtain ⟨b, p, hh⟩ := hop.holds
  obtain ⟨s₁, v₁, sh₁, hturns, hh₁, hs₁, -⟩ := hh.turns hop.root_eq hop.followed hbefore
  rw [hturns] at hput
  obtain ⟨s₂, rfl, hh₂, hroot₂, hblocked⟩ := hh₁.committed hput
  have hret : (sh₁.act now (.put d bytes .always)).2.Retains d bytes := by
    refine ⟨⟨d, .always, bytes, now⟩, ?_, rfl, rfl⟩
    simp only [Shelf.act, hblocked, Bool.false_eq_true, if_false]
    exact Shelf.mem_shrink_of_always (hh₁.distinct.add _) (Shelf.mem_rows_add.mpr (.inr rfl)) rfl
  have hreopen : ∀ t ∈ after, t ≠ .reopen 0 := by
    rintro t ht rfl
    exact hafter _ ht rfl
  obtain ⟨s₃, v₃, sh₃, hturns', hh₃, hs₃, hkeeps⟩ :=
    hh₂.turns (hroot₂.trans hs₁) hop.followed hreopen
  rw [hturns']
  exact hh₃.sheltered hs₃ hop.followed (hkeeps d bytes hafter hret)

/-- A retained record of three bytes outlives capacities of one and of two, and another record. -/
theorem retained_outlives_store : ∃ s w slot x,
    Store.open? Volume.empty ⟨["store"]⟩ 1 100 = (some s, w) ∧
    Slot.act (some s) { w with clock := 1 } (.put (.ofKey "a") [1, 2, 3] .always) =
      (.written .committed, slot, x) ∧
    Sheltered ⟨["store"]⟩ 1
      (turns ⟨["store"]⟩ 1 (slot, x) [.reopen 1, .call 2 (.put (.ofKey "b") [4] .normal),
        .call 3 (.remove (.ofKey "b")), .call 4 .shrink, .reopen 2]) (.ofKey "a") [1, 2, 3] := by
  obtain ⟨s, w, ho⟩ := open_store
  obtain ⟨rows, hop⟩ := opened roomy_store (fun hn below => rooted_empty.node?_append hn below) ho
  obtain ⟨b, p, hh⟩ := hop.holds
  have hc : Holds s { w with clock := 1 } _ := hh.congr_node fun _ => rfl
  obtain ⟨s', w', hact, -⟩ := hc.put (.ofKey "a") [1, 2, 3] .always
  have hfree := (hh.blocked (.ofKey "a") .always).trans (isBlocked_store ho _ _)
  simp only [Shelf.act, hfree, Bool.false_eq_true, if_false] at hact
  have hne : Digest.ofKey "b" ≠ Digest.ofKey "a" := by decide +kernel
  have hspares : ∀ t ∈ [Turn.reopen 1, .call 2 (.put (.ofKey "b") [4] .normal),
      .call 3 (.remove (.ofKey "b")), .call 4 .shrink, .reopen 2],
      t.Spares (.ofKey "a") [1, 2, 3] := by
    simp [Turn.Spares, Action.Spares, hne]
  have hbefore : ∀ t ∈ ([] : List Turn), t ≠ .reopen 0 := fun t ht => absurd ht List.not_mem_nil
  exact ⟨s, w, some s', w', ho, hact,
    retained_outlives roomy_store rooted_empty ho hbefore hact hspares⟩

end TierCache.Disk
