import TierCache.Cache
import TierCache.Proofs.Disk.Run
import TierCache.Proofs.Disk.Upkeep

/-!
# Stores side by side

A cache has up to three stores, each at a home of its own. What one store does leaves the records
of the others alone, and the folders on the way, which they share, stand. So what is said of the
records of each store is kept by every call of any store, and by opening them all again.
-/
namespace TierCache

open Disk

/-- Where a store is opened, and how much it may take. -/
structure Site where
  root : Path
  version : UInt32
  capacity : Nat

def Site.home (site : Site) : Path := homeOf site.root site.version

/-- Two homes that share the way to them, and nothing else. -/
structure Site.Apart (site other : Site) : Prop where
  disjoint : ∀ q, site.root.goal <+: q → ¬ other.root.goal <+: q
  shared : ∀ q ∈ folders site.home, q ∈ folders other.home ∨ site.root.goal <+: q
  way : ∀ q ∈ other.root.way, q ∈ folders site.home

variable {site other : Site} {s : Store} {v w : Volume} {good : Digest → List UInt8 → Prop}

theorem Site.goal_home (site : Site) : site.root.goal <+: site.home.goal := by
  rw [home, goal_homeOf]
  exact List.prefix_append _ _

/-- A store at its home that holds a shelf. -/
structure Site.Keeps (site : Site) (sh : Disk.Shelf) (s : Store) (v : Volume) : Prop where
  root : s.root = site.home
  positive : site.capacity ≠ 0
  holds : Holds s v sh

/-- A store at its home, all of whose records are good. -/
structure Site.Held (site : Site) (good : Digest → List UInt8 → Prop) (s : Store) (v : Volume) :
    Prop where
  root : s.root = site.home
  positive : site.capacity ≠ 0
  shelf : ∃ sh, Holds s v sh ∧ ∀ e ∈ sh.rows, good e.digest e.bytes

/-- The records that stand in a home are good. -/
def Site.Clean (site : Site) (good : Digest → List UInt8 → Prop) (v : Volume) : Prop :=
  ∀ d r bytes time, v.fileAt? (recordPlace site.home d r) = some (bytes, time) → good d bytes

theorem Site.Clean.of_files (h : site.Clean good v) (hf : ∀ {q bytes time},
    w.fileAt? q = some (bytes, time) → ∃ time', v.fileAt? q = some (bytes, time')) :
    site.Clean good w := by
  intro d r bytes time hw
  obtain ⟨time', hv⟩ := hf hw
  exact h d r bytes time' hv

/-- A store holds its shelf while its folders stand and nothing changes in its home. -/
theorem Disk.Holds.beside {sh : Disk.Shelf} (h : Holds s v sh) (hs : Standing s.root w)
    (hn : ∀ q, s.root.goal <+: q → w.node? q = v.node? q) : Holds s w sh := by
  have hf : ∀ d r, w.fileAt? (recordPlace s.root d r) = v.fileAt? (recordPlace s.root d r) := by
    intro d r
    rw [Volume.fileAt?, hn _ (prefix_recordPlace s.root d r)]
    rfl
  have ha : Agrees s w := h.agrees.congr hs (fun d r => by rw [hf])
    fun name => hn _ (List.prefix_append _ _)
  refine ⟨ha, h.capacity, h.entries, fun e he => (hf _ _).trans (h.files e he), fun d r => ?_,
    fun d r => ?_⟩
  · rw [h.blocked, isBlocked, isBlocked, h.agrees.canStage_eq ha rfl,
      hn _ (prefix_recordPlace s.root d r)]
  · rw [h.pinned, h.agrees.canStage_eq ha rfl]

namespace Site.Held

theorem keeps (h : site.Held good s v) :
    ∃ sh, site.Keeps sh s v ∧ ∀ e ∈ sh.rows, good e.digest e.bytes := by
  obtain ⟨sh, hh, hg⟩ := h.shelf
  exact ⟨sh, ⟨h.root, h.positive, hh⟩, hg⟩

theorem standing (h : site.Held good s v) : Standing site.home v := by
  obtain ⟨sh, hh, -⟩ := h.shelf
  exact h.root ▸ hh.agrees.standing

theorem roomy (h : site.Held good s v) : Roomy site.home := by
  obtain ⟨sh, hh, -⟩ := h.shelf
  exact h.root ▸ hh.agrees.roomy

theorem clean (h : site.Held good s v) : site.Clean good v := by
  obtain ⟨sh, hh, hg⟩ := h.shelf
  intro d r bytes time hf
  rw [← h.root] at hf
  exact hg ⟨d, r, bytes, time⟩ (hh.mem_rows.mpr hf)

theorem mono {good' : Digest → List UInt8 → Prop} (h : site.Held good s v)
    (hg : ∀ d bytes, good d bytes → good' d bytes) : site.Held good' s v := by
  obtain ⟨sh, hh, hr⟩ := h.shelf
  exact ⟨h.root, h.positive, sh, hh, fun e he => hg _ _ (hr e he)⟩

end Site.Held

theorem Site.Keeps.held {sh : Disk.Shelf} (h : site.Keeps sh s v)
    (hg : ∀ e ∈ sh.rows, good e.digest e.bytes) : site.Held good s v :=
  ⟨h.root, h.positive, sh, h.holds, hg⟩

theorem Site.Keeps.standing {sh : Disk.Shelf} (h : site.Keeps sh s v) : Standing site.home v :=
  h.root ▸ h.holds.agrees.standing

/-- What may happen outside a root: folders come on the way to it. -/
def Site.Outside (other : Site) (v w : Volume) : Prop :=
  ∀ q, ¬ other.root.goal <+: q → w.node? q = v.node? q ∨
    v.node? q = none ∧ w.node? q = some .folder ∧ q ∈ other.root.way

namespace Site.Apart

/-- Nothing happens to a store at a neighbour's root. -/
theorem node? (ha : site.Apart other) (hs : Standing site.home v) (hw : other.Outside v w)
    {q : Place} (hq : site.root.goal <+: q) : w.node? q = v.node? q := by
  rcases hw q (ha.disjoint q hq) with hn | ⟨hn, -, hm⟩
  · exact hn
  · rw [hs q (ha.way q hm)] at hn
    cases hn

/-- The folders of a store stand while those of its neighbour do. -/
theorem standing (ha : site.Apart other) (hs : Standing site.home v) (hw : other.Outside v w)
    (ho : Standing other.home w) : Standing site.home w := by
  intro q hq
  cases ha.shared q hq with
  | inl hm => exact ho q hm
  | inr hm => rw [ha.node? hs hw hm, hs q hq]

theorem keeps (ha : site.Apart other) {sh : Disk.Shelf} (h : site.Keeps sh s v)
    (hw : other.Outside v w) (hs : Standing site.home w) : site.Keeps sh s w := by
  refine ⟨h.root, h.positive, h.holds.beside (h.root ▸ hs) fun q hq => ?_⟩
  rw [h.root] at hq
  exact ha.node? h.standing hw (site.goal_home.trans hq)

theorem held (ha : site.Apart other) (h : site.Held good s v) (hw : other.Outside v w)
    (hs : Standing site.home w) : site.Held good s w := by
  obtain ⟨sh, hk, hg⟩ := h.keeps
  exact (ha.keeps hk hw hs).held hg

end Site.Apart

/-- Opening takes the records in that it finds. -/
theorem Site.Clean.opened (h : site.Clean good v) (hr : Roomy site.home) (hv : v.Rooted)
    (ho : Store.open? v site.root site.version site.capacity = (some s, w)) :
    site.Held good s w := by
  obtain ⟨rows, hop⟩ := Disk.opened hr (fun hn below => hv.node?_append hn below) ho
  obtain ⟨blocked, pinned, hh⟩ := hop.holds
  refine ⟨hop.root_eq, hop.positive, _, hh, fun e he => ?_⟩
  have hm : e ∈ rows :=
    (Disk.Shelf.mem_addAll (Disk.Shelf.mem_rows_without.mp he).1).resolve_left List.not_mem_nil
  exact h _ _ _ _ ((hop.found e).mp hm)

namespace Disk.Slot

/-- All calls but a write tidy the home of their store. -/
theorem act_cases (s : Store) (v : Volume) (a : Action) :
    Kept s.root v (Slot.act (some s) v a).2.2 ∨ ∃ d bytes r, a = .put d bytes r ∧
      (Slot.act (some s) v a).2.2 = (s.put v d bytes r).2.2 := by
  cases a with
  | put d bytes r => exact .inr ⟨d, bytes, r, rfl, rfl⟩
  | get d => exact .inl (s.kept_get v d)
  | contains d => exact .inl .refl
  | remove d => exact .inl (s.kept_evict v d)
  | removeIf p => exact .inl (s.kept_evictAll v _)
  | wipe => exact .inl (s.kept_wipe v)
  | shrink => exact .inl (s.kept_shrink v)

theorem rooted_act (hv : v.Rooted) (slot : Slot) (a : Action) :
    (Slot.act slot v a).2.2.Rooted := by
  cases slot with
  | none => rwa [act_none]
  | some s =>
    rcases act_cases s v a with h | ⟨d, bytes, r, -, h⟩
    · exact h.rooted hv
    · exact h ▸ s.rooted_put hv d bytes r

@[simp] theorem free_act (slot : Slot) (v : Volume) (a : Action) :
    (Slot.act slot v a).2.2.free = v.free := by
  cases slot with
  | none => rw [act_none]
  | some s =>
    rcases act_cases s v a with h | ⟨d, bytes, r, -, h⟩
    · exact h.medium.2
    · exact h ▸ s.free_put v d bytes r

end Disk.Slot

namespace Archive

@[simp] theorem get_set (a : Archive) (f g : Family) (slot : Slot) :
    (a.set f slot).get g = if g = f then slot else a.get g := by
  cases f <;> cases g <;> rfl

/-- Stores at their homes, each with its shelf. -/
structure Shelved (sites : Family → Option Site) (shelf : Family → Disk.Shelf) (a : Archive)
    (v : Volume) : Prop where
  rooted : v.Rooted
  keeps : ∀ f s, a.get f = some s → ∃ site, sites f = some site ∧ site.Keeps (shelf f) s v
  full : ∀ f site, sites f = some site → ∃ s, a.get f = some s

/-- Stores at their homes, all of whose records are good. -/
structure Stocked (sites : Family → Option Site) (good : Family → Digest → List UInt8 → Prop)
    (a : Archive) (v : Volume) : Prop where
  rooted : v.Rooted
  held : ∀ f s, a.get f = some s → ∃ site, sites f = some site ∧ site.Held (good f) s v
  full : ∀ f site, sites f = some site → ∃ s, a.get f = some s

/-- Different families have homes apart. -/
def Apart (sites : Family → Option Site) : Prop :=
  ∀ f g, f ≠ g → ∀ site other, sites f = some site → sites g = some other → site.Apart other

variable {sites : Family → Option Site} {a : Archive} {v : Volume}
variable {good good' : Family → Digest → List UInt8 → Prop}

variable {shelf : Family → Disk.Shelf}

theorem Shelved.stocked (h : Shelved sites shelf a v)
    (hg : ∀ f s, a.get f = some s → ∀ e ∈ (shelf f).rows, good f e.digest e.bytes) :
    Stocked sites good a v where
  rooted := h.rooted
  held := fun f s hs =>
    let ⟨site, hsite, hk⟩ := h.keeps f s hs
    ⟨site, hsite, hk.held (hg f s hs)⟩
  full := h.full

theorem Shelved.congr {shelf' : Family → Disk.Shelf} (h : Shelved sites shelf a v)
    (hs : ∀ f, shelf' f = shelf f) : Shelved sites shelf' a v :=
  funext hs ▸ h

theorem Stocked.shelved (h : Stocked sites good a v) : ∃ shelf, Shelved sites shelf a v ∧
    ∀ f s, a.get f = some s → ∀ e ∈ (shelf f).rows, good f e.digest e.bytes := by
  have each : ∀ f, ∃ sh : Disk.Shelf, ∀ s, a.get f = some s →
      (∃ site, sites f = some site ∧ site.Keeps sh s v) ∧
        ∀ e ∈ sh.rows, good f e.digest e.bytes := by
    intro f
    cases hs : a.get f with
    | none => exact ⟨⟨0, [], fun _ _ => false, fun _ _ => false⟩, fun s hs' => by cases hs'⟩
    | some s =>
      obtain ⟨site, hsite, hh⟩ := h.held f s hs
      obtain ⟨sh, hk, hg⟩ := hh.keeps
      refine ⟨sh, fun s' hs' => ?_⟩
      cases hs'
      exact ⟨⟨site, hsite, hk⟩, hg⟩
  obtain ⟨shelf, hshelf⟩ := Classical.skolem.mp each
  exact ⟨shelf, ⟨h.rooted, fun f s hs => (hshelf f s hs).1, h.full⟩,
    fun f s hs => (hshelf f s hs).2⟩

/-- A call of one store is a call of its shelf, and leaves the other shelves as they are. -/
theorem Shelved.act (hap : Apart sites) (h : Shelved sites shelf a v) (f : Family) (x : Action) :
    Shelved sites (fun g => if g = f then ((shelf f).act v.clock x).2 else shelf g)
      (a.set f (Slot.act (a.get f) v x).2.1) (Slot.act (a.get f) v x).2.2 ∧
    (Slot.act (a.get f) v x).2.2.clock = v.clock ∧
    ∀ s, a.get f = some s → (Slot.act (a.get f) v x).1 = ((shelf f).act v.clock x).1 := by
  have hr := Slot.rooted_act h.rooted (a.get f) x
  cases hs : a.get f with
  | none =>
    rw [Slot.act_none]
    refine ⟨⟨h.rooted, fun g s hs' => ?_, fun g site hsite => ?_⟩, rfl, fun s hs' => by cases hs'⟩
    · rw [get_set] at hs'
      split at hs'
      · cases hs'
      · rename_i hne
        rw [if_neg hne]
        exact h.keeps g s hs'
    · obtain ⟨s, hs'⟩ := h.full g site hsite
      refine ⟨s, ?_⟩
      rw [get_set, if_neg, hs']
      rintro rfl
      rw [hs] at hs'
      cases hs'
  | some s =>
    rw [hs] at hr
    obtain ⟨site, hsite, hk⟩ := h.keeps f s hs
    obtain ⟨s', w, hact, hres⟩ := hk.holds.act x
    rw [hact] at hr ⊢
    have hnew : site.Keeps ((shelf f).act v.clock x).2 s' w :=
      ⟨hres.root.trans hk.root, hk.positive, hres.holds⟩
    have hout : site.Outside v w := by
      intro q hq
      refine .inl (hres.frame.outside q fun hp => hq ?_)
      rw [hk.root] at hp
      exact site.goal_home.trans hp
    refine ⟨⟨hr, fun g s'' hs'' => ?_, fun g site' hsite' => ?_⟩, hres.frame.clock, fun _ _ => rfl⟩
    · rw [get_set] at hs''
      split at hs''
      · rename_i hgf
        cases hs''
        subst hgf
        rw [if_pos rfl]
        exact ⟨site, hsite, hnew⟩
      · rename_i hne
        obtain ⟨site', hsite', hk'⟩ := h.keeps g s'' hs''
        rw [if_neg hne]
        have ha := hap g f hne site' site hsite' hsite
        exact ⟨site', hsite', ha.keeps hk' hout (ha.standing hk'.standing hout hnew.standing)⟩
    · rw [get_set]
      split
      · exact ⟨s', rfl⟩
      · exact h.full g site' hsite'

/-- A call of each store in turn is one call of each shelf. -/
theorem Shelved.forEach (hap : Apart sites) (h : Shelved sites shelf a v) (x : Action) {β : Type}
    {act : Slot → Volume → β × Slot × Volume}
    (hact : ∀ slot v, (act slot v).2 = (Slot.act slot v x).2) :
    Shelved sites (fun f => ((shelf f).act v.clock x).2) (a.forEach v act).2.1
      (a.forEach v act).2.2 := by
  have step : ∀ (f : Family) {shelf : Family → Disk.Shelf} {b : Archive} {u : Volume},
      Shelved sites shelf b u → u.clock = v.clock →
      Shelved sites (fun g => if g = f then ((shelf f).act v.clock x).2 else shelf g)
        (b.set f (act (b.get f) u).2.1) (act (b.get f) u).2.2 ∧
      (act (b.get f) u).2.2.clock = v.clock := by
    intro f shelf b u hb hu
    rw [hact, ← hu]
    exact ⟨(hb.act hap f x).1, (hb.act hap f x).2.1⟩
  obtain ⟨h₁, c₁⟩ := step .general h rfl
  obtain ⟨h₂, c₂⟩ := step .distinct h₁ c₁
  obtain ⟨h₃, -⟩ := step .permanent h₂ c₂
  exact h₃.congr fun f => by cases f <;> rfl

/-- What is read is on the shelf. -/
theorem Shelved.get (h : Shelved sites shelf a v) {f : Family} {s : Store} (hs : a.get f = some s)
    (d : Digest) : ((a.get f).get v d).1 = ((shelf f).find? d).map Row.bytes := by
  obtain ⟨site, -, hk⟩ := h.keeps f s hs
  obtain ⟨s', w, hact, -⟩ := hk.holds.get d
  have hans := congrArg Prod.fst hact
  simp only [Slot.act, Disk.Shelf.act] at hans
  rw [hs]
  cases hf : (shelf f).find? d with
  | none =>
    rw [hf] at hans
    exact Answer.bytes.inj hans
  | some e =>
    rw [hf] at hans
    exact Answer.bytes.inj hans

theorem Stocked.mono (h : Stocked sites good a v)
    (hg : ∀ f d bytes, good f d bytes → good' f d bytes) : Stocked sites good' a v where
  rooted := h.rooted
  held := fun f s hs =>
    let ⟨site, hsite, hh⟩ := h.held f s hs
    ⟨site, hsite, hh.mono (hg f)⟩
  full := h.full

theorem Stocked.setClock (h : Stocked sites good a v) (now : Int) :
    Stocked sites good a { v with clock := now } where
  rooted := h.rooted
  held := by
    intro f s hs
    obtain ⟨site, hsite, hh⟩ := h.held f s hs
    obtain ⟨sh, hsh, hr⟩ := hh.shelf
    exact ⟨site, hsite, hh.root, hh.positive, sh, hsh.congr_node fun _ => rfl, hr⟩
  full := h.full

/-- A call of one store answers for its own records. -/
theorem Stocked.act (hap : Apart sites) (h : Stocked sites good a v) (f : Family) (x : Action)
    (hf : ∀ sh : Disk.Shelf, (Slot.act (a.get f) v x).1 = (sh.act v.clock x).1 →
      (∀ e ∈ sh.rows, good f e.digest e.bytes) →
        ∀ e ∈ (sh.act v.clock x).2.rows, good' f e.digest e.bytes)
    (hg : ∀ g, g ≠ f → ∀ d bytes, good g d bytes → good' g d bytes) :
    Stocked sites good' (a.set f (Slot.act (a.get f) v x).2.1) (Slot.act (a.get f) v x).2.2 := by
  obtain ⟨shelf, hshelf, hgood⟩ := h.shelved
  obtain ⟨hshelf', -, hans⟩ := hshelf.act hap f x
  refine hshelf'.stocked fun g s' hs' e he => ?_
  rw [get_set] at hs'
  split at hs'
  · rename_i hgf
    subst hgf
    rw [if_pos rfl] at he
    cases hs : a.get g with
    | none =>
      rw [hs, Slot.act_none] at hs'
      cases hs'
    | some s => exact hf (shelf g) (hans s hs) (hgood g s hs) e he
  · rename_i hne
    rw [if_neg hne] at he
    exact hg g hne _ _ (hgood g s' hs' e he)

theorem Stocked.held_of_site (h : Stocked sites good a v) {f : Family} {site : Site}
    (hsite : sites f = some site) : ∃ s, a.get f = some s ∧ site.Held (good f) s v := by
  obtain ⟨s, hs⟩ := h.full f site hsite
  obtain ⟨site', hsite', hh⟩ := h.held f s hs
  rw [hsite, Option.some.injEq] at hsite'
  exact ⟨s, hs, hsite' ▸ hh⟩

/-- What is read is good. -/
theorem Stocked.good_of_get (h : Stocked sites good a v) {f : Family} {d : Digest}
    {bytes : List UInt8} (hb : ((a.get f).get v d).1 = some bytes) : good f d bytes := by
  obtain ⟨shelf, hshelf, hgood⟩ := h.shelved
  cases hs : a.get f with
  | none =>
    rw [hs] at hb
    cases hb
  | some s =>
    rw [hshelf.get hs, Option.map_eq_some_iff] at hb
    obtain ⟨e, he, rfl⟩ := hb
    have hg := hgood f s hs e (Disk.Shelf.mem_of_find? he)
    rwa [Disk.Shelf.digest_of_find? he] at hg

theorem isSome_get_forEach {β : Type} {act : Slot → Volume → β × Slot × Volume} (x : Action)
    (hact : ∀ slot v, (act slot v).2 = (Slot.act slot v x).2) (a : Archive) (v : Volume)
    (f : Family) : ((a.forEach v act).2.1.get f).isSome = (a.get f).isSome := by
  have one : ∀ slot u, (act slot u).2.1.isSome = slot.isSome := by
    intro slot u
    rw [hact]
    cases slot with
    | none => rw [Slot.act_none]
    | some s => cases x <;> rfl
  cases f with
  | general => exact one _ _
  | distinct => exact one _ _
  | permanent => exact one _ _

/-- A call of each store in turn. -/
theorem Stocked.forEach (hap : Apart sites) (h : Stocked sites good a v) (x : Action)
    {β : Type} {act : Slot → Volume → β × Slot × Volume}
    (hact : ∀ slot v, (act slot v).2 = (Slot.act slot v x).2)
    (hf : ∀ f now (sh : Disk.Shelf), (∀ e ∈ sh.rows, good f e.digest e.bytes) →
      ∀ e ∈ (sh.act now x).2.rows, good' f e.digest e.bytes) :
    Stocked sites good' (a.forEach v act).2.1 (a.forEach v act).2.2 := by
  obtain ⟨shelf, hshelf, hgood⟩ := h.shelved
  refine (hshelf.forEach hap x hact).stocked fun f s' hs' => ?_
  have hsome := isSome_get_forEach x hact a v f
  rw [hs', Option.isSome_some, eq_comm, Option.isSome_iff_exists] at hsome
  obtain ⟨s, hs⟩ := hsome
  exact hf f v.clock (shelf f) (hgood f s hs)

/-- A digest whose records are all kept is read as before. -/
theorem Stocked.read_removeIf (hap : Apart sites) (h : Stocked sites good a v) {f : Family}
    {d : Digest} {p : Digest → List UInt8 → Bool}
    (hd : ∀ bytes, good f d bytes → p d bytes = false) :
    (((a.forEach v fun slot v => slot.removeIf v p).2.1.get f).get
      (a.forEach v fun slot v => slot.removeIf v p).2.2 d).1 = ((a.get f).get v d).1 := by
  obtain ⟨shelf, hshelf, hgood⟩ := h.shelved
  have hact : ∀ (slot : Slot) v, (slot.removeIf v p).2 = (Slot.act slot v (.removeIf p)).2 :=
    fun _ _ => rfl
  have hcleared := hshelf.forEach hap (.removeIf p) hact
  have hsome := isSome_get_forEach (.removeIf p) hact a v f
  cases hs : a.get f with
  | none =>
    rw [hs, Option.isSome_none, Option.isSome_eq_false_iff, Option.isNone_iff_eq_none] at hsome
    rw [hsome]
    rfl
  | some s =>
    rw [hs, Option.isSome_some, Option.isSome_iff_exists] at hsome
    obtain ⟨s', hs'⟩ := hsome
    rw [hcleared.get hs', ← hs, hshelf.get hs]
    simp only [Disk.Shelf.act]
    rw [Disk.Shelf.find?_without]
    intro hmem
    obtain ⟨e, he, rfl⟩ := List.mem_map.mp hmem
    obtain ⟨he, hp⟩ := List.mem_filter.mp he
    rw [hd _ (hgood f s hs e he)] at hp
    cases hp

theorem free_forEach {β : Type} {act : Slot → Volume → β × Slot × Volume} (x : Action)
    (hact : ∀ slot v, (act slot v).2 = (Slot.act slot v x).2) (a : Archive) (v : Volume) :
    (a.forEach v act).2.2.free = v.free := by
  have one : ∀ slot u, (act slot u).2.2.free = u.free := by
    intro slot u
    rw [hact, Slot.free_act]
  simp only [forEach, one]

end Archive

end TierCache
