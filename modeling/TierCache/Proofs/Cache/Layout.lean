import TierCache.Proofs.Cache.Stock
import TierCache.Proofs.Disk.Barring

/-!
# Opening the stores of a cache

A cache keeps nothing on disk, one store, or a store for each family below its folder. Opening
stores in a row finds in each what stands in its home. Where all of them stood open before they
open again, with the same records or fewer.
-/
namespace TierCache

open Disk

/-- What a cache keeps on disk. -/
inductive Layout where
  | absent
  | single (root : Path) (version : UInt32) (capacity : Nat)
  | families (settings : Settings)

namespace Layout

def start (l : Layout) (v : Volume) : Except Fault (Archive × Volume) :=
  match l with
  | .absent => .ok (.disabled, v)
  | .single root version capacity =>
    let (slot, v) := Store.open? v root version capacity
    .ok (.single slot, v)
  | .families settings => Archive.ofSettings settings v

/-- The bytes for all records where the folder of the cache can be made. -/
def budget (settings : Settings) (free : Option Nat) : Nat :=
  settings.diskCapacity.getD ((free.map Budget.automatic).getD 0)

/-- Nothing is opened without a capacity. -/
def site? (root : Path) (version : UInt32) (capacity : Nat) : Option Site :=
  if capacity = 0 then none else some ⟨root, version, capacity⟩

def familySite? (settings : Settings) (parts : Nat × Nat) (f : Family) : Option Site :=
  let root := (Path.ofString settings.cachePath).join f.name
  site? root settings.formatVersion <| match f with
    | .general => parts.1
    | .distinct => parts.2
    | .permanent => settings.permanentCapacity

/-- The stores of a layout, for so much free space. -/
def sites (l : Layout) (free : Option Nat) : Family → Option Site :=
  match l with
  | .absent => fun _ => none
  | .single root version capacity => fun f =>
    if f = .general then site? root version capacity else none
  | .families settings =>
    familySite? settings
      ((Budget.split (budget settings free) settings.distinctRatio).toOption.getD (0, 0))

end Layout

def openSite (site : Option Site) (v : Volume) : Slot × Volume :=
  match site with
  | none => (none, v)
  | some site => Store.open? v site.root site.version site.capacity

def openAll (sites : Family → Option Site) : List Family → Archive × Volume → Archive × Volume
  | [], p => p
  | f :: fs, (a, v) =>
    let (slot, v) := openSite (sites f) v
    openAll sites fs (a.set f slot, v)

theorem openSite_site? (root : Path) (version : UInt32) {capacity : Nat} (h : capacity ≠ 0)
    (v : Volume) : openSite (Layout.site? root version capacity) v =
      Store.open? v root version capacity := by
  rw [Layout.site?, if_neg h]
  rfl

theorem openFamily_eq (settings : Settings) (v : Volume) (f : Family) (bytes : Nat) :
    Archive.openFamily settings v f bytes = openSite (Layout.site?
      ((Path.ofString settings.cachePath).join f.name) settings.formatVersion bytes) v := by
  rw [Archive.openFamily, Layout.site?]
  split <;> rfl

theorem allowance_automatic {v : Volume} {path : String} (h : v.contains (.ofString path) = true) :
    Allowance.automatic.bytes v path = (v.free.map Budget.automatic).elim
      (.error (.noStorage ("cannot determine free space of " ++ path))) .ok := by
  cases hf : v.free with
  | none => simp only [Allowance.bytes, h, if_true, hf, Option.map_none, Option.elim_none]
  | some free => simp only [Allowance.bytes, h, if_true, hf, Option.map_some, Option.elim_some]

theorem diskBudget_eq (settings : Settings) (v : Volume) :
    Archive.diskBudget settings v =
      (if (v.makeFolders (.ofString settings.cachePath)).2 = none then
        Layout.budget settings v.free else 0,
        (v.makeFolders (.ofString settings.cachePath)).1) := by
  unfold Archive.diskBudget Layout.budget
  split
  · rename_i u err hu
    rw [hu]
    rfl
  · rename_i u hu
    have hm := (Volume.medium_makeFolders v (.ofString settings.cachePath)).2
    obtain ⟨hl, hn⟩ := Volume.isFolder_iff.mp (Volume.isFolder_of_makeFolders hu)
    have hc : u.contains (.ofString settings.cachePath) = true := by
      rw [Volume.contains, Volume.look_eq_ok_iff.mpr ⟨hl, rfl, hn⟩]
      rfl
    rw [hu] at hm ⊢
    rw [if_pos rfl, ← hm]
    cases settings.diskCapacity with
    | some bytes => rfl
    | none =>
      simp only [allowance_automatic hc, Option.getD_none]
      -- its literals are too large to be unfolded
      generalize u.free.map Budget.automatic = share
      cases share with
      | none => rfl
      | some bytes => rfl

theorem split_zero {ratio : Binary64} {parts : Nat × Nat} (h : Budget.split 0 ratio = .ok parts) :
    parts = (0, 0) := by
  rw [Budget.split] at h
  split at h
  · cases h
    rfl
  · obtain ⟨g, hg, h⟩ := bind_eq_ok_iff.mp h
    obtain ⟨hle, rfl⟩ := subCounts_eq_ok_iff.mp hg
    cases h
    rw [Nat.le_zero.mp hle]

/-- Opening a layout makes the folder of the cache, and then opens its stores in a row. Without that
folder only those are tried that have a budget of their own. -/
theorem Layout.start_eq {l : Layout} {v w : Volume} {a : Archive} (h : l.start v = .ok (a, w)) :
    ∃ sites p, (a, w) = openAll sites Family.all (.disabled, (v.makeFolders p).1) ∧
      (∀ f site, sites f = some site → l.sites v.free f = some site) ∧
      ((∀ settings, l = .families settings →
        (v.makeFolders (.ofString settings.cachePath)).2 = none) → sites = l.sites v.free) := by
  cases l with
  | absent =>
    cases h
    exact ⟨_, ⟨[]⟩, rfl, fun _ _ hs => hs, fun _ => rfl⟩
  | single root version capacity =>
    simp only [start, Except.ok.injEq] at h
    rw [← h]
    by_cases hc : capacity = 0
    · refine ⟨_, root, ?_, fun _ _ hs => hs, fun _ => rfl⟩
      simp only [hc, Store.open?, if_true, Family.all, openAll, sites, site?, openSite]
      split <;> rename_i hu <;> rw [hu] <;> rfl
    · refine ⟨_, ⟨[]⟩, ?_, fun _ _ hs => hs, fun _ => rfl⟩
      simp only [Family.all, openAll, sites, if_true, openSite_site? root version hc]
      rfl
  | families settings =>
    simp only [start, Archive.ofSettings, diskBudget_eq] at h
    obtain ⟨parts, hparts, h⟩ := bind_eq_ok_iff.mp h
    simp only [openFamily_eq, pure, Except.pure, Except.ok.injEq] at h
    refine ⟨familySite? settings parts, .ofString settings.cachePath, ?_, ?_⟩
    · rw [← h]
      rfl
    · by_cases hm : (v.makeFolders (.ofString settings.cachePath)).2 = none
      · have hsites : familySite? settings parts = (families settings).sites v.free := by
          rw [if_pos hm] at hparts
          simp only [sites, hparts, Except.toOption, Option.getD_some]
        exact ⟨fun _ _ hs => hsites ▸ hs, fun _ => hsites⟩
      · rw [if_neg hm] at hparts
        obtain rfl := split_zero hparts
        refine ⟨fun f site hs => ?_, fun hmade => absurd (hmade settings rfl) hm⟩
        cases f with
        | general => cases hs
        | distinct => cases hs
        | permanent => exact hs

theorem Family.mem_all (f : Family) : f ∈ Family.all := by
  cases f <;> decide

theorem Family.exists_iff {P : Family → Prop} :
    (∃ f, P f) ↔ P .general ∨ P .distinct ∨ P .permanent := by
  constructor
  · rintro ⟨f, hf⟩
    cases f with
    | general => exact .inl hf
    | distinct => exact .inr (.inl hf)
    | permanent => exact .inr (.inr hf)
  · rintro (hf | hf | hf) <;> exact ⟨_, hf⟩

theorem Family.isName_name (f : Family) : Path.IsName f.name := by
  cases f <;> exact ⟨by decide, by decide⟩

theorem Family.name_injective {f g : Family} (h : f.name = g.name) : f = g := by
  cases f <;> cases g <;> first | rfl | exact absurd h (by decide)

theorem Site.apart_of_join {base : Path} {name name' : String} (hn : Path.IsName name)
    (hn' : Path.IsName name') (hne : name ≠ name') (version : UInt32) (capacity capacity' : Nat) :
    Site.Apart ⟨base.join name, version, capacity⟩ ⟨base.join name', version, capacity'⟩ where
  disjoint := by
    intro q hq hq'
    simp only [Path.goal_join base hn, Path.goal_join base hn'] at hq hq'
    obtain ⟨below, rfl⟩ := hq
    rw [List.append_assoc, List.prefix_append_right_inj, List.singleton_append,
      List.cons_prefix_cons] at hq'
    exact hne hq'.1.symm
  shared := by
    have hroot : (base.join name).goal <+: (homeOf (base.join name) version).goal := by
      rw [goal_homeOf]
      exact List.prefix_append _ _
    intro q hq
    simp only [home, mem_folders, mem_way_homeOf, Path.mem_way_join, goal_folder,
      goal_staging] at hq ⊢
    rcases hq with ((hq | rfl) | rfl) | rfl | rfl | rfl
    · exact .inl (.inl (.inl (.inl hq)))
    · exact .inr (List.prefix_refl _)
    · exact .inr hroot
    · exact .inr (hroot.trans (List.prefix_append _ _))
    · exact .inr (hroot.trans (List.prefix_append _ _))
    · exact .inr (hroot.trans (List.prefix_append _ _))
  way := by
    intro q hq
    simp only [home, mem_folders, mem_way_homeOf, Path.mem_way_join] at hq ⊢
    exact .inl (.inl (.inl hq))

/-- The roots of two stores are different names in one folder. -/
def Site.Beside (site other : Site) : Prop :=
  ∃ (base : Path) (name name' : String), Path.IsName name ∧ Path.IsName name' ∧ name ≠ name' ∧
    site.root = base.join name ∧ other.root = base.join name' ∧ site.version = other.version

namespace Site.Beside

variable {site other : Site} {s : Store} {v w : Volume} {good : Digest → List UInt8 → Prop}

theorem apart (h : site.Beside other) : site.Apart other := by
  obtain ⟨base, name, name', hn, hn', hne, hroot, hroot', hversion⟩ := h
  obtain ⟨root, version, capacity⟩ := site
  obtain ⟨root', version', capacity'⟩ := other
  cases hroot
  cases hroot'
  cases hversion
  exact apart_of_join hn hn' hne version capacity capacity'

/-- A store is not touched by one that fails to open beside it. -/
theorem held_of_open?_none (h : site.Beside other) (hh : site.Held good s v)
    (hr : Roomy other.home)
    (ho : Store.open? v other.root other.version other.capacity = (none, w)) :
    site.Held good s w := by
  have ha := h.apart
  have hk := Store.kept_open? v other.root other.version other.capacity
  rw [ho] at hk
  have hout : other.Outside v w := fun q hq => hk.outside hq
  have hstanding := hh.standing
  have hway : ∀ q ∈ other.root.way, w.node? q = some .folder := by
    obtain ⟨base, name, name', hn, hn', -, -, hroot, -⟩ := h
    refine Store.way_of_open?_none hr (hroot ▸ Path.getLast?_join base name') hn' ?_ ho
    exact fun q hq => hstanding q (ha.way q hq)
  refine ha.held hh hout fun q hq => ?_
  by_cases hp : site.root.goal <+: q
  · rw [ha.node? hstanding hout hp, hstanding q hq]
  · -- the two stores have the way to their roots in common
    have hq : q ∈ site.root.way := (mem_folders_homeOf hp).mp hq
    obtain ⟨base, name, name', -, -, -, hroot, hroot', -⟩ := h
    rw [hroot, Path.mem_way_join] at hq
    exact hway q (by rwa [hroot', Path.mem_way_join])

end Site.Beside

namespace Archive

variable {sites : Family → Option Site} {good : Family → Digest → List UInt8 → Prop}

theorem get_openAll (sites : Family → Option Site) {fs : List Family} {f : Family} (hf : f ∉ fs)
    (a : Archive) (v : Volume) : (openAll sites fs (a, v)).1.get f = a.get f := by
  induction fs generalizing a v with
  | nil => rfl
  | cons g fs ih =>
    simp only [List.mem_cons, not_or] at hf
    rw [openAll, ih hf.2, get_set, if_neg hf.1]

/-- The sites of the stores that are open. -/
def opened (a : Archive) (sites : Family → Option Site) : Family → Option Site :=
  fun f => if (a.get f).isSome then sites f else none

theorem opened_eq_some {a : Archive} {f : Family} {site : Site} :
    a.opened sites f = some site ↔ (a.get f).isSome = true ∧ sites f = some site := by
  rw [opened, Option.ite_none_right_eq_some]

/-- Different families have their roots beside each other. -/
def Beside (sites : Family → Option Site) : Prop :=
  ∀ f g, f ≠ g → ∀ site other, sites f = some site → sites g = some other → site.Beside other

/-- Some stores were opened, as far as they could be, and others are still to be opened. -/
structure Opening (sites : Family → Option Site) (good : Family → Digest → List UInt8 → Prop)
    (fs : List Family) (a : Archive) (v : Volume) : Prop where
  rooted : v.Rooted
  held : ∀ f, f ∉ fs → ∀ s, a.get f = some s →
    ∃ site, sites f = some site ∧ site.Held (good f) s v
  clean : ∀ f ∈ fs, ∀ site, sites f = some site → site.Clean (good f) v

namespace Opening

variable {f : Family} {fs : List Family} {a : Archive} {v w : Volume} {site : Site}

/-- A family without a site is passed over. -/
theorem skip (h : Opening sites good (f :: fs) a v) : Opening sites good fs (a.set f none) v where
  rooted := h.rooted
  held := by
    intro g hg s hs
    rw [get_set] at hs
    split at hs
    · cases hs
    · rename_i hne
      exact h.held g (by simp [hne, hg]) s hs
  clean := fun g hg => h.clean g (List.mem_cons_of_mem f hg)

/-- A store that opens holds what it found, and the others are not touched. -/
theorem add (hb : Beside sites) (h : Opening sites good (f :: fs) a v)
    (hsite : sites f = some site) (hr : Roomy site.home) {s : Store}
    (ho : Store.open? v site.root site.version site.capacity = (some s, w)) :
    Opening sites good fs (a.set f (some s)) w ∧ site.Outside v w ∧ Standing site.home w := by
  have hk := Store.kept_open? v site.root site.version site.capacity
  rw [ho] at hk
  have hheld : site.Held (good f) s w :=
    (h.clean f List.mem_cons_self site hsite).opened hr h.rooted ho
  have hout : site.Outside v w := fun q hq => hk.outside hq
  refine ⟨⟨hk.rooted h.rooted, ?_, ?_⟩, hout, hheld.standing⟩
  · intro g hg s' hs'
    rw [get_set] at hs'
    split at hs'
    · rename_i hgf
      cases hs'
      exact hgf ▸ ⟨site, hsite, hheld⟩
    · rename_i hne
      obtain ⟨site', hsite', hh⟩ := h.held g (by simp [hne, hg]) s' hs'
      have ha := (hb g f hne site' site hsite' hsite).apart
      exact ⟨site', hsite', ha.held hh hout (ha.standing hh.standing hout hheld.standing)⟩
  · intro g hg site' hsite'
    exact (h.clean g (List.mem_cons_of_mem f hg) site' hsite').of_files fun hf => hk.files hf

/-- Nor are they by a store that does not open. -/
theorem lose (hb : Beside sites) (h : Opening sites good (f :: fs) a v)
    (hsite : sites f = some site) (hr : Roomy site.home)
    (ho : Store.open? v site.root site.version site.capacity = (none, w)) :
    Opening sites good fs (a.set f none) w := by
  have hk := Store.kept_open? v site.root site.version site.capacity
  rw [ho] at hk
  refine ⟨hk.rooted h.rooted, ?_, ?_⟩
  · intro g hg s' hs'
    rw [get_set] at hs'
    split at hs'
    · cases hs'
    · rename_i hne
      obtain ⟨site', hsite', hh⟩ := h.held g (by simp [hne, hg]) s' hs'
      exact ⟨site', hsite', (hb g f hne site' site hsite' hsite).held_of_open?_none hh hr ho⟩
  · intro g hg site' hsite'
    exact (h.clean g (List.mem_cons_of_mem f hg) site' hsite').of_files fun hf => hk.files hf

/-- All stores that open hold what they found. -/
theorem openAll (hb : Beside sites) (hr : ∀ f site, sites f = some site → Roomy site.home)
    (h : Opening sites good fs a v) :
    Opening sites good [] (TierCache.openAll sites fs (a, v)).1
      (TierCache.openAll sites fs (a, v)).2 := by
  induction fs generalizing a v with
  | nil => exact h
  | cons f fs ih =>
    rw [TierCache.openAll]
    cases hsite : sites f with
    | none => exact ih h.skip
    | some site =>
      simp only [openSite]
      cases ho : Store.open? v site.root site.version site.capacity with
      | mk slot w =>
        cases slot with
        | none => exact ih (h.lose hb hsite (hr f site hsite) ho)
        | some s => exact ih (h.add hb hsite (hr f site hsite) ho).1

/-- Where the folders of all stores stand they all open. -/
theorem isSome_openAll (hb : Beside sites) (hr : ∀ f site, sites f = some site → Roomy site.home)
    (hfs : fs.Nodup) (h : Opening sites good fs a v)
    (ho : ∀ f ∈ fs, ∀ site, sites f = some site → Standing site.home v ∧ site.capacity ≠ 0) :
    ∀ f ∈ fs, ∀ site, sites f = some site →
      ((TierCache.openAll sites fs (a, v)).1.get f).isSome := by
  induction fs generalizing a v with
  | nil => exact fun f hf => absurd hf List.not_mem_nil
  | cons f fs ih =>
    obtain ⟨hf, hfs⟩ := List.nodup_cons.mp hfs
    rw [TierCache.openAll, List.forall_mem_cons]
    rw [List.forall_mem_cons] at ho
    cases hsite : sites f with
    | none => exact ⟨nofun, ih hfs h.skip ho.2⟩
    | some site =>
      have hroomy := hr f site hsite
      obtain ⟨hs, hc⟩ := ho.1 site hsite
      obtain ⟨s, w, hw⟩ := open_of_standing hroomy hs (Path.refusal_of_join hroomy.refusal) hc
      obtain ⟨hadd, hout, hstand⟩ := h.add hb hsite hroomy hw
      simp only [openSite, hw]
      refine ⟨fun _ _ => ?_, ih hfs hadd fun g hg site' hsite' => ?_⟩
      · rw [get_openAll sites hf, get_set, if_pos rfl]
        rfl
      · obtain ⟨hs, hc⟩ := ho.2 g hg site' hsite'
        have hne : g ≠ f := by
          rintro rfl
          exact hf hg
        exact ⟨(hb g f hne site' site hsite' hsite).apart.standing hs hout hstand, hc⟩

/-- What was opened is stocked. -/
theorem stocked (h : Opening sites good [] a v) {sites' : Family → Option Site}
    (hs : ∀ f, (a.get f).isSome → sites' f = sites f)
    (hf : ∀ f site, sites' f = some site → (a.get f).isSome) : Stocked sites' good a v where
  rooted := h.rooted
  held := fun f s hget =>
    let ⟨site, hsite, hh⟩ := h.held f List.not_mem_nil s hget
    ⟨site, (hs f (by rw [hget]; rfl)).trans hsite, hh⟩
  full := fun f site hsite => Option.isSome_iff_exists.mp (hf f site hsite)

end Opening

theorem free_openAll (sites : Family → Option Site) (fs : List Family) (a : Archive) (v : Volume) :
    (openAll sites fs (a, v)).2.free = v.free := by
  induction fs generalizing a v with
  | nil => rfl
  | cons f fs ih =>
    rw [TierCache.openAll, ih]
    cases sites f with
    | none => rfl
    | some site => exact (Store.kept_open? v site.root site.version site.capacity).medium.2

end Archive

namespace Layout

variable {l : Layout} {v w : Volume} {a a' : Archive} {site : Site}
variable {good : Family → Digest → List UInt8 → Prop}

theorem site?_eq_some {root : Path} {version : UInt32} {capacity : Nat}
    (h : site? root version capacity = some site) : site = ⟨root, version, capacity⟩ := by
  rw [site?] at h
  split at h
  · cases h
  · exact (Option.some.inj h).symm

theorem root_of_families {settings : Settings} {free : Option Nat} {f : Family}
    (h : (families settings).sites free f = some site) : ∃ capacity,
      site = ⟨(Path.ofString settings.cachePath).join f.name, settings.formatVersion, capacity⟩ :=
  ⟨_, site?_eq_some h⟩

theorem beside (l : Layout) (free : Option Nat) : Archive.Beside (l.sites free) := by
  intro f g hne site other hf hg
  cases l with
  | absent => cases hf
  | single root version capacity =>
    simp only [sites, Option.ite_none_right_eq_some] at hf hg
    exact absurd (hf.1.trans hg.1.symm) hne
  | families settings =>
    obtain ⟨capacity, rfl⟩ := root_of_families hf
    obtain ⟨capacity', rfl⟩ := root_of_families hg
    exact ⟨_, f.name, g.name, f.isName_name, g.isName_name, fun h => hne (Family.name_injective h),
      rfl, rfl, rfl⟩

theorem apart (l : Layout) (free : Option Nat) : Archive.Apart (l.sites free) :=
  fun f g hne site other hf hg => (l.beside free f g hne site other hf hg).apart

/-- A volume on which the stores can be opened, and find no records. -/
structure Usable (l : Layout) (v : Volume) : Prop where
  rooted : v.Rooted
  roomy : ∀ f site, l.sites v.free f = some site → Roomy site.home
  empty : ∀ f site, l.sites v.free f = some site → ∀ d r,
    v.fileAt? (recordPlace site.home d r) = none
  made : ∀ settings, l = .families settings →
    (v.makeFolders (.ofString settings.cachePath)).2 = none
  opens : ∀ a w, l.start v = .ok (a, w) → ∀ f site, l.sites v.free f = some site →
    (a.get f).isSome

/-- The stores of a layout are opened in a row once the folder of the cache was made. -/
theorem start_opening (good : Family → Digest → List UInt8 → Prop)
    (h : l.start v = .ok (a, w)) (hv : v.Rooted)
    (hc : ∀ f site, l.sites v.free f = some site → site.Clean (good f) v) :
    ∃ sites u, (a, w) = openAll sites Family.all (.disabled, u) ∧
      Archive.Opening sites good Family.all .disabled u ∧ w.free = v.free ∧
      (∀ q, v.node? q = some .folder → u.node? q = some .folder) ∧
      (∀ f site, sites f = some site → l.sites v.free f = some site) ∧
      ((∀ settings, l = .families settings →
        (v.makeFolders (.ofString settings.cachePath)).2 = none) → sites = l.sites v.free) := by
  obtain ⟨sites, p, hp, hsub, hmade⟩ := start_eq h
  have hk := Volume.makeFolders_keeps v p
  have hfree := Archive.free_openAll sites Family.all .disabled (v.makeFolders p).1
  rw [← hp] at hfree
  refine ⟨sites, _, hp,
    ⟨hv.makeFolders p, fun f hf => absurd f.mem_all hf, fun f _ site hsite => ?_⟩,
    hfree.trans (Volume.medium_makeFolders v p).2, hk.2.2, hsub, hmade⟩
  refine (hc f site (hsub f site hsite)).of_files fun {q bytes time} hf => ⟨time, ?_⟩
  rwa [hk.2.1] at hf

/-- The stores that open hold the records that were found. -/
theorem start_stocked (good : Family → Digest → List UInt8 → Prop)
    (h : l.start v = .ok (a, w)) (hv : v.Rooted)
    (hr : ∀ f site, l.sites v.free f = some site → Roomy site.home)
    (hc : ∀ f site, l.sites v.free f = some site → site.Clean (good f) v) :
    Archive.Stocked (a.opened (l.sites v.free)) good a w ∧ w.free = v.free := by
  obtain ⟨sites, u, hp, hopening, hfree, -, hsub, -⟩ := start_opening good h hv hc
  have hb : Archive.Beside sites := fun f g hne site other hf hg =>
    l.beside v.free f g hne site other (hsub f site hf) (hsub g other hg)
  have hopened := hopening.openAll hb fun f site hsite => hr f site (hsub f site hsite)
  rw [← hp] at hopened
  refine ⟨hopened.stocked (fun f hf => ?_) fun f site hsite => (Archive.opened_eq_some.mp hsite).1,
    hfree⟩
  obtain ⟨s, hs⟩ := Option.isSome_iff_exists.mp hf
  obtain ⟨site, hsite, -⟩ := hopened.held f List.not_mem_nil s hs
  rw [hsite]
  exact Archive.opened_eq_some.mpr ⟨hf, hsub f site hsite⟩

theorem Usable.started (hu : l.Usable v) (h : l.start v = .ok (a, w))
    (good : Family → Digest → List UInt8 → Prop) :
    Archive.Stocked (l.sites v.free) good a w ∧ w.free = v.free := by
  obtain ⟨hs, hfree⟩ := start_stocked good h hu.rooted hu.roomy
    fun f site hsite d r bytes time hf => by
      rw [hu.empty f site hsite] at hf
      cases hf
  have hall : a.opened (l.sites v.free) = l.sites v.free := by
    funext f
    rw [Archive.opened]
    split
    · rfl
    · rename_i hn
      rw [eq_comm, Option.eq_none_iff_forall_ne_some]
      exact fun site hsite => hn (hu.opens a w h f site hsite)
  exact ⟨hall ▸ hs, hfree⟩

/-- Stores that are open can be opened again, and hold the same records or fewer. -/
theorem restarted (hs : Archive.Stocked (l.sites v.free) good a v)
    (h : l.start v = .ok (a', w)) :
    Archive.Stocked (l.sites v.free) good a' w ∧ w.free = v.free := by
  have hr : ∀ f site, l.sites v.free f = some site → Roomy site.home := by
    intro f site hsite
    obtain ⟨s, -, hh⟩ := hs.held_of_site hsite
    exact hh.roomy
  obtain ⟨sites, u, hp, hopening, hfree, hfolder, hsub, hmade⟩ := start_opening good h hs.rooted
    fun f site hsite => by
      obtain ⟨s, -, hh⟩ := hs.held_of_site hsite
      exact hh.clean
  have hsites : sites = l.sites v.free := by
    by_cases hn : ∀ f, l.sites v.free f = none
    · funext f
      rw [hn f, Option.eq_none_iff_forall_ne_some]
      intro site hsite
      have := hsub f site hsite
      rw [hn f] at this
      cases this
    · -- the folder of the cache stands on the way to any of its stores
      refine hmade ?_
      rintro settings rfl
      obtain ⟨f, hf⟩ := Classical.not_forall.mp hn
      obtain ⟨site, hsite⟩ := Option.ne_none_iff_exists'.mp hf
      obtain ⟨s, -, hh⟩ := hs.held_of_site hsite
      obtain ⟨capacity, rfl⟩ := root_of_families hsite
      have href := Path.refusal_of_join (Path.refusal_of_join hh.roomy.refusal)
      have hway : ∀ q, q ∈ (Path.ofString settings.cachePath).way ∨
          q = (Path.ofString settings.cachePath).goal → v.node? q = some .folder := by
        intro q hq
        refine hh.standing q (mem_folders.mpr (.inl (.inl ?_)))
        exact mem_way_homeOf.mpr (.inl (Path.mem_way_join.mpr hq))
      rw [Volume.makeFolders_of_isFolder (Volume.isFolder_iff.mpr
        ⟨⟨href, fun q hq => hway q (.inl hq)⟩, hway _ (.inr rfl)⟩)]
  subst hsites
  have hopened := hopening.openAll (l.beside v.free) hr
  have hall := hopening.isSome_openAll (l.beside v.free) hr (by decide) fun f _ site hsite => by
    obtain ⟨s, -, hh⟩ := hs.held_of_site hsite
    exact ⟨hh.standing.mono hfolder, hh.positive⟩
  rw [← hp] at hopened hall
  exact ⟨hopened.stocked (fun _ _ => rfl) fun f => hall f f.mem_all, hfree⟩

theorem usable_store : (single ⟨["store"]⟩ 1 100).Usable Volume.empty where
  rooted := rooted_empty
  roomy := by
    intro f site hsite
    simp only [sites, Option.ite_none_right_eq_some] at hsite
    obtain rfl := site?_eq_some hsite.2
    exact roomy_store
  empty := by
    intro f site _ d r
    rw [Volume.fileAt?, node?_empty (recordPlace_ne_nil _ d r)]
  made := by
    intro settings h
    cases h
  opens := by
    intro a w h f site hsite
    obtain ⟨s, u, ho⟩ := open_store
    simp only [start, ho, Except.ok.injEq, Prod.mk.injEq] at h
    simp only [sites, Option.ite_none_right_eq_some] at hsite
    rw [← h.1, hsite.1]
    rfl

end Layout

end TierCache
