import TierCache.Proofs.Cache.Work

/-!
# Sites without a store

Where a store of a cache does not open, either a file bars the way to its home or the home has no
record, and none of the other stores changes that. So a store that opens there later is empty.
-/
namespace TierCache

open Disk

variable {site other : Site} {v w : Volume} {f : Family}

namespace Site

/-- A file is in the place of a folder that the store needs. -/
def Barred (site : Site) (v : Volume) : Prop := ∃ q ∈ folders site.home, (v.fileAt? q).isSome

/-- A store that opens there finds no record. -/
def Vacant (site : Site) (v : Volume) : Prop :=
  site.Barred v ∨ site.Clean (fun _ _ => False) v

theorem Barred.of_files (h : site.Barred v) (hf : ∀ q, w.fileAt? q = v.fileAt? q) :
    site.Barred w := by
  obtain ⟨q, hq, hv⟩ := h
  exact ⟨q, hq, by rwa [hf]⟩

theorem Vacant.makeFolders (h : site.Vacant v) (p : Path) : site.Vacant (v.makeFolders p).1 := by
  have hf := (Volume.makeFolders_keeps v p).2.1
  exact h.imp (·.of_files hf) fun hc => hc.of_files fun {q bytes time} hw => ⟨time, hf q ▸ hw⟩

/-- Where there is no root there are no records. -/
theorem clean_of_none (hv : v.Rooted) (hn : v.node? site.root.goal = none) :
    site.Clean (fun _ _ => False) v := by
  intro d r bytes time hf
  obtain ⟨below, hb⟩ := site.goal_home.trans (prefix_recordPlace site.home d r)
  rw [← hb, Volume.fileAt?, hv.node?_append hn below] at hf
  cases hf

/-- A store that does not open leaves its site vacant. -/
theorem vacant_of_open?_none (hr : Roomy site.home) (hc : site.capacity ≠ 0) (hv : v.Rooted)
    (ho : Store.open? v site.root site.version site.capacity = (none, w)) : site.Vacant w := by
  rcases barred_of_open?_none hr hc ho with ⟨q, hq, hf⟩ | hn
  · obtain ⟨x, hx, he⟩ := open_barred hr site.capacity hq hf
    rw [ho] at hx
    cases hx
    exact .inl ⟨q, hq, he ▸ hf⟩
  · have hk := Store.kept_open? v site.root site.version site.capacity
    rw [ho] at hk
    exact .inr ((clean_of_none hv hn).of_files hk.files)

/-- Opening a neighbour does not remove what is in the way. -/
theorem Apart.barred (ha : site.Apart other) (hr : Roomy other.home) (h : site.Barred v) :
    site.Barred (Store.open? v other.root other.version other.capacity).2 := by
  obtain ⟨q, hq, hf⟩ := h
  refine ⟨q, hq, ?_⟩
  by_cases hp : other.root.goal <+: q
  · -- the neighbour needs that folder too
    have hother := (ha.shared q hq).resolve_right fun hs => ha.disjoint q hs hp
    obtain ⟨w, hw, he⟩ := open_barred hr other.capacity hother hf
    rw [hw]
    exact he ▸ hf
  · rcases (Store.kept_open? v other.root other.version other.capacity).outside hp with hn | ⟨hn, -⟩
    · rwa [Volume.fileAt?, hn]
    · rw [Volume.fileAt?, hn] at hf
      cases hf

theorem Apart.vacant (ha : site.Apart other) (hr : Roomy other.home) (h : site.Vacant v) :
    site.Vacant (Store.open? v other.root other.version other.capacity).2 :=
  h.imp (ha.barred hr) (·.of_files (Store.kept_open? v _ _ _).files)

end Site

namespace Archive

variable {sites : Family → Option Site} {fs : List Family} {a : Archive}

/-- A family has its own site, and the other families have theirs apart from it. -/
structure Lone (sites : Family → Option Site) (f : Family) (site : Site) : Prop where
  roomy : ∀ g other, sites g = some other → Roomy other.home
  own : ∀ other, sites f = some other → other = site
  apart : ∀ g other, g ≠ f → sites g = some other → site.Apart other

/-- Whatever is opened, a site keeps what bars it, and its family stays without a store. -/
theorem Lone.get_of_barred (hl : Lone sites f site) (fs : List Family) (hb : site.Barred v)
    (ha : a.get f = none) : (openAll sites fs (a, v)).1.get f = none := by
  induction fs generalizing a v with
  | nil => exact ha
  | cons g fs ih =>
    rw [openAll]
    cases hsite : sites g with
    | none =>
      refine ih hb ?_
      rw [get_set, ha, ite_self]
    | some other =>
      by_cases hg : g = f
      · subst hg
        obtain rfl := hl.own other hsite
        obtain ⟨q, hq, hf⟩ := hb
        obtain ⟨w, hw, he⟩ := open_barred (hl.roomy g other hsite) other.capacity hq hf
        simp only [openSite, hw]
        refine ih ⟨q, hq, he ▸ hf⟩ ?_
        rw [get_set, if_pos rfl]
      · refine ih ((hl.apart g other hg hsite).barred (hl.roomy g other hsite) hb) ?_
        rw [get_set, if_neg (Ne.symm hg), ha]

/-- A site is open or vacant once its family had its turn, if it was not vacant before. -/
theorem Lone.isSome_or_vacant (hl : Lone sites f site) (a : Archive) (hfs : fs.Nodup)
    (hv : v.Rooted) (hc : site.capacity ≠ 0) (h : site.Vacant v ∨ f ∈ fs ∧ (sites f).isSome) :
    ((openAll sites fs (a, v)).1.get f).isSome ∨ site.Vacant (openAll sites fs (a, v)).2 := by
  induction fs generalizing a v with
  | nil => exact .inr (h.resolve_right fun h => absurd h.1 List.not_mem_nil)
  | cons g fs ih =>
    obtain ⟨hg, hfs⟩ := List.nodup_cons.mp hfs
    rw [openAll]
    by_cases hgf : g = f
    · subst hgf
      cases hsite : sites g with
      | none => exact ih _ hfs hv (.inl (h.resolve_right fun h => by simp [hsite] at h))
      | some other =>
        obtain rfl := hl.own other hsite
        have hk := Store.kept_open? v other.root other.version other.capacity
        simp only [openSite]
        cases ho : Store.open? v other.root other.version other.capacity with
        | mk slot w =>
          rw [ho] at hk
          cases slot with
          | none =>
            exact ih _ hfs (hk.rooted hv)
              (.inl (Site.vacant_of_open?_none (hl.roomy g other hsite) hc hv ho))
          | some s =>
            refine .inl ?_
            rw [get_openAll sites hg, get_set, if_pos rfl]
            rfl
    · have hrest : f ∈ g :: fs ∧ (sites f).isSome → f ∈ fs ∧ (sites f).isSome :=
        fun h => ⟨(List.mem_cons.mp h.1).resolve_left (Ne.symm hgf), h.2⟩
      cases hsite : sites g with
      | none => exact ih _ hfs hv (h.imp_right hrest)
      | some other =>
        have hk := Store.kept_open? v other.root other.version other.capacity
        exact ih _ hfs (hk.rooted hv) (h.imp
          (fun h => (hl.apart g other hgf hsite).vacant (hl.roomy g other hsite) h) hrest)

end Archive

namespace Layout

variable {l : Layout} {a : Archive}

theorem capacity_ne_zero {free : Option Nat} (h : l.sites free f = some site) :
    site.capacity ≠ 0 := by
  have one : ∀ {root version capacity}, site? root version capacity = some site →
      site.capacity ≠ 0 := by
    intro root version capacity h
    rw [site?] at h
    split at h
    · cases h
    · rename_i hc
      cases h
      exact hc
  cases l with
  | absent => cases h
  | single root version capacity =>
    simp only [sites, Option.ite_none_right_eq_some] at h
    exact one h.2
  | families settings => exact one h

/-- The sites that are tried each have one family. -/
theorem lone {sites : Family → Option Site} {free : Option Nat}
    (hr : ∀ f site, l.sites free f = some site → Roomy site.home)
    (hsub : ∀ f site, sites f = some site → l.sites free f = some site)
    (h : l.sites free f = some site) : Archive.Lone sites f site where
  roomy := fun g other hg => hr g other (hsub g other hg)
  own := fun other ho => Option.some.inj ((hsub f other ho).symm.trans h)
  apart := fun g other hne hg => l.apart free f g (Ne.symm hne) site other h (hsub g other hg)

/-- Where the folder of the cache cannot be made, all sites are vacant. -/
theorem vacant_of_makeFolders {settings : Settings} {free : Option Nat} (hv : v.Rooted)
    (hr : Roomy site.home) (h : (families settings).sites free f = some site)
    (hm : (v.makeFolders (.ofString settings.cachePath)).2 ≠ none) : site.Vacant v := by
  obtain ⟨capacity, rfl⟩ := root_of_families h
  have hrefusal := Path.refusal_of_join (Path.refusal_of_join hr.refusal)
  rcases Volume.file_of_makeFolders hrefusal
    (Path.longName_of_join (Path.longName_of_join hr.named)) hm with ⟨q, hq, hf⟩ | hn
  · refine .inl ⟨q, mem_folders.mpr (.inl (.inl (mem_way_homeOf.mpr (.inl ?_)))), hf⟩
    exact Path.mem_way_join.mpr hq
  · refine .inr (Site.clean_of_none hv ?_)
    rw [Path.goal_join _ f.isName_name]
    exact hv.node?_append hn _

/-- Opening a layout leaves the sites vacant where no store is open. -/
theorem start_vacant {w : Volume} (h : l.start v = .ok (a, w)) (hv : v.Rooted)
    (hr : ∀ f site, l.sites v.free f = some site → Roomy site.home)
    (hsite : l.sites v.free f = some site) : (a.get f).isSome ∨ site.Vacant w := by
  obtain ⟨sites, p, hp, hsub, hmade⟩ := start_eq h
  suffices h : site.Vacant (v.makeFolders p).1 ∨ f ∈ Family.all ∧ (sites f).isSome by
    have hall := (lone hr hsub hsite).isSome_or_vacant .disabled (by decide) (hv.makeFolders p)
      (capacity_ne_zero hsite) h
    rwa [← hp] at hall
  cases hs : sites f with
  | some other => exact .inr ⟨f.mem_all, rfl⟩
  | none =>
    by_cases hm : ∀ settings, l = .families settings →
        (v.makeFolders (.ofString settings.cachePath)).2 = none
    · rw [hmade hm, hsite] at hs
      cases hs
    · obtain ⟨settings, hsettings⟩ := Classical.not_forall.mp hm
      obtain ⟨rfl, herr⟩ := Classical.not_imp.mp hsettings
      exact .inl ((vacant_of_makeFolders hv (hr f site hsite) hsite herr).makeFolders p)

/-- No store opens where it is barred. -/
theorem start_barred {w : Volume} (h : l.start v = .ok (a, w))
    (hr : ∀ f site, l.sites v.free f = some site → Roomy site.home)
    (hsite : l.sites v.free f = some site) (hb : site.Barred v) : a.get f = none := by
  obtain ⟨sites, p, hp, hsub, -⟩ := start_eq h
  have hnone := (lone hr hsub hsite).get_of_barred Family.all
    (hb.of_files (Volume.makeFolders_keeps v p).2.1) (a := .disabled) (by cases f <;> rfl)
  rwa [← hp] at hnone

/-- Where a site is vacant nothing is read from a store that is opened. -/
theorem get_of_vacant {w : Volume} (h : l.start v = .ok (a, w)) (hv : v.Rooted)
    (hr : ∀ f site, l.sites v.free f = some site → Roomy site.home)
    (hs : ∀ site, l.sites v.free f = some site → site.Vacant v) (d : Digest) :
    ((a.get f).get w d).1 = none := by
  cases hget : a.get f with
  | none => rfl
  | some s =>
    have hclean : ∀ g site, l.sites v.free g = some site → site.Clean (fun _ _ => g ≠ f) v := by
      rintro g site hsite d r bytes time hf rfl
      rcases hs site hsite with hb | hc
      · rw [start_barred h hr hsite hb] at hget
        cases hget
      · exact hc d r bytes time hf
    obtain ⟨hstocked, -⟩ := start_stocked (fun g _ _ => g ≠ f) h hv hr hclean
    rw [← hget]
    exact hstocked.get_none (fun _ _ hne => hne rfl) d

end Layout

/-- A site without a store stays vacant. -/
theorem Archive.Worked.vacant {a b : Archive} {sites : Family → Option Site}
    (hap : Archive.Apart sites) (h : a.Worked v b w)
    (hs : Archive.Stocked sites (fun _ _ _ => True) a v)
    (hd : ∀ g other, sites g = some other → site.Apart other) (hv : site.Vacant v) :
    site.Vacant w := by
  rcases hv with ⟨q, hq, hf⟩ | hc
  · refine .inl ⟨q, hq, ?_⟩
    rw [Volume.fileAt?, h.node?_eq hap hs fun g other hother hp => ?_]
    · exact hf
    · -- the folders of the open stores stand
      obtain ⟨s, -, hh⟩ := hs.held_of_site hother
      have ha := hd g other hother
      have hfolder := hh.standing q ((ha.shared q hq).resolve_right fun hs => ha.disjoint q hs hp)
      rw [Volume.fileAt?_of_folder hfolder] at hf
      cases hf
  · refine .inr fun d r bytes time hf => hc d r bytes time ?_
    rwa [Volume.fileAt?, h.node?_eq hap hs fun g other hother => ?_] at hf
    exact (hd g other hother).disjoint _ (site.goal_home.trans (prefix_recordPlace site.home d r))

/-- The stores of a layout that are open hold records, and its other sites are vacant. -/
structure Layout.Running (l : Layout) (sites : Family → Option Site) (a : Archive) (v : Volume) :
    Prop where
  stocked : Archive.Stocked sites (fun _ _ _ => True) a v
  subset : ∀ f site, sites f = some site → l.sites v.free f = some site
  vacant : ∀ f site, l.sites v.free f = some site → sites f = some site ∨ site.Vacant v

namespace Layout.Running

variable {l : Layout} {a b : Archive} {sites : Family → Option Site}

theorem of_start (h : l.start v = .ok (a, w)) (hv : v.Rooted)
    (hr : ∀ f site, l.sites v.free f = some site → Roomy site.home) :
    l.Running (a.opened (l.sites v.free)) a w ∧ w.free = v.free := by
  obtain ⟨hs, hfree⟩ := start_stocked (fun _ _ _ => True) h hv hr
    fun _ _ _ _ _ _ _ _ => trivial
  refine ⟨⟨hs, fun f site hsite => ?_, fun f site hsite => ?_⟩, hfree⟩
  · rw [hfree]
    exact (Archive.opened_eq_some.mp hsite).2
  · rw [hfree] at hsite
    exact (start_vacant h hv hr hsite).imp_left fun hf => Archive.opened_eq_some.mpr ⟨hf, hsite⟩

theorem apart (h : l.Running sites a v) : Archive.Apart sites := fun f g hne site other hf hg =>
  l.apart v.free f g hne site other (h.subset f site hf) (h.subset g other hg)

theorem worked (h : l.Running sites a v) (hw : a.Worked v b w) : l.Running sites b w := by
  refine ⟨hw.stocked h.apart h.stocked, fun f site hsite => ?_, fun f site hsite => ?_⟩
  · rw [hw.free_eq]
    exact h.subset f site hsite
  · rw [hw.free_eq] at hsite
    rcases h.vacant f site hsite with hs | hv
    · exact .inl hs
    · cases hs : sites f with
      | some other => exact .inl ((h.subset f other hs).symm.trans hsite)
      | none =>
        refine .inr (hw.vacant h.apart h.stocked (fun g other hother => ?_) hv)
        refine l.apart v.free f g ?_ site other hsite (h.subset g other hother)
        rintro rfl
        rw [hs] at hother
        cases hother

/-- Once the open stores are empty all sites are vacant. -/
theorem vacated (h : l.Running sites a v)
    (he : Archive.Stocked sites (fun _ _ _ => False) a v) (f : Family) (site : Site)
    (hsite : l.sites v.free f = some site) : site.Vacant v := by
  rcases h.vacant f site hsite with hs | hv
  · obtain ⟨s, -, hh⟩ := he.held_of_site hs
    exact .inr hh.clean
  · exact hv

end Layout.Running

end TierCache
