import TierCache.Proofs.Disk.Shelf

/-!
# What gives way

A shelf above its capacity gives up the least recently used of the records that may be evicted, one
after the other, for as long as it is above the capacity and has any of them.
-/
namespace TierCache.Disk.Shelf

variable {sh : Shelf} {e : Row} {d : Digest}

theorem mem_victims (h : d ∈ sh.victims) :
    ∃ e ∈ sh.rows, e.retention = .normal ∧ e.digest = d := by
  obtain ⟨gone, rest, hev, hv, -⟩ := victims_eq (sh.size - sh.capacity) sh.evictable
  rw [victims, hv] at h
  obtain ⟨e, he, rfl⟩ := List.mem_map.mp h
  have hmem : e ∈ sh.evictable := by
    rw [hev]
    exact List.mem_append_left rest he
  obtain ⟨hrow, hr⟩ := List.mem_filter.mp hmem
  exact ⟨e, hrow, of_decide_eq_true hr, rfl⟩

/-- A retained record never gives way. -/
theorem mem_shrink_of_always (hd : sh.Distinct) (he : e ∈ sh.rows) (hr : e.retention = .always) :
    e ∈ sh.shrink.rows := by
  refine mem_rows_without.mpr ⟨he, fun hv => ?_⟩
  obtain ⟨e', he', hn, hde⟩ := mem_victims hv
  rw [hd.eq he' he hde, hr] at hn
  cases hn

/-- What is taken out is what is missing in the size. -/
theorem size_without (hd : sh.Distinct) {gone : List Row} (hg : gone.Sublist sh.rows) :
    (sh.without (gone.map Row.digest)).size + total (fun e => e.bytes.length) gone = sh.size :=
  total_filter_notMem_add (fun e : Row => e.bytes.length) hd hg

/-- The rows that give way to the capacity. -/
structure Evicted (sh : Shelf) (gone : List Row) : Prop where
  /-- They are the least recently used of those that may be evicted, and enough of them. -/
  oldest : ∃ rest, sh.evictable = gone ++ rest ∧
    (rest = [] ∨ (sh.without (gone.map Row.digest)).size ≤ sh.capacity)
  /-- Without the next of them the shelf would still be above the capacity. -/
  needed : ∀ before e after, gone = before ++ e :: after →
    sh.capacity < (sh.without (before.map Row.digest)).size

theorem exists_evicted (hd : sh.Distinct) :
    ∃ gone, sh.Evicted gone ∧ sh.shrink = sh.without (gone.map Row.digest) := by
  obtain ⟨gone, rest, hev, hv, henough, hneeded⟩ :=
    victims_eq (sh.size - sh.capacity) sh.evictable
  have hsub : gone.Sublist sh.rows := by
    have hg := List.sublist_append_left gone rest
    rw [← hev] at hg
    exact hg.trans List.filter_sublist
  refine ⟨gone, ⟨⟨rest, hev, henough.imp_right fun h => ?_⟩, fun before e after hg => ?_⟩, ?_⟩
  · have hsize := size_without hd hsub
    omega
  · have hlt := hneeded before e after hg
    have hbefore : before.Sublist gone := hg ▸ List.sublist_append_left _ _
    have hsize := size_without hd (hbefore.trans hsub)
    omega
  · rw [shrink, victims, hv]

end TierCache.Disk.Shelf
