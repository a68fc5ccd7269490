import TierCache.Proofs.Disk.Place

/-!
# The folders of a store

While the folders on the way to a store and its own three folders stand, every record is found at
its place.
-/
namespace TierCache.Disk

/-- The folders that a store needs: those on the way to it, and its own. -/
def folders (root : Path) : List Place :=
  root.way ++ [root.goal, root.goal ++ ["records"], root.goal ++ ["retained"], root.goal ++ ["tmp"]]

def Standing (root : Path) (v : Volume) : Prop := ∀ q ∈ folders root, v.node? q = some .folder

namespace Standing

variable {root : Path} {v w : Volume}

theorem mono (h : Standing root v) (hd : ∀ q, v.node? q = some .folder → w.node? q = some .folder) :
    Standing root w := fun q hq => hd q (h q hq)

theorem root_leads (h : Standing root v) (hr : Roomy root) : v.Leads root := by
  refine ⟨hr.refusal, fun q hq => h q ?_⟩
  exact List.mem_append_left _ hq

theorem root_folder (h : Standing root v) : v.node? root.goal = some .folder :=
  h _ (by simp [folders])

theorem leads_folder (h : Standing root v) (hr : Roomy root) (r : Retention) :
    v.Leads (folder root r) := by
  rw [folder_eq]
  exact Volume.leads_join (folder_eq root r ▸ hr.refusal_folder r) (h.root_leads hr) h.root_folder

theorem node?_folder (h : Standing root v) (r : Retention) :
    v.node? (folder root r).goal = some .folder := by
  rw [goal_folder]
  cases r
  · exact h _ (by simp [folders, folderName])
  · exact h _ (by simp [folders, folderName])

theorem leads_staging (h : Standing root v) (hr : Roomy root) : v.Leads (staging root) :=
  Volume.leads_join hr.refusal_staging (h.root_leads hr) h.root_folder

theorem node?_staging (h : Standing root v) : v.node? (staging root).goal = some .folder := by
  rw [goal_staging]
  exact h _ (by simp [folders])

theorem isFolder_staging (h : Standing root v) (hr : Roomy root) :
    v.isFolder (staging root) = true :=
  Volume.isFolder_iff.mpr ⟨h.leads_staging hr, h.node?_staging⟩

theorem isFolder_folder (h : Standing root v) (hr : Roomy root) (r : Retention) :
    v.isFolder (folder root r) = true :=
  Volume.isFolder_iff.mpr ⟨h.leads_folder hr r, h.node?_folder r⟩

theorem leads_recordPath (h : Standing root v) (hr : Roomy root) (d : Digest) (r : Retention) :
    v.Leads (recordPath root d r) :=
  Volume.leads_join (hr.refusal_recordPath d r) (h.leads_folder hr r) (h.node?_folder r)

end Standing

end TierCache.Disk
