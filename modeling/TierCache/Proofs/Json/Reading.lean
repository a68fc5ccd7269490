import TierCache.Json.Tree
import TierCache.Proofs.Json.Lexing

/-!
# A written document is read back

The reader takes the tokens of a document one at a time, and has its tree complete, on the stack
that it began with, after the last one.
-/
namespace TierCache.Json

mutual

/-- A document as it is read. -/
def tree : Json → Tree
  | .number n => .number (some n)
  | .truth b => .truth b
  | .text s => .text (some s)
  | .list items => .list (itemTrees items)
  | .record fields => .record (fieldTrees fields)

def itemTrees : List Json → List Tree
  | [] => []
  | j :: items => tree j :: itemTrees items

def fieldTrees : List (String × Json) → List (Option String × Tree)
  | [] => []
  | (k, j) :: fields => (some k, tree j) :: fieldTrees fields

end

namespace Reading

/-- A value may begin here, inside the frames of a stack. -/
def Awaits (r : Reading) (stack : List Frame) : Prop :=
  ∀ t, t ≠ .closeList → step r t = begin stack t

theorem awaits_value (stack : List Frame) : Awaits (.value stack) stack := fun _ _ => rfl

theorem awaits_item (stack : List Frame) : Awaits (.item stack) (.list [] :: stack) := by
  intro t ht
  cases t with
  | closeList => exact absurd rfl ht
  | _ => rfl

mutual

theorem read_tokens (j : Json) {r : Reading} {stack : List Frame} (h : Awaits r stack) :
    (tokens j).foldlM step r = some (.complete j.tree stack) := by
  cases j with
  | number n => rw [tokens, List.foldlM_cons, h _ (by simp)]; rfl
  | truth b => rw [tokens, List.foldlM_cons, h _ (by simp)]; rfl
  | text s => rw [tokens, List.foldlM_cons, h _ (by simp)]; rfl
  | list items =>
    cases items with
    | nil => rw [tokens, List.foldlM_cons, h _ (by simp)]; rfl
    | cons j items =>
      rw [tokens, List.cons_append, List.cons_append, List.append_assoc, List.foldlM_cons,
        h _ (by simp)]
      show ((tokens j ++ _).foldlM step (.item stack)) = _
      rw [List.foldlM_append, read_tokens j (awaits_item stack)]
      exact read_items items j.tree [] stack
  | record fields =>
    cases fields with
    | nil => rw [tokens, List.foldlM_cons, h _ (by simp)]; rfl
    | cons f fields =>
      obtain ⟨k, j⟩ := f
      rw [tokens]
      simp only [List.cons_append, List.append_assoc]
      rw [List.foldlM_cons, h _ (by simp)]
      show ((tokens j ++ _).foldlM step (.value (.record [] (some k) :: stack))) = _
      rw [List.foldlM_append, read_tokens j (awaits_value _)]
      exact read_fields fields j.tree (some k) [] stack

theorem read_items (items : List Json) (u : Tree) (done : List Tree) (stack : List Frame) :
    (itemTokens items ++ [Token.closeList]).foldlM step (.complete u (.list done :: stack)) =
      some (.complete (.list ((u :: done).reverse ++ itemTrees items)) stack) := by
  cases items with
  | nil =>
    rw [itemTrees, List.append_nil]
    rfl
  | cons j items =>
    rw [itemTokens, List.cons_append, List.cons_append, List.append_assoc, List.foldlM_cons]
    show ((tokens j ++ _).foldlM step (.value (.list (u :: done) :: stack))) = _
    rw [List.foldlM_append, read_tokens j (awaits_value _)]
    show (itemTokens items ++ [Token.closeList]).foldlM step
      (.complete j.tree (.list (u :: done) :: stack)) = _
    rw [read_items items, itemTrees, List.reverse_cons, List.append_assoc]
    rfl

theorem read_fields (fields : List (String × Json)) (u : Tree) (k : Option String)
    (done : List (Option String × Tree)) (stack : List Frame) :
    (fieldTokens fields ++ [Token.closeRecord]).foldlM step
        (.complete u (.record done k :: stack)) =
      some (.complete (.record (((k, u) :: done).reverse ++ fieldTrees fields)) stack) := by
  cases fields with
  | nil =>
    rw [fieldTrees, List.append_nil]
    rfl
  | cons f fields =>
    obtain ⟨k', j⟩ := f
    rw [fieldTokens]
    simp only [List.cons_append, List.append_assoc]
    show ((tokens j ++ _).foldlM step (.value (.record ((k, u) :: done) (some k') :: stack))) = _
    rw [List.foldlM_append, read_tokens j (awaits_value _)]
    show (fieldTokens fields ++ [Token.closeRecord]).foldlM step
      (.complete j.tree (.record ((k, u) :: done) (some k') :: stack)) = _
    rw [read_fields fields, fieldTrees, List.reverse_cons, List.append_assoc]
    rfl

end

end Reading

/-- A document that was written is read. -/
theorem Tree.ofBytes?_compact (j : Json) (h : Narrow j) :
    Tree.ofBytes? (Utf8.encodeChars j.compact) = some j.tree := by
  rw [Tree.ofBytes?, lex_compact j h, Option.bind_some, Tree.ofTokens?,
    Reading.read_tokens j (Reading.awaits_value [])]

namespace Tree

theorem fields?_tree (fields : List (String × Json)) :
    (Json.record fields).tree.fields? = some (fields.map fun f => (f.1, f.2.tree)) := by
  rw [Json.tree, fields?]
  induction fields with
  | nil => rfl
  | cons f fields ih =>
    obtain ⟨k, j⟩ := f
    rw [fieldTrees, List.mapM_cons, ih]
    rfl

theorem single?_of_mem {fields : List (String × Tree)} (hn : (fields.map Prod.fst).Nodup)
    {f : String × Tree} (hf : f ∈ fields) : single? fields f.1 = some (some f.2) := by
  have hfilter : fields.filter (·.1 = f.1) = [f] := by
    induction fields with
    | nil => cases hf
    | cons g fields ih =>
      rw [List.map_cons, List.nodup_cons] at hn
      have hrest : ∀ h ∈ fields, h.1 ≠ g.1 := fun h hh he =>
        hn.1 (List.mem_map.mpr ⟨h, hh, he⟩)
      rcases List.mem_cons.mp hf with rfl | hf
      · rw [List.filter_cons_of_pos (by simp), List.filter_eq_nil_iff.mpr fun h hh => by
          simpa using hrest h hh]
      · rw [List.filter_cons_of_neg (by simpa using fun he => hrest f hf he.symm), ih hn.2 hf]
  rw [single?, hfilter]

/-- All fields of a record, asked for by their names. -/
theorem select?_tree (fields : List (String × Json)) (hn : (fields.map Prod.fst).Nodup) :
    (Json.record fields).tree.select? (fields.map Prod.fst) =
      some (fields.map fun f => some f.2.tree) := by
  have hn' : ((fields.map fun f => (f.1, f.2.tree)).map Prod.fst).Nodup := by
    rwa [List.map_map]
  have hsingle : ∀ fs : List (String × Json), (∀ f ∈ fs, f ∈ fields) →
      (fs.map Prod.fst).mapM (single? (fields.map fun f => (f.1, f.2.tree))) =
        some (fs.map fun f => some f.2.tree) := by
    intro fs
    induction fs with
    | nil => exact fun _ => rfl
    | cons f fs ih =>
      intro h
      have hf := single?_of_mem hn' (List.mem_map_of_mem (h f List.mem_cons_self))
      rw [List.map_cons, List.mapM_cons, hf, ih fun g hg => h g (List.mem_cons_of_mem f hg)]
      rfl
  have hfields := fields?_tree fields
  rw [Json.tree] at hfields ⊢
  rw [select?, hfields]
  exact hsingle fields fun f hf => hf

end Tree

end TierCache.Json
