import TierCache.Proofs.Recency
import TierCache.Proofs.Resident.Entries
import TierCache.Proofs.Resident.Ranking

/-!
# The memory tier keeps to its plain form

A tier ranks a list of rows if its table has the rows, its order of use is theirs and its running
total is what they cost together. Every call leaves the tier ranking the rows that the plain form
has after the same call, and both report the same. So the two cannot be told apart by any row of
calls.
-/
namespace TierCache

variable {α : Type}

open Ranked (others shed)

/-- Both come to an end, with results that are related, or both stop for the same fault. -/
def Alike {β γ : Type} (R : β → γ → Prop) : Except Fault β → Except Fault γ → Prop
  | .ok b, .ok c => R b c
  | .error f, .error g => f = g
  | _, _ => False

namespace Alike

variable {β γ β' γ' : Type} {R : β → γ → Prop} {R' : β' → γ' → Prop} {x : Except Fault β}
  {y : Except Fault γ}

theorem bind (h : Alike R x y) {f : β → Except Fault β'} {g : γ → Except Fault γ'}
    (hfg : ∀ b c, R b c → Alike R' (f b) (g c)) : Alike R' (x >>= f) (y >>= g) := by
  cases x with
  | error e =>
    cases y with
    | error e' => exact h
    | ok c => exact h.elim
  | ok b =>
    cases y with
    | error e' => exact h.elim
    | ok c => exact hfg b c h

theorem map (h : Alike R x y) {f : β → β'} {g : γ → γ'} (hfg : ∀ b c, R b c → R' (f b) (g c)) :
    Alike R' (x.map f) (y.map g) := by
  have hb : Alike R' (x >>= fun b => .ok (f b)) (y >>= fun c => .ok (g c)) := h.bind hfg
  cases x <;> cases y <;> exact hb

end Alike

/-- The rows that a tier stands for. -/
structure Ranks (rows : List (Ranked α)) (m : Resident α) : Prop where
  nodup : (rows.map Ranked.key).Nodup
  valid : m.recency.Valid
  order : m.recency.toList = rows.map Ranked.key
  found : ∀ k e, m.entries.get? k = some e ↔ ⟨k, e.value, e.cost⟩ ∈ rows
  cost : m.totalCost = total Ranked.cost rows

namespace Ranks

variable {rows : List (Ranked α)} {m m' : Resident α} {row : Ranked α} {key : String}

theorem empty (capacity : Nat) : Ranks [] (Resident.empty capacity : Resident α) :=
  ⟨List.nodup_nil, .empty, rfl, by simp [Resident.empty], rfl⟩

theorem entry (h : Ranks rows m) (hr : row ∈ rows) :
    m.entries.get? row.key = some ⟨row.value, row.cost⟩ := (h.found _ _).mpr hr

theorem entry_none (h : Ranks rows m) :
    m.entries.get? key = none ↔ ∀ row ∈ rows, row.key ≠ key := by
  constructor
  · rintro hn row hr rfl
    rw [h.entry hr] at hn
    cases hn
  · intro hall
    refine Option.eq_none_iff_forall_ne_some.mpr fun e he => ?_
    exact hall _ ((h.found key e).mp he) rfl

theorem key_mem (h : Ranks rows m) : key ∈ m.entries.keys ↔ ∃ row ∈ rows, row.key = key := by
  rw [Table.mem_keys_iff]
  constructor
  · rintro ⟨e, he⟩
    exact ⟨_, (h.found key e).mp he, rfl⟩
  · rintro ⟨row, hr, rfl⟩
    exact ⟨_, h.entry hr⟩

/-- The table is the rows in some order. -/
theorem perm (h : Ranks rows m) :
    (m.entries.pairs.map fun p => Ranked.mk p.1 p.2.value p.2.cost).Perm rows := by
  have hpairs : (m.entries.pairs.map fun p => Ranked.mk p.1 p.2.value p.2.cost).Nodup := by
    refine Ranked.nodup_of_keys ?_
    rw [List.map_map]
    exact m.entries.nodup
  refine (List.perm_ext_iff_of_nodup hpairs (Ranked.nodup_of_keys h.nodup)).mpr fun row => ?_
  rw [List.mem_map]
  constructor
  · rintro ⟨⟨k, e⟩, hp, rfl⟩
    exact (h.found k e).mp (Table.get?_eq_some_iff.mpr hp)
  · intro hr
    exact ⟨_, Table.get?_eq_some_iff.mp (h.entry hr), rfl⟩

theorem size (h : Ranks rows m) : m.size = rows.length := by
  rw [Resident.size, Table.size, ← h.perm.length_eq, List.length_map]

/-- Only the table, the order and the total matter. -/
theorem congr (h : Ranks rows m) (he : m'.entries = m.entries) (hr : m'.recency = m.recency)
    (hc : m'.totalCost = m.totalCost) : Ranks rows m' :=
  ⟨h.nodup, hr ▸ h.valid, hr ▸ h.order, he ▸ h.found, hc ▸ h.cost⟩

theorem drop (h : Ranks rows m) (hr : row ∈ rows)
    (he : m'.entries = m.entries.erase row.key) (hv : m'.recency.Valid)
    (ho : m'.recency.toList = m.recency.toList.filter (· ≠ row.key))
    (hc : m'.totalCost = m.totalCost - row.cost) : Ranks (others rows row.key) m' where
  nodup := h.nodup.sublist ((Ranked.others_sublist rows row.key).map _)
  valid := hv
  order := by rw [ho, h.order, Ranked.map_key_others]
  found := by
    intro k e
    rw [he, Table.get?_erase, Option.ite_none_left_eq_some, h.found, Ranked.mem_others, and_comm]
  cost := by
    rw [hc, h.cost, total_perm _ (Ranked.perm_others h.nodup hr), total_cons]
    omega

theorem append (h : Ranks rows m) (hnew : ∀ row' ∈ rows, row'.key ≠ row.key)
    (he : m'.entries = m.entries.set row.key ⟨row.value, row.cost⟩)
    (hr : m'.recency = m.recency.touch row.key)
    (hc : m'.totalCost = m.totalCost + row.cost) : Ranks (rows ++ [row]) m' where
  nodup := by
    have hn := Ranked.nodup_others_append h.nodup row
    rwa [Ranked.others_eq_self hnew] at hn
  valid := hr ▸ h.valid.touch row.key
  order := by
    rw [hr, h.valid.toList_touch, h.order, ← Ranked.map_key_others, Ranked.others_eq_self hnew,
      List.map_append, List.map_singleton]
  found := by
    intro k e
    rw [he, Table.get?_set, List.mem_append, List.mem_singleton]
    split
    · rename_i hk
      subst hk
      constructor
      · rintro ⟨⟩
        exact .inr rfl
      · rintro (hmem | hlast)
        · exact absurd rfl (hnew ⟨_, e.value, e.cost⟩ hmem)
        · rw [← hlast]
    · rename_i hk
      rw [h.found]
      constructor
      · exact .inl
      · rintro (hmem | hlast)
        · exact hmem
        · exact absurd (congrArg Ranked.key hlast) hk
  cost := by rw [hc, h.cost, total_append, total_cons, total_nil, Nat.add_zero]

theorem use (h : Ranks rows m) (hr : row ∈ rows) (he : m'.entries = m.entries)
    (ho : m'.recency = m.recency.touch row.key) (hc : m'.totalCost = m.totalCost) :
    Ranks (others rows row.key ++ [row]) m' := by
  have hp : rows.Perm (others rows row.key ++ [row]) :=
    (Ranked.perm_others h.nodup hr).trans (List.perm_append_singleton row _).symm
  constructor
  · exact Ranked.nodup_others_append h.nodup row
  · exact ho ▸ h.valid.touch row.key
  · rw [ho, h.valid.toList_touch, h.order, ← Ranked.map_key_others, List.map_append,
      List.map_singleton]
  · intro k e
    rw [he, h.found, hp.mem_iff]
  · rw [hc, h.cost, total_perm _ hp]

/-- The tier drops from the least recent end as long as the plain form does. -/
theorem shrinkRounds {n : Nat} (h : Ranks rows m) (hn : rows.length ≤ n) :
    Ranks (shed m.capacity rows).2 (m.shrinkRounds n).1 ∧
      (m.shrinkRounds n).2 = (shed m.capacity rows).1.map (Ranked.removal .capacity) ∧
      (m.shrinkRounds n).1.capacity = m.capacity := by
  induction n generalizing m rows with
  | zero =>
    rw [List.eq_nil_of_length_eq_zero (Nat.le_zero.mp hn)] at h ⊢
    exact ⟨h, rfl, rfl⟩
  | succ n ih =>
    rw [Resident.shrinkRounds]
    cases rows with
    | nil =>
      rw [if_pos (h.cost ▸ Nat.zero_le _)]
      exact ⟨h, rfl, rfl⟩
    | cons row rows =>
      rw [shed, ← h.cost]
      split
      · exact ⟨h, rfl, rfl⟩
      · have hfst : m.recency.popOldest.1 = some row.key := by
          rw [Recency.fst_popOldest, h.order]
          rfl
        obtain ⟨hv, ho⟩ := h.valid.popOldest_eq hfst
        rw [show m.recency.popOldest = (some row.key, m.recency.popOldest.2) by rw [← hfst]]
        have hd : Ranks rows ({ m with
            entries := m.entries.erase row.key
            recency := m.recency.popOldest.2
            totalCost := m.totalCost - row.cost
            evictions := m.evictions + 1 } : Resident α) := by
          rw [← Ranked.others_cons_self h.nodup]
          exact h.drop List.mem_cons_self rfl hv ho rfl
        obtain ⟨hranks, hremoved, hcapacity⟩ := ih hd (Nat.le_of_succ_le_succ hn)
        simp only [h.entry List.mem_cons_self]
        exact ⟨hranks, by rw [hremoved]; rfl, hcapacity⟩

theorem shrink (h : Ranks rows m) :
    Ranks (shed m.capacity rows).2 m.shrink.1 ∧
      m.shrink.2 = (shed m.capacity rows).1.map (Ranked.removal .capacity) ∧
      m.shrink.1.capacity = m.capacity := by
  have hlen : m.recency.toList.length = rows.length := by rw [h.order, List.length_map]
  refine h.shrinkRounds (Nat.le_of_eq ?_)
  rw [← hlen, Recency.toList, List.length_map]

end Ranks

/-- The tier with the capacity and the rows of its plain form. -/
structure Ranking.Mirrors (l : Ranking α) (m : Resident α) : Prop where
  capacity : m.capacity = l.capacity
  ranks : Ranks l.rows m

namespace Ranking.Mirrors

variable {l : Ranking α} {m : Resident α}

theorem empty (capacity : Nat) : (Ranking.empty capacity : Ranking α).Mirrors (.empty capacity) :=
  ⟨rfl, .empty capacity⟩

theorem take (h : l.Mirrors m) (key : String) :
    (l.row? key = none ∧ m.take key = none ∧ others l.rows key = l.rows) ∨
    ∃ row m', l.row? key = some row ∧ row.key = key ∧
      m.take key = some (⟨row.value, row.cost⟩, m') ∧ Ranks (others l.rows key) m' ∧
      m'.capacity = l.capacity := by
  cases hr : l.row? key with
  | none =>
    have hn := Ranking.row?_eq_none_iff.mp hr
    refine .inl ⟨rfl, ?_, Ranked.others_eq_self hn⟩
    rw [Resident.take, h.ranks.entry_none.mpr hn, Option.map_none]
  | some row =>
    obtain ⟨hmem, rfl⟩ := Ranking.row?_eq_some_iff.mp hr
    rw [Resident.take, h.ranks.entry hmem, Option.map_some]
    exact .inr ⟨row, _, rfl, rfl, rfl, h.ranks.drop hmem rfl (h.ranks.valid.erase _)
      (h.ranks.valid.toList_erase _) rfl, h.capacity⟩

theorem displaced (h : l.Mirrors m) (key : String) :
    Ranks (others l.rows key) (m.displaced key).1 ∧ (m.displaced key).1.capacity = l.capacity ∧
      (m.displaced key).2 = (l.row? key).toList.map (Ranked.removal .replaced) := by
  rw [Resident.displaced]
  rcases h.take key with ⟨hr, ht, ho⟩ | ⟨row, m', hr, rfl, ht, hranks, hcapacity⟩
  · rw [hr, ht, ho]
    exact ⟨h.ranks, h.capacity, rfl⟩
  · rw [hr, ht]
    exact ⟨hranks, hcapacity, rfl⟩

/-- Shrinking a tier settles its rows. -/
theorem shrink {rows : List (Ranked α)} (h : Ranks rows m) :
    (Ranking.settle m.capacity rows h.nodup).1.Mirrors m.shrink.1 ∧
      m.shrink.2 = (Ranking.settle m.capacity rows h.nodup).2 := by
  obtain ⟨hranks, hremoved, hcapacity⟩ := h.shrink
  exact ⟨⟨hcapacity, hranks⟩, hremoved⟩

theorem put (h : l.Mirrors m) (key : String) (value : α) (cost : Nat) :
    Alike (fun x y => y.1.Mirrors x.1 ∧ x.2 = y.2) (m.put key value cost)
      (l.put key value cost) := by
  obtain ⟨hranks, hcapacity, hreplaced⟩ := h.displaced key
  have hplaced : Ranks (others l.rows key ++ [⟨key, value, cost⟩])
      ((m.displaced key).1.placed key value cost) :=
    hranks.append (fun row hr => (Ranked.mem_others.mp hr).2) rfl rfl rfl
  obtain ⟨hmirrors, hdropped⟩ := shrink hplaced
  rw [Resident.put_eq, Ranking.put, hranks.cost, hreplaced]
  cases addCounts (total Ranked.cost (others l.rows key)) cost with
  | error fault => rfl
  | ok sum =>
    have hc : ((m.displaced key).1.placed key value cost).capacity = l.capacity := hcapacity
    rw [hc] at hmirrors hdropped
    exact ⟨hmirrors, congrArg _ hdropped⟩

theorem get (h : l.Mirrors m) (key : String) :
    (m.get key).1 = (l.get key).1 ∧ (l.get key).2.Mirrors (m.get key).2 := by
  rw [Resident.get]
  cases hr : l.row? key with
  | none =>
    rw [Ranking.get_of_none hr, h.ranks.entry_none.mpr (Ranking.row?_eq_none_iff.mp hr)]
    exact ⟨rfl, h.capacity, h.ranks.congr rfl rfl rfl⟩
  | some row =>
    obtain ⟨hmem, rfl⟩ := Ranking.row?_eq_some_iff.mp hr
    rw [Ranking.get_of_some hr, h.ranks.entry hmem]
    exact ⟨rfl, h.capacity, h.ranks.use hmem rfl rfl rfl⟩

theorem contains (h : l.Mirrors m) (key : String) : m.contains key = l.contains key := by
  rw [Resident.contains, Table.contains, Ranking.contains]
  cases hr : l.row? key with
  | none => rw [h.ranks.entry_none.mpr (Ranking.row?_eq_none_iff.mp hr)]; rfl
  | some row =>
    obtain ⟨hmem, rfl⟩ := Ranking.row?_eq_some_iff.mp hr
    rw [h.ranks.entry hmem]
    rfl

theorem remove (h : l.Mirrors m) (key : String) :
    (l.remove key).1.Mirrors (m.remove key).1 ∧ (m.remove key).2 = (l.remove key).2 := by
  rw [Resident.remove, Ranking.remove]
  rcases h.take key with ⟨hr, ht, ho⟩ | ⟨row, m', hr, rfl, ht, hranks, hcapacity⟩
  · rw [hr, ht]
    refine ⟨⟨h.capacity, ?_⟩, rfl⟩
    change Ranks (others l.rows key) m
    exact ho.symm ▸ h.ranks
  · rw [hr, ht]
    exact ⟨⟨hcapacity, hranks⟩, rfl⟩

/-- Keys removed one after the other take their rows with them. -/
theorem removeEach (h : l.Mirrors m) (keys : List String) :
    (l.filter fun k => k ∉ keys).Mirrors (m.removeEach keys).1 ∧
      (m.removeEach keys).2.Perm
        ((l.rows.filter fun row => row.key ∈ keys).map (Ranked.removal .explicit)) := by
  induction keys generalizing l m with
  | nil =>
    have hl : (l.filter fun k => k ∉ []) = l := Ranking.ext rfl (by simp [Ranking.filter])
    rw [hl]
    exact ⟨h, by simp [Resident.removeEach]⟩
  | cons key keys ih =>
    obtain ⟨hmirrors, hremoved⟩ := h.remove key
    obtain ⟨hrest, hperm⟩ := ih hmirrors
    have hl : ((l.filter (· ≠ key)).filter fun k => k ∉ keys) =
        l.filter fun k => k ∉ key :: keys := by
      rw [Ranking.filter_filter]
      congr 1
      funext k
      rw [Bool.eq_iff_iff]
      simp [and_comm]
    refine ⟨hl ▸ hrest, ?_⟩
    have hothers : (others l.rows key).filter (fun row => row.key ∈ key :: keys) =
        (others l.rows key).filter fun row => row.key ∈ keys := by
      refine List.filter_congr fun row hr => ?_
      simp [(Ranked.mem_others.mp hr).2]
    rw [Resident.removeEach, hremoved]
    refine (hperm.append_left _).trans ?_
    change ((l.row? key).toList.map (Ranked.removal .explicit) ++
      ((others l.rows key).filter fun row => row.key ∈ keys).map (Ranked.removal .explicit)).Perm _
    rw [← List.map_append, ← hothers]
    refine List.Perm.map _ ?_
    cases hr : l.row? key with
    | none =>
      rw [Ranked.others_eq_self (Ranking.row?_eq_none_iff.mp hr)]
      rfl
    | some row =>
      obtain ⟨hmem, rfl⟩ := Ranking.row?_eq_some_iff.mp hr
      have hp := (Ranked.perm_others l.nodup hmem).filter fun row' => row'.key ∈ row.key :: keys
      rw [List.filter_cons_of_pos (by simp)] at hp
      exact hp.symm

theorem keepIf (h : l.Mirrors m) (keep : String → Bool) :
    (l.keepIf keep).1.Mirrors (m.keepIf keep).1 ∧ (m.keepIf keep).2.Perm (l.keepIf keep).2 := by
  obtain ⟨hmirrors, hperm⟩ := h.removeEach (m.entries.keys.filter fun k => !keep k)
  have hkeys : ∀ row ∈ l.rows,
      (row.key ∈ m.entries.keys.filter fun k => !keep k) ↔ keep row.key = false := by
    intro row hr
    rw [List.mem_filter, h.ranks.key_mem, Bool.not_eq_true', and_iff_right ⟨row, hr, rfl⟩]
  have hkept : (l.filter fun k => k ∉ m.entries.keys.filter fun k => !keep k) = l.filter keep :=
    Ranking.ext rfl (List.filter_congr fun row hr => by simp [hkeys row hr])
  have hgone : (l.rows.filter fun row => row.key ∈ m.entries.keys.filter fun k => !keep k) =
      l.rows.filter fun row => !keep row.key :=
    List.filter_congr fun row hr => by simp [hkeys row hr]
  rw [hkept] at hmirrors
  rw [hgone] at hperm
  rw [Resident.keepIf_eq]
  exact ⟨hmirrors, hperm⟩

theorem clear (h : l.Mirrors m) :
    l.clear.1.Mirrors m.clear.1 ∧ m.clear.2.Perm l.clear.2 := by
  refine ⟨⟨h.capacity, List.nodup_nil, .clear _, rfl, by simp [Resident.clear, Ranking.clear,
    Ranking.empty], rfl⟩, ?_⟩
  have hp := h.ranks.perm.map (Ranked.removal .explicit)
  rwa [List.map_map] at hp

theorem resize (h : l.Mirrors m) (capacity : Nat) :
    (l.resize capacity).1.Mirrors (m.resize capacity).1 ∧
      (m.resize capacity).2 = (l.resize capacity).2 :=
  shrink (m := { m with capacity }) (h.ranks.congr rfl rfl rfl)

end Ranking.Mirrors

namespace Resident

inductive Call (α : Type) where
  | put (key : String) (value : α) (cost : Nat)
  | get (key : String)
  | contains (key : String)
  | remove (key : String)
  | keepIf (keep : String → Bool)
  | clear
  | resize (capacity : Nat)

/-- Several entries that one call removes are reported in no particular order. -/
def Call.isOrdered : Call α → Bool
  | .keepIf _ | .clear => false
  | _ => true

inductive Answer (α : Type) where
  | done
  | value (v : Option α)
  | truth (b : Bool)
  | count (n : Nat)

/-- A call with its answer, what it reported as removed, and the tier after it. -/
structure Event (α : Type) where
  call : Call α
  answer : Answer α
  removed : List (Removal α)
  size : Nat
  totalCost : Nat
  capacity : Nat

/-- The same is seen of both, and the costs are within the capacity. -/
structure Event.Agrees (e e' : Event α) : Prop where
  call : e.call = e'.call
  answer : e.answer = e'.answer
  removed : e.removed.Perm e'.removed
  ordered : e.call.isOrdered → e.removed = e'.removed
  size : e.size = e'.size
  totalCost : e.totalCost = e'.totalCost
  capacity : e.capacity = e'.capacity
  fits : e.totalCost ≤ e.capacity

/-- The same is seen of both at each of equally many calls. -/
structure Event.AgreeEach (es es' : List (Event α)) : Prop where
  length : es.length = es'.length
  each : ∀ p ∈ es.zip es', p.1.Agrees p.2

theorem Event.AgreeEach.cons {e e' : Event α} {es es' : List (Event α)} (h : e.Agrees e')
    (hs : AgreeEach es es') : AgreeEach (e :: es) (e' :: es') where
  length := congrArg (· + 1) hs.length
  each := by
    rw [List.zip_cons_cons]
    exact List.forall_mem_cons.mpr ⟨h, hs.each⟩

/-- The operations of a memory tier in some form. -/
structure Form (σ α : Type) where
  put : σ → String → α → Nat → Except Fault (σ × List (Removal α))
  get : σ → String → Option α × σ
  contains : σ → String → Bool
  remove : σ → String → σ × List (Removal α)
  keepIf : σ → (String → Bool) → σ × List (Removal α)
  clear : σ → σ × List (Removal α)
  resize : σ → Nat → σ × List (Removal α)
  size : σ → Nat
  totalCost : σ → Nat
  capacity : σ → Nat

namespace Form

variable {σ : Type}

def seen (f : Form σ α) (call : Call α) (s : σ) (answer : Answer α) (removed : List (Removal α)) :
    σ × Event α := (s, ⟨call, answer, removed, f.size s, f.totalCost s, f.capacity s⟩)

def step (f : Form σ α) (s : σ) (call : Call α) : Except Fault (σ × Event α) :=
  match call with
  | .put key value cost =>
    (f.put s key value cost).map fun (s, removed) => f.seen call s .done removed
  | .get key => let (found, s) := f.get s key; .ok (f.seen call s (.value found) [])
  | .contains key => .ok (f.seen call s (.truth (f.contains s key)) [])
  | .remove key =>
    let (s, removed) := f.remove s key
    .ok (f.seen call s (.value (removed.head?.map Removal.value)) removed)
  | .keepIf keep =>
    let (s, removed) := f.keepIf s keep
    .ok (f.seen call s (.count removed.length) removed)
  | .clear => let (s, removed) := f.clear s; .ok (f.seen call s .done removed)
  | .resize capacity =>
    let (s, removed) := f.resize s capacity
    .ok (f.seen call s .done removed)

def run (f : Form σ α) (s : σ) : List (Call α) → Except Fault (σ × List (Event α))
  | [] => .ok (s, [])
  | call :: calls => do
    let (s, event) ← f.step s call
    let (s, events) ← f.run s calls
    return (s, event :: events)

end Form

/-- The tier as it is kept: a table, an order of use and a running total. -/
def kept : Form (Resident α) α :=
  ⟨put, get, contains, remove, keepIf, clear, resize, size, totalCost, capacity⟩

/-- The tier as a list of rows. -/
def listed : Form (Ranking α) α :=
  ⟨Ranking.put, Ranking.get, Ranking.contains, Ranking.remove, Ranking.keepIf, Ranking.clear,
    Ranking.resize, fun l => l.rows.length, fun l => total Ranked.cost l.rows, Ranking.capacity⟩

variable {m : Resident α} {l : Ranking α}

theorem seen_agrees (h : l.Mirrors m) (call : Call α) {answer answer' : Answer α}
    {removed removed' : List (Removal α)} (ha : answer = answer') (hr : removed.Perm removed')
    (ho : call.isOrdered → removed = removed') :
    (kept.seen call m answer removed).2.Agrees (listed.seen call l answer' removed').2 where
  call := rfl
  answer := ha
  removed := hr
  ordered := ho
  size := h.ranks.size
  totalCost := h.ranks.cost
  capacity := h.capacity
  fits := by
    have hfits := l.fits
    rwa [← h.ranks.cost, ← h.capacity] at hfits

/-- One call is answered alike, and reports the same. -/
theorem step_agrees (h : l.Mirrors m) (call : Call α) :
    Alike (fun x y => y.1.Mirrors x.1 ∧ x.2.Agrees y.2) (kept.step m call)
      (listed.step l call) := by
  cases call with
  | put key value cost =>
    change Alike _ ((m.put key value cost).map _) ((l.put key value cost).map _)
    refine (h.put key value cost).map fun x y hxy => ?_
    exact ⟨hxy.1, seen_agrees hxy.1 _ rfl (.of_eq hxy.2) fun _ => hxy.2⟩
  | get key =>
    obtain ⟨hfound, hmirrors⟩ := h.get key
    exact ⟨hmirrors, seen_agrees hmirrors _ (congrArg _ hfound) (.refl _) fun _ => rfl⟩
  | contains key =>
    exact ⟨h, seen_agrees h _ (congrArg _ (h.contains key)) (.refl _) fun _ => rfl⟩
  | remove key =>
    obtain ⟨hmirrors, hremoved⟩ := h.remove key
    have hvalue : Answer.value ((m.remove key).2.head?.map Removal.value) =
        .value ((l.remove key).2.head?.map Removal.value) := by rw [hremoved]
    exact ⟨hmirrors, seen_agrees hmirrors _ hvalue (.of_eq hremoved) fun _ => hremoved⟩
  | keepIf keep =>
    obtain ⟨hmirrors, hperm⟩ := h.keepIf keep
    exact ⟨hmirrors, seen_agrees hmirrors _ (congrArg _ hperm.length_eq) hperm Bool.noConfusion⟩
  | clear =>
    obtain ⟨hmirrors, hperm⟩ := h.clear
    exact ⟨hmirrors, seen_agrees hmirrors _ rfl hperm Bool.noConfusion⟩
  | resize capacity =>
    obtain ⟨hmirrors, hremoved⟩ := h.resize capacity
    exact ⟨hmirrors, seen_agrees hmirrors _ rfl (.of_eq hremoved) fun _ => hremoved⟩

theorem run_agrees (h : l.Mirrors m) (calls : List (Call α)) :
    Alike (fun x y => y.1.Mirrors x.1 ∧ Event.AgreeEach x.2 y.2) (kept.run m calls)
      (listed.run l calls) := by
  induction calls generalizing m l with
  | nil => exact ⟨h, rfl, by simp⟩
  | cons call calls ih =>
    refine (step_agrees h call).bind fun x y hxy => ?_
    refine (ih hxy.1).bind fun x' y' hxy' => ?_
    exact ⟨hxy'.1, .cons hxy.2 hxy'.2⟩

/-- No row of calls tells an empty tier from an empty list of rows, and both come to a sum of costs
that is too large at the same call. The list drops from its front the fewest rows that leave it
within its capacity. -/
theorem run_listed (capacity : Nat) (calls : List (Call α)) :
    Alike (fun x y => y.1.Mirrors x.1 ∧ Event.AgreeEach x.2 y.2)
      (kept.run (.empty capacity) calls) (listed.run (.empty capacity) calls) ∧
    ∀ n (rows : List (Ranked α)), Ranked.Shedding n rows (shed n rows).1 (shed n rows).2 :=
  ⟨run_agrees (.empty capacity) calls, Ranked.shed_shedding⟩

end Resident

end TierCache
