import TierCache.Proofs.Lingering.Liveness

/-!
# What the overflow tier stands for

What was done to the tier, and who uses what, say all that its look-ups tell. Two tiers of the same
history give the same answers from then on, even if one of them was told to forget the dead and the
other was not.
-/
namespace TierCache.Lingering

variable {α : Type}

/-- Numbers that tell values apart can be used to find them. -/
theorem find?_id_eq_some_iff {l : List (Shared α)} (h : ∀ v ∈ l, ∀ w ∈ l, v.id = w.id → v = w)
    {id : Nat} {v : Shared α} : (l.find? fun w => w.id = id) = some v ↔ v ∈ l ∧ v.id = id := by
  constructor
  · intro hf
    exact ⟨List.mem_of_find?_eq_some hf, by simpa using List.find?_some hf⟩
  · rintro ⟨hv, rfl⟩
    have hs : (l.find? fun w => w.id = v.id).isSome := List.find?_isSome.mpr ⟨v, hv, by simp⟩
    obtain ⟨w, hw⟩ := Option.isSome_iff_exists.mp hs
    have hid : w.id = v.id := by simpa using List.find?_some hw
    rw [hw, h w (List.mem_of_find?_eq_some hw) v hv hid]

namespace Traced

variable {n : Nat} {s : Scene α}

theorem mem_strong (h : Traced n s) {w : Shared α} :
    w ∈ s.strong ↔ w ∈ s.held ∨ ∃ k, (k, w) ∈ queue n s.past := by
  simp only [Scene.mem_strong, h.queued.found]

/-- A look-up finds what was last put, for as long as that is alive. -/
theorem get_eq_some_iff (h : Traced n s) {k : String} {v : Shared α} :
    (s.tier.get s.inUse k).1 = some v ↔ lastPut k s.past = some v ∧ s.Alive v := by
  rw [fst_get, Option.filter_eq_some_iff, Scene.isAlive_iff]
  constructor
  · exact fun ⟨hv, halive⟩ => ⟨h.tracks.known k v hv, halive⟩
  · exact fun ⟨hv, halive⟩ => ⟨h.tracks.found k v hv halive, halive⟩

end Traced

/-- Histories that differ in nothing but in how often the dead were forgotten. -/
structure SamePast (n : Nat) (past past' : List (Deed α)) : Prop where
  queue : queue n past = queue n past'
  lastPut : ∀ k, lastPut k past = lastPut k past'
  answers : answers past = answers past'

namespace SamePast

variable {n : Nat} {past past' : List (Deed α)}

theorem cons (h : SamePast n past past') (deed : Deed α) :
    SamePast n (deed :: past) (deed :: past') := by
  constructor
  · cases deed <;> simp only [Lingering.queue, h.queue]
  · intro k
    cases deed <;> simp only [Lingering.lastPut, h.lastPut]
  · rw [Lingering.answers, List.filterMap_cons, Lingering.answers, List.filterMap_cons]
    cases deed with
    | get key found => exact congrArg _ h.answers
    | _ => exact h.answers

theorem forgetDead (h : SamePast n past past') (count count' : Nat) :
    SamePast n (.forgetDead count :: past) (.forgetDead count' :: past') :=
  ⟨h.queue, h.lastPut, h.answers⟩

end SamePast

/-- Scenes that look the same from outside: their tiers may differ in the dead they track. -/
structure Alike (n : Nat) (s s' : Scene α) : Prop where
  left : Traced n s
  right : Traced n s'
  held : s.held = s'.held
  next : s.next = s'.next
  past : SamePast n s.past s'.past

namespace Alike

variable {n : Nat} {s s' : Scene α}

theorem mem_strong (h : Alike n s s') (w : Shared α) : w ∈ s.strong ↔ w ∈ s'.strong := by
  rw [h.left.mem_strong, h.right.mem_strong, h.held, h.past.queue]

theorem find?_strong (h : Alike n s s') (id : Nat) :
    (s.strong.find? fun w => w.id = id) = s'.strong.find? fun w => w.id = id := by
  refine Option.ext fun v => ?_
  rw [find?_id_eq_some_iff fun v hv w hw => h.left.distinct v w (.inl hv) (.inl hw),
    find?_id_eq_some_iff fun v hv w hw => h.right.distinct v w (.inl hv) (.inl hw), h.mem_strong]

theorem get (h : Alike n s s') (k : String) :
    (s.tier.get s.inUse k).1 = (s'.tier.get s'.inUse k).1 := by
  refine Option.ext fun v => ?_
  rw [h.left.get_eq_some_iff, h.right.get_eq_some_iff, h.past.lastPut, Scene.alive_iff,
    Scene.alive_iff]
  simp only [h.mem_strong]

theorem step (h : Alike n s s') (move : Move α) : Alike n (s.step move) (s'.step move) := by
  refine ⟨h.left.step move, h.right.step move, ?_, ?_, ?_⟩
  · cases move with
    | make value => simp only [Scene.step, h.held, h.next]
    | use id => simp only [Scene.step, h.held, h.find?_strong id]
    | release id => simp only [Scene.step, h.held]
    | put key id =>
      simp only [Scene.step, ← h.held]
      split
      · exact h.held
      · rfl
    | get key => simp only [Scene.step, h.held, h.get key]
    | _ => exact h.held
  · cases move with
    | make value => exact congrArg (· + 1) h.next
    | put key id =>
      simp only [Scene.step, ← h.held]
      split <;> exact h.next
    | _ => exact h.next
  · cases move with
    | put key id =>
      simp only [Scene.step, ← h.held]
      split
      · exact h.past
      · exact h.past.cons _
    | get key =>
      simp only [Scene.step, h.get key]
      exact h.past.cons _
    | remove key => exact h.past.cons _
    | keepIf keep => exact h.past.cons _
    | dropWindow => exact h.past.cons _
    | forgetDead => exact h.past.forgetDead _ _
    | clear => exact h.past.cons _
    | _ => exact h.past

theorem run (h : Alike n s s') (moves : List (Move α)) : Alike n (s.run moves) (s'.run moves) := by
  induction moves generalizing s s' with
  | nil => exact h
  | cons move moves ih => exact ih (h.step move)

end Alike

theorem Traced.alike_forgetDead {n : Nat} {s : Scene α} (h : Traced n s) :
    Alike n (s.step .forgetDead) s :=
  ⟨h.step .forgetDead, h, rfl, rfl, rfl, fun _ => rfl, rfl⟩

/-- The tracked values that no one refers to. -/
def dead (s : Scene α) : List (String × Shared α) :=
  s.tier.refs.pairs.filter fun p => !s.tier.isAlive s.inUse p.2

theorem mem_dead {s : Scene α} {k : String} {v : Shared α} :
    (k, v) ∈ dead s ↔ s.tier.refs.get? k = some v ∧ ¬ s.Alive v := by
  rw [dead, List.mem_filter, Table.get?_eq_some_iff, ← Scene.isAlive_iff, Bool.not_eq_true,
    Bool.not_eq_true']

/-- What there is to know about a tier of a window of `n` values among its users. -/
structure Explained (n : Nat) (s : Scene α) : Prop where
  /-- The window is the queue of the puts, and the order of use is the order of the queue. -/
  window : ∀ k v, s.tier.window.get? k = some v ↔ (k, v) ∈ queue n s.past
  order : s.tier.order.toList = (queue n s.past).map Prod.fst
  keys : ∀ k, k ∈ s.tier.window.keys ↔ k ∈ s.tier.order.toList
  bounded : s.tier.window.size ≤ n
  /-- What is in the window is what is tracked under its key. -/
  tracked : ∀ k v, s.tier.window.get? k = some v → s.tier.refs.get? k = some v
  /-- A look-up finds what was last put, for as long as that is alive. -/
  get : ∀ k v, (s.tier.get s.inUse k).1 = some v ↔ lastPut k s.past = some v ∧ s.Alive v
  gone : ∀ k v, (k, v) ∈ dead s ↔ s.tier.refs.get? k = some v ∧ ¬ s.Alive v
  /-- Forgetting takes the dead out and nothing else, and counts them. -/
  forgotten : ∀ k v, (s.tier.forgetDead s.inUse).2.refs.get? k = some v ↔
    s.tier.refs.get? k = some v ∧ s.Alive v
  counted : (s.tier.forgetDead s.inUse).1 = (dead s).length
  /-- From then on all look-ups give what they would have given. -/
  unseen : ∀ moves, answers ((s.step .forgetDead).run moves).past = answers (s.run moves).past

/-- Whatever is done to the tier, and whoever uses what of it, its history explains it. -/
theorem explained_run (n : Nat) (moves : List (Move α)) :
    Explained n ((Scene.start n : Scene α).run moves) := by
  have h : Traced n ((Scene.start n : Scene α).run moves) := (Traced.start n).run moves
  refine ⟨h.queued.found, h.queued.order, fun k => h.queued.mem_keys, ?_, fun k v hv => ?_,
    fun k v => h.get_eq_some_iff, fun k v => mem_dead, fun k v => ?_, fst_forgetDead _,
    fun moves' => ?_⟩
  · rw [h.queued.size]
    exact length_queue_le n _
  · exact h.tracked_of_mem ((h.queued.found k v).mp hv)
  · rw [forgetDead, Table.get?_filter, Option.filter_eq_some_iff, Scene.isAlive_iff]
  · exact (h.alike_forgetDead.run moves').past.answers

/-- A value that has left the window is found for as long as it is used. -/
example : answers ((Scene.start 1).run [.make 'x', .use 0, .put "a" 0, .make 'y', .put "b" 1,
    .get "a", .release 0, .release 0, .get "a", .get "b"]).past =
    [("b", some ⟨1, 'y'⟩), ("a", none), ("a", some ⟨0, 'x'⟩)] := rfl

end TierCache.Lingering
