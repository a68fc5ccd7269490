import Mathlib.Data.List.Forall2
import TierCache.Proofs.Dispatcher.Ticketing

/-!
# Silencing tickets and callbacks

Cancelled tickets and dropped callbacks matter to nothing but what is told. Two dispatchers that
differ in them alone make the same of the same calls: they hold the same in all tiers, issue the
same tickets and give the same answers, and one tells less than the other.
-/
namespace TierCache.Dispatcher

variable {α ε β γ β' γ' : Type} {l : Layout} {v : Volume} {past past' : List (Moment α ε)}
variable {c c' c₁ : Dispatcher α ε} {off gone : Nat → Bool}

/-- Both fail alike, or both come to related results. -/
inductive Parallel (R : β → γ → Prop) : Except Fault β → Except Fault γ → Prop where
  | error (fault : Fault) : Parallel R (.error fault) (.error fault)
  | ok {b : β} {d : γ} (h : R b d) : Parallel R (.ok b) (.ok d)

namespace Parallel

variable {R : β → γ → Prop} {S : β' → γ' → Prop} {x : Except Fault β} {y : Except Fault γ}

theorem bind {f : β → Except Fault β'} {g : γ → Except Fault γ'} (h : Parallel R x y)
    (hs : ∀ b d, R b d → Parallel S (f b) (g d)) : Parallel S (x >>= f) (y >>= g) := by
  cases h with
  | error fault => exact .error fault
  | ok h => exact hs _ _ h

theorem map {f : β → β'} {g : γ → γ'} (h : Parallel R x y)
    (hs : ∀ b d, R b d → S (f b) (g d)) : Parallel S (x.map f) (y.map g) := by
  cases h with
  | error fault => exact .error fault
  | ok h => exact .ok (hs _ _ h)

/-- A computation beside a function of itself. -/
theorem of_map {R : β → γ → Prop} (x : Except Fault β) (f : β → γ)
    (h : ∀ b, x = .ok b → R b (f b)) : Parallel R x (x.map f) := by
  cases x with
  | error fault => exact .error fault
  | ok b => exact .ok (h b rfl)

theorem of_ok {b : β} (h : Parallel R x y) (hx : x = .ok b) : ∃ d, y = .ok d ∧ R b d := by
  subst hx
  cases h with
  | ok h => exact ⟨_, rfl, h⟩

end Parallel

/-- The second dispatcher is the first with more tickets cancelled and more callbacks dropped. -/
structure Muffled (off gone : Nat → Bool) (c c' : Dispatcher α ε) : Prop where
  tiers : c.handling c' = c'
  nextTicket : c'.nextTicket = c.nextTicket
  flights : ∀ id, c'.flights.get? id =
    (c.flights.get? id).map fun f => { f with cancelled := f.cancelled || off id }
  dropped : ∀ k, k ∈ c'.dropped ↔ k ∈ c.dropped ∨ gone k = true
  /-- Only tickets that have been issued are cancelled. -/
  issued : ∀ id, off id = true → id < c.nextTicket

/-- What is left of what a call tells. -/
def hush (off gone : Nat → Bool) (x : Call α ε) (told : List (Delivery α ε)) :
    List (Delivery α ε) :=
  if x.completed?.any fun t => off t.id then [] else told.filter fun d => !gone d.callback

/-- Two outcomes of a call that differ in what is told alone. -/
def Hushed (off gone : Nat → Bool) (x : Call α ε)
    (out out' : Returned α × List (Delivery α ε) × Dispatcher α ε) : Prop :=
  out'.1 = out.1 ∧ out'.2.1 = hush off gone x out.2.1 ∧ Muffled off gone out.2.2 out'.2.2

namespace Muffled

/-- A change of the tiers alone keeps what is muffled. -/
theorem handling (h : Muffled off gone c c') (h₁ : c₁.handling c = c₁) :
    Muffled off gone c₁ (c₁.handling c') := by
  have hf : c₁.flights = c.flights := (congrArg Dispatcher.flights h₁).symm
  have hn : c₁.nextTicket = c.nextTicket := (congrArg Dispatcher.nextTicket h₁).symm
  have hd : c₁.dropped = c.dropped := (congrArg Dispatcher.dropped h₁).symm
  refine ⟨rfl, h.nextTicket.trans hn.symm, fun id => ?_, fun k => ?_, fun id ho => ?_⟩
  · rw [hf]
    exact h.flights id
  · rw [hd]
    exact h.dropped k
  · rw [hn]
    exact h.issued id ho

theorem tell (h : Muffled off gone c c') (d : Delivery α ε) :
    c'.tell d = (c.tell d).filter fun d => !gone d.callback := by
  simp only [Dispatcher.tell, List.contains_iff_mem, h.dropped]
  by_cases hd : d.callback ∈ c.dropped
  · simp [hd]
  · by_cases hg : gone d.callback = true
    · simp [hd, hg]
    · simp [hd, hg]

theorem fromCache (h : Muffled off gone c c') (r : Request α ε) :
    Parallel (fun out out' => out'.1 = out.1 ∧ Muffled off gone out.2 out'.2) (c.fromCache r)
      (c'.fromCache r) := by
  rw [← h.tiers, fromCache_handling]
  exact .of_map _ _ fun out hout => ⟨rfl, h.handling (handling_of_fromCache hout)⟩

theorem lookup (h : Muffled off gone c c') (r : Request α ε) :
    Parallel (fun out out' => out'.1 = out.1 ∧ Muffled off gone out.2 out'.2) (c.lookup r)
      (c'.lookup r) := by
  rw [← h.tiers, lookup_handling]
  exact .of_map _ _ fun out hout => ⟨rfl, h.handling (handling_of_lookup hout)⟩

/-- A ticket that is issued now is new, and not cancelled. -/
theorem issue (h : Muffled off gone c c') (r : Request α ε) (callback : Nat) (refresh : Bool) :
    (c'.issue r callback refresh).1 = (c.issue r callback refresh).1 ∧
      Muffled off gone (c.issue r callback refresh).2 (c'.issue r callback refresh).2 := by
  have hnew : off c.nextTicket = false := by
    rw [← Bool.not_eq_true]
    exact fun ho => Nat.lt_irrefl _ (h.issued _ ho)
  refine ⟨by simp only [Dispatcher.issue, h.nextTicket], ?_, ?_, fun id => ?_, h.dropped,
    fun id ho => Nat.lt_succ_of_lt (h.issued id ho)⟩
  · simp only [Dispatcher.issue]
    rw [← h.tiers]
    rfl
  · simp only [Dispatcher.issue, h.nextTicket]
  · simp only [Dispatcher.issue, h.nextTicket, Table.get?_set]
    split
    · rename_i he
      simp only [he, hnew, Option.map_some, Bool.or_false]
    · exact h.flights id

theorem submit (h : Muffled off gone c c') (r : Request α ε) (callback : Nat) :
    Parallel (fun out out' => out'.1 = out.1 ∧
        out'.2.1 = (out.2.1).filter (fun d => !gone d.callback) ∧
        Muffled off gone out.2.2 out'.2.2)
      (c.submit r callback) (c'.submit r callback) := by
  refine (h.lookup r).bind ?_
  rintro ⟨hit, c₁⟩ ⟨hit', c₁'⟩ ⟨he, h₁⟩
  cases he
  cases hit with
  | none =>
    obtain ⟨ht, hi⟩ := h₁.issue r callback false
    exact .ok ⟨congrArg Submission.fetching ht, rfl, hi⟩
  | some x =>
    simp only
    cases x.freshness.fetch with
    | none => exact .ok ⟨rfl, h₁.tell _, h₁⟩
    | background =>
      obtain ⟨ht, hi⟩ := h₁.issue r callback true
      exact .ok ⟨congrArg Submission.refreshing ht, h₁.tell _, hi⟩
    | blocking =>
      obtain ⟨ht, hi⟩ := h₁.issue r callback false
      exact .ok ⟨congrArg Submission.fetching ht, h₁.tell _, hi⟩

theorem submitOffline (h : Muffled off gone c c') (r : Request α ε) (callback : Nat) :
    Parallel (fun out out' => out'.1 = (out.1).filter (fun d => !gone d.callback) ∧
        Muffled off gone out.2 out'.2)
      (c.submitOffline r callback) (c'.submitOffline r callback) := by
  refine (h.fromCache r).bind ?_
  rintro ⟨hit, c₁⟩ ⟨hit', c₁'⟩ ⟨he, h₁⟩
  cases he
  cases hit with
  | none => exact .ok ⟨h₁.tell _, h₁⟩
  | some x => exact .ok ⟨h₁.tell _, h₁⟩

theorem land (h : Muffled off gone c c') (id : Nat) :
    Muffled off gone (c.land id) (c'.land id) where
  tiers := by
    rw [← h.tiers]
    rfl
  nextTicket := h.nextTicket
  flights := by
    intro id'
    simp only [Dispatcher.land, Table.get?_erase]
    split
    · rfl
    · exact h.flights id'
  dropped := h.dropped
  issued := h.issued

theorem announce (h : Muffled off gone c c') {x : Call α ε} {t : Ticket}
    (hx : x.completed? = some t) (f : Flight α ε) (n : News α ε) :
    c'.announce { f with cancelled := f.cancelled || off t.id } n =
      hush off gone x (c.announce f n) := by
  simp only [Dispatcher.announce, conclude, hush, hx, Option.any_some]
  cases off t.id with
  | true => simp only [Bool.or_true, if_true]
  | false =>
    simp only [Bool.or_false, Bool.false_eq_true, if_false]
    split
    · rfl
    · exact h.tell _

theorem complete (h : Muffled off gone c c') (t : Ticket) (reply : Reply) :
    Parallel (fun out out' => out'.1 = hush off gone (.complete t reply) out.1 ∧
        Muffled off gone out.2 out'.2)
      (c.complete t reply) (c'.complete t reply) := by
  rw [complete_eq, complete_eq, h.flights]
  cases c.flights.get? t.id with
  | none => exact .ok ⟨(ite_self []).symm, h⟩
  | some f =>
    have hsettle : (c'.land t.id).settle { f with cancelled := f.cancelled || off t.id } t reply =
        ((c.land t.id).settle f t reply).map fun out => (out.1, out.2.handling (c'.land t.id)) := by
      rw [← settle_handling, (h.land t.id).tiers]
      rfl
    simp only [Option.map_some, hsettle]
    cases hs : (c.land t.id).settle f t reply with
    | error fault => exact .error fault
    | ok out =>
      have hh := handling_of_map (settle_handling (c.land t.id) (c.land t.id) f t reply) hs
      exact .ok ⟨h.announce rfl f out.1, (h.land t.id).handling hh⟩

theorem fail (h : Muffled off gone c c') (t : Ticket) (failure : FetchFailure) :
    (c'.fail t failure).1 = hush off gone (.fail t failure) (c.fail t failure).1 ∧
      Muffled off gone (c.fail t failure).2 (c'.fail t failure).2 := by
  rw [fail_eq, fail_eq, h.flights]
  cases c.flights.get? t.id with
  | none => exact ⟨(ite_self []).symm, h⟩
  | some f => exact ⟨h.announce rfl f (failureNews f t failure), h.land t.id⟩

theorem cancel (h : Muffled off gone c c') (t : Ticket) :
    (c'.cancel t).1 = (c.cancel t).1 ∧ Muffled off gone (c.cancel t).2 (c'.cancel t).2 := by
  rw [Dispatcher.cancel, Dispatcher.cancel, h.flights]
  cases c.flights.get? t.id with
  | none => exact ⟨rfl, h⟩
  | some f =>
    refine ⟨rfl, ?_, h.nextTicket, fun id => ?_, h.dropped, h.issued⟩
    · rw [← h.tiers]
      rfl
    · simp only [Option.map_some, Table.get?_set]
      split
      · simp only [Option.map_some, Bool.true_or]
      · exact h.flights id

/-- A call that tells nobody and works on the tiers alone. -/
theorem of_tiers (h : Muffled off gone c c') (x : Call α ε) (returned : Returned α)
    (h₁ : c₁.handling c = c₁) :
    Parallel (Hushed off gone x) (.ok (returned, [], c₁)) (.ok (returned, [], c₁.handling c')) :=
  .ok ⟨rfl, (ite_self []).symm, h.handling h₁⟩

/-- A call does the same to both dispatchers, and tells less through the muffled one. -/
theorem report (h : Muffled off gone c c') {x : Call α ε} (hx : ∀ p now, x ≠ .reopen p now) :
    Parallel (Hushed off gone x) (c.report x) (c'.report x) := by
  cases x with
  | submit r callback =>
    refine (h.submit r callback).bind ?_
    rintro ⟨s, told, c₁⟩ ⟨s', told', c₁'⟩ ⟨hs, ht, h₁⟩
    exact .ok ⟨congrArg Returned.submission hs, ht, h₁⟩
  | submitOffline r callback =>
    refine (h.submitOffline r callback).bind ?_
    rintro ⟨told, c₁⟩ ⟨told', c₁'⟩ ⟨ht, h₁⟩
    exact .ok ⟨rfl, ht, h₁⟩
  | lookup r =>
    refine (h.lookup r).bind ?_
    rintro ⟨hit, c₁⟩ ⟨hit', c₁'⟩ ⟨hhit, h₁⟩
    exact .ok ⟨congrArg Returned.hit hhit, rfl, h₁⟩
  | complete t reply =>
    refine (h.complete t reply).bind ?_
    rintro ⟨told, c₁⟩ ⟨told', c₁'⟩ ⟨ht, h₁⟩
    exact .ok ⟨rfl, ht, h₁⟩
  | fail t failure =>
    obtain ⟨ht, h₁⟩ := h.fail t failure
    exact .ok ⟨rfl, ht, h₁⟩
  | cancel t =>
    obtain ⟨ht, h₁⟩ := h.cancel t
    exact .ok ⟨congrArg Returned.truth ht, (ite_self []).symm, h₁⟩
  | dropCallback callback =>
    refine .ok ⟨rfl, rfl, ⟨?_, h.nextTicket, h.flights, fun k => ?_, h.issued⟩⟩
    · rw [← h.tiers]
      rfl
    · simp only [Dispatcher.dropCallback, List.mem_cons, h.dropped, or_assoc]
  | reset =>
    refine .ok ⟨rfl, rfl, ⟨?_, h.nextTicket, fun _ => rfl, h.dropped, h.issued⟩⟩
    rw [← h.tiers]
    rfl
  | reopen p now => exact absurd rfl (hx p now)
  | _ =>
    rw [← h.tiers]
    exact h.of_tiers _ _ rfl

end Muffled

/-- Two dispatchers are the same but for who will be told. -/
structure Alike (c c' : Dispatcher α ε) : Prop where
  store : c'.store = c.store
  parsed : c'.parsed = c.parsed
  now : c'.now = c.now
  nextTicket : c'.nextTicket = c.nextTicket
  pending : c'.flights.keys.Perm c.flights.keys

theorem Muffled.alike (h : Muffled off gone c c') : Alike c c' where
  store := (congrArg Dispatcher.store h.tiers).symm
  parsed := (congrArg Dispatcher.parsed h.tiers).symm
  now := (congrArg Dispatcher.now h.tiers).symm
  nextTicket := h.nextTicket
  pending := by
    refine (List.perm_ext_iff_of_nodup c'.flights.nodup c.flights.nodup).mpr fun id => ?_
    show id ∈ c'.flights.keys ↔ id ∈ c.flights.keys
    simp only [Table.mem_keys_iff, h.flights, Option.map_eq_some_iff]
    constructor
    · rintro ⟨-, f, hf, -⟩
      exact ⟨f, hf⟩
    · rintro ⟨f, hf⟩
      exact ⟨_, f, hf, rfl⟩

/-- The same call of like dispatchers, with the same answer; of the second it is known what was
told. -/
structure Twin (heard : Moment α ε → List (Delivery α ε)) (m m' : Moment α ε) : Prop where
  call : m'.call = m.call
  before : Alike m.before m'.before
  returned : m'.returned = m.returned
  told : m'.told = heard m

/-- Two runs that differ in what is told alone. -/
def Apace (heard : Moment α ε → List (Delivery α ε))
    (run run' : List (Moment α ε) × Dispatcher α ε) : Prop :=
  List.Forall₂ (Twin heard) run.1 run'.1 ∧ Alike run.2 run'.2

theorem Muffled.twin (h : Muffled off gone c c') {x : Call α ε}
    (hx : ∀ p now, x ≠ .reopen p now) :
    Twin (fun m => hush off gone m.call m.told) ⟨c, x⟩ ⟨c', x⟩ := by
  have hr := h.report hx
  refine ⟨rfl, h.alike, ?_, ?_⟩
  · simp only [Moment.returned]
    generalize c.report x = out at hr ⊢
    generalize c'.report x = out' at hr ⊢
    cases hr with
    | error fault => rfl
    | ok hout => exact hout.1
  · simp only [Moment.told]
    generalize c.report x = out at hr ⊢
    generalize c'.report x = out' at hr ⊢
    cases hr with
    | error fault => exact (ite_self []).symm
    | ok hout => exact hout.2.1

/-- Muffled dispatchers go through the same states, call by call. -/
theorem Muffled.follow (h : Muffled off gone c c') {xs : List (Call α ε)}
    (hx : ∀ x ∈ xs, ∀ p now, x ≠ .reopen p now)
    (hp : List.Forall₂ (Twin fun m => hush off gone m.call m.told) past past') :
    Parallel (Apace fun m => hush off gone m.call m.told) (follow past c xs)
      (follow past' c' xs) := by
  induction xs generalizing past past' c c' with
  | nil => exact .ok ⟨hp, h.alike⟩
  | cons x xs ih =>
    have hcall : Parallel (Muffled off gone) (c.call x) (c'.call x) := by
      rw [call_eq_report, call_eq_report]
      exact (h.report (hx x List.mem_cons_self)).map fun _ _ hout => hout.2.2
    refine hcall.bind fun c₁ c₁' h₁ => ?_
    exact ih h₁ (fun y hy => hx y (List.mem_cons_of_mem x hy))
      (.cons (h.twin (hx x List.mem_cons_self)) hp)

theorem muffled_cancel {t : Ticket} (ht : t.id < c.nextTicket) :
    Muffled (fun id => id = t.id) (fun _ => false) c (c.cancel t).2 := by
  rw [cancel]
  cases hf : c.flights.get? t.id with
  | none =>
    refine ⟨rfl, rfl, fun id => ?_, by simp, by simp [ht]⟩
    by_cases he : id = t.id
    · simp only [he, hf, Option.map_none]
    · simp only [he, decide_false, Bool.or_false, Option.map_id']
  | some f =>
    refine ⟨rfl, rfl, fun id => ?_, by simp, by simp [ht]⟩
    rw [Table.get?_set]
    split
    · rename_i he
      simp only [he, hf, decide_true, Bool.or_true, Option.map_some]
    · rename_i he
      simp only [he, decide_false, Bool.or_false, Option.map_id']

theorem muffled_dropCallback (c : Dispatcher α ε) (callback : Nat) :
    Muffled (fun _ => false) (fun k => k = callback) c (c.dropCallback callback) where
  tiers := rfl
  nextTicket := rfl
  flights := fun id => by
    simp only [Bool.or_false, Option.map_id']
    rfl
  dropped := fun k => by
    simp only [dropCallback, List.mem_cons, decide_eq_true_eq]
    exact or_comm
  issued := nofun

theorem hush_cancelled (x : Call α ε) (id : Nat) (told : List (Delivery α ε)) :
    hush (fun i => i = id) (fun _ => false) x told = if x.completes id then [] else told := by
  simp only [hush, Bool.not_false, List.filter_true]
  rfl

theorem hush_dropped (x : Call α ε) (callback : Nat) (told : List (Delivery α ε)) :
    hush (fun _ => false) (fun k => k = callback) x told =
      told.filter fun d => d.callback ≠ callback := by
  have hany : (x.completed?.any fun _ => false) = false := by
    cases x.completed? <;> rfl
  simp only [hush, hany, Bool.false_eq_true, if_false, decide_not]

/-- Cancelling a ticket and dropping a callback go unnoticed, but for what is told at the completion
of that ticket and to that callback. -/
theorem silencing_unobserved (h : Reaches l v past c) (xs : List (Call α ε))
    (hx : ∀ x ∈ xs, ∀ p now, x ≠ .reopen p now) :
    (∀ t, c.flights.contains t.id = true →
      Parallel (Apace fun m => if m.call.completes t.id then [] else m.told)
        (follow [] c xs) (follow [] (c.cancel t).2 xs)) ∧
    ∀ callback, Parallel (Apace fun m => m.told.filter fun d => d.callback ≠ callback)
      (follow [] c xs) (follow [] (c.dropCallback callback) xs) := by
  refine ⟨fun t ht => ?_, fun callback => ?_⟩
  · rw [Table.contains, Option.isSome_iff_exists] at ht
    obtain ⟨f, hf⟩ := ht
    have hrun := (muffled_cancel (h.flight_lt t.id f hf)).follow hx .nil
    simp only [hush_cancelled] at hrun
    exact hrun
  · have hrun := (muffled_dropCallback c callback).follow hx .nil
    simp only [hush_dropped] at hrun
    exact hrun

/-- The reply to the note is told once, and not at all if its ticket was cancelled. -/
theorem silencing_unobserved_note : ∃ (past : List (Moment String String))
    (c : Dispatcher String String)
    (run run' : List (Moment String String) × Dispatcher String String),
    Reaches noteSetup.layout Volume.empty past c ∧
    c.flights.contains (⟨1, 7, "a", false⟩ : Ticket).id = true ∧
    follow [] c [.complete ⟨1, 7, "a", false⟩ noteReply] = .ok run ∧
    follow [] (c.cancel ⟨1, 7, "a", false⟩).2 [.complete ⟨1, 7, "a", false⟩ noteReply] =
      .ok run' ∧
    (run.1.flatMap Moment.told).length = 1 ∧
    Apace (fun m => if m.call.completes (⟨1, 7, "a", false⟩ : Ticket).id then [] else m.told)
      run run' := by
  obtain ⟨c₀, past, c, hstart, hc, hcheck⟩ := continues_of_trial noteSetup
    Volume.empty 1000 [.submit noteRequest 0]
    (fun _ c => c.flights.contains 1 = true ∧
      (follow [] c [.complete ⟨1, 7, "a", false⟩ noteReply]).toOption.any (fun run =>
        (run.1.flatMap Moment.told).length = 1) = true) (by simp) (by decide +kernel)
  obtain ⟨hin, hrun⟩ := of_decide_eq_true hcheck
  obtain ⟨run, hrun, htold⟩ := exists_of_any hrun
  have hreach := hc.reaches (l := noteSetup.layout) (fun _ hh => hh) hstart
  obtain ⟨run', hrun', hapace⟩ := ((silencing_unobserved hreach
    [.complete ⟨1, 7, "a", false⟩ noteReply] (by simp)).1 ⟨1, 7, "a", false⟩ hin).of_ok hrun
  exact ⟨past, c, run, run', hreach, hin, hrun, hrun', of_decide_eq_true htold, hapace⟩

end TierCache.Dispatcher
