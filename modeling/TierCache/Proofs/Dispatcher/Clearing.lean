import TierCache.Proofs.Cache.Clearing
import TierCache.Proofs.Dispatcher.Serving
import TierCache.Proofs.Dispatcher.Steady

/-!
# Clearing by a predicate

The tiers in memory know a key in its normalized form. The record on disk has that form inside, and
it is normalized once more before the predicate sees it. Where the predicate decides both alike,
all that it accepts is gone, also for a dispatcher that is made again, and all else is found as
before. A key with two size tags loses one of them each time it is normalized, so a predicate on its
sizes may accept the key and keep the record.
-/
namespace TierCache.Dispatcher

variable {α ε : Type} {l : Layout} {v : Volume} {past : List (Moment α ε)}
variable {c c' : Dispatcher α ε} {r : Request α ε}

/-- A record was made for a request that was asked for, and has its normalized key inside. -/
def keyed (past : List (Moment α ε)) : Clauses α where
  store :=
    { shows := fun _ _ => True
      records := fun _ d x => ∃ q, Asked past q ∧ x.key = Key.normalize q.key ∧ .ofKey x.key = d }
  parsed := fun _ _ => True

theorem serves_keyed (r : Request α ε) : (keyed past).Serves r :=
  ⟨fun _ _ => trivial, fun _ _ _ _ _ => trivial⟩

theorem Steady.keyed (hv : l.Blank v) (h : Steady l v past c) :
    Keeps l v.free (keyed past) c := by
  refine h.keeps_of hv.usable (fun past m => ⟨fun _ _ => id, ?_, fun _ _ => id⟩)
    fun past c x h => ?_
  · rintro f d x ⟨q, hq, hkey⟩
    exact ⟨q, hq.cons m, hkey⟩
  · cases x with
    | complete t reply =>
      intro f value hf _ _
      obtain ⟨q, hi, hq⟩ := (h.traced hv).flights t.id f hf
      refine ⟨fun _ => trivial, fun _ => ⟨q, hi.asked.cons _, ?_, rfl⟩, fun _ => trivial⟩
      rw [← hq.key]
      rfl
    | submit r callback => exact serves_keyed r
    | submitOffline r callback => exact serves_keyed r
    | lookup r => exact serves_keyed r
    | clearResident => exact fun _ _ _ => trivial
    | _ => trivial

/-- The key in a record is the one that its digest was made of, as far as that is unique. -/
theorem accepts_keyed {key : String} {m : String → Bool} {f : Family} {x : Record}
    {bytes : List UInt8} (hx : (keyed past).store.records f (.ofKey key) x)
    (hone : ∀ q, Asked past q → Digest.ofKey (Key.normalize q.key) = .ofKey key →
      Key.normalize q.key = key) (henc : Record.kind.encode x = .ok bytes) :
    (Record.kind.storedKey bytes).any (fun k => m (Key.normalize k)) = m (Key.normalize key) := by
  obtain ⟨q, hq, hkey, hd⟩ := hx
  have hkind : Record.kind.storedKey bytes = some x.key := Record.storedKey_of_encode henc
  rw [hkey] at hd
  rw [hkind, hkey, hone q hq hd]
  rfl

/-- With nothing parsed and nothing stored, a look-up answers nothing. -/
theorem lookup_none (hp : c.parsed.entries.get? (Key.normalize r.key) = none)
    (hs : ∃ s, c.store.find r.key r.policy.family = .ok (none, s)) :
    ∃ c', c.lookup r = .ok (none, c') := by
  obtain ⟨s, hs⟩ := hs
  have hparsed : ∃ parsed, c.parsedHit r = (none, { c with parsed }) := by
    rw [parsedHit]
    split
    · have hget : (Parsed.get c.parsed r.parser.accepts r.key).1 = none := by
        simp only [Parsed.get, Resident.get, hp]
        rfl
      refine ⟨(Parsed.get c.parsed r.parser.accepts r.key).2, ?_⟩
      simp only [hget]
      rfl
    · exact ⟨c.parsed, rfl⟩
  obtain ⟨parsed, hparsed⟩ := hparsed
  rw [lookup]
  split
  · simp only [fromCache, hparsed, storedHit, hs]
    exact ⟨_, rfl⟩
  · exact ⟨_, rfl⟩

/-- What a predicate accepts is gone once it has been cleared, and does not come back with the
stores; what it rejects is found as before. The predicate decides the key as it is normalized once
and twice alike, and no other key has its digest. -/
theorem clearIf_exact (hv : l.Blank v) (h : Steady l v past c) (r : Request α ε) (m : String → Bool)
    (hone : ∀ q, Asked past q → Digest.ofKey (Key.normalize q.key) = .ofKey (Key.normalize r.key) →
      Key.normalize q.key = Key.normalize r.key)
    (hm : m (Key.normalize (Key.normalize r.key)) = m (Key.normalize r.key)) :
    (m (Key.normalize r.key) = true → (∃ c', (c.clearIf m).2.lookup r = .ok (none, c')) ∧
      ∀ (p : Setup) now (c₁ : Dispatcher α ε), p.layout = l →
        p.start (c.clearIf m).2.store.volume now = .ok c₁ →
          ∃ c', c₁.lookup r = .ok (none, c')) ∧
    (m (Key.normalize r.key) = false → ∀ found s,
      c.store.find r.key r.policy.family = .ok (found, s) →
        ∃ s', (c.clearIf m).2.store.find r.key r.policy.family = .ok (found, s')) := by
  have hk := h.keyed hv
  refine ⟨fun haccepts => ?_, fun hrejects found s hfind => ?_⟩
  · -- the record is judged by the key in it, normalized again
    have hleft := hk.store.removed haccepts fun f x bytes hx henc => by
      rw [accepts_keyed hx hone henc, hm, haccepts]
    have unseen : ∀ {c₁ : Dispatcher α ε}, c₁.store.Upholds Record.kind l v.free
        ⟨fun k _ => k ≠ Key.normalize r.key, fun _ d _ => d ≠ .ofKey (Key.normalize r.key)⟩ →
        c₁.parsed.entries.get? (Key.normalize r.key) = none →
          ∃ c', c₁.lookup r = .ok (none, c') := fun hu hp =>
      lookup_none hp (hu.find_none (fun _ hs => hs rfl) fun _ hr => hr rfl)
    refine ⟨unseen hleft rfl, ?_⟩
    rintro p now c₁ rfl hstart
    obtain ⟨store, hs, rfl⟩ := start_ok hstart
    obtain ⟨a, w, hopened, rfl⟩ := Cache.build_ok hs
    exact unseen (hleft.reopened hopened _ _) rfl
  · refine hk.store.find_removeIf hk.owned hrejects (fun x bytes hx henc => ?_) hfind
    rw [accepts_keyed hx hone henc, hm, hrejects]

/-- The note of one size, kept on disk whatever the capacity. -/
def sizedNote : Request String String :=
  ({ noteRequest with
    key := "x"
    policy := { noteRequest.policy with alwaysRetain := true } }).withSize 3 4

/-- A size variant of that. -/
def resizedNote : Request String String := sizedNote.withSize 1 2

def sizedCalls (r : Request String String) : List (Call String String) :=
  [.submit r 0, .complete ⟨1, 7, r.key, false⟩ noteReply]

/-- Clearing by the bare key removes the note of one size. -/
theorem clearIf_exact_sizedNote : ∃ (past : List (Moment String String))
    (c : Dispatcher String String), noteSetup.layout.Blank Volume.empty ∧
    Steady noteSetup.layout Volume.empty past c ∧ (∀ q, Asked past q → q = sizedNote) ∧
    holdsAny ["x"] (Key.normalize (Key.normalize sizedNote.key)) =
      holdsAny ["x"] (Key.normalize sizedNote.key) ∧
    c.value? sizedNote = some "hi" ∧
    ∃ c', (c.clearIf (holdsAny ["x"])).2.lookup sizedNote = .ok (none, c') := by
  have hrun : passes noteSetup Volume.empty 1000 (sizedCalls sizedNote)
    (fun c => c.value? sizedNote = some "hi") = true := by decide +kernel
  obtain ⟨past, c, hc, hasked, hvalue⟩ := steady_of_passes hrun (by simp [sizedCalls])
  have hasked : ∀ q, Asked past q → q = sizedNote := by
    intro q hq
    have he : sizedNote = q := by simpa [sizedCalls, Call.request?] using hasked q hq
    exact he.symm
  have hm : holdsAny ["x"] (Key.normalize (Key.normalize sizedNote.key)) =
    holdsAny ["x"] (Key.normalize sizedNote.key) := by decide +kernel
  exact ⟨past, c, Layout.blank_store, hc, hasked, hm, of_decide_eq_true hvalue,
    ((clearIf_exact Layout.blank_store hc sizedNote (holdsAny ["x"])
      (fun q hq _ => by rw [hasked q hq]) hm).1 (by decide +kernel)).1⟩

/-- Clearing by the inner size accepts the key of the note of two sizes, and leaves its record. -/
theorem clearIf_resizedNote : ∃ (past : List (Moment String String))
    (c : Dispatcher String String) (x : Hit String) (c' : Dispatcher String String),
    noteSetup.layout.Blank Volume.empty ∧ Steady noteSetup.layout Volume.empty past c ∧
    (∀ q, Asked past q → q = resizedNote) ∧
    holdsAny ["#W3"] (Key.normalize resizedNote.key) = true ∧
    (c.clearIf (holdsAny ["#W3"])).2.lookup resizedNote = .ok (some x, c') ∧ x.value = "hi" := by
  have hrun : passes noteSetup Volume.empty 1000 (sizedCalls resizedNote)
    (fun c => (c.clearIf (holdsAny ["#W3"])).2.value? resizedNote = some "hi") = true := by
    decide +kernel
  obtain ⟨past, c, hc, hasked, hvalue⟩ := steady_of_passes hrun (by simp [sizedCalls])
  obtain ⟨x, c', hl, hx⟩ := lookup_of_value? (of_decide_eq_true hvalue)
  refine ⟨past, c, x, c', Layout.blank_store, hc, fun q hq => ?_, by decide +kernel, hl, hx⟩
  have he : resizedNote = q := by simpa [sizedCalls, Call.request?] using hasked q hq
  exact he.symm

end TierCache.Dispatcher
