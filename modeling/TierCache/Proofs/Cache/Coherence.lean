import TierCache.Proofs.Cache.Terms

/-!
# The tiers of a cache are coherent

No look-up returns a value that a later one has taken the place of. Old values of a key do stay
behind, in the overflow tier while the new one is in memory; but what a look-up comes upon, in
whichever tier, is what was put last.
-/
namespace TierCache

open Disk

variable {α : Type}

/-- How a cache is made, and made again over the same directory. -/
structure Design (α : Type) where
  kind : ValueKind α
  memoryCapacity : Nat
  overflowWindow : Nat
  layout : Layout

def Design.build (p : Design α) (v : Volume) : Except Fault (Cache α) := do
  let (archive, v) ← p.layout.start v
  return .new p.kind p.memoryCapacity p.overflowWindow archive v

inductive Call (α : Type) where
  | put (key : String) (v : Shared α) (placement : Placement)
  | putCosting (key : String) (v : Shared α) (cost : Nat) (placement : Placement)
  | find (key : String) (family : Family)
  | remove (key : String)
  | removeIf (p : String → Bool)
  | clear
  | sweep
  | dropWindow
  | resizeMemory (capacity : Nat)
  /-- A caller begins to use a value, or ends. -/
  | hold (id : Nat)
  | release (id : Nat)
  /-- The clock of the volume is set, forwards or backwards. -/
  | setTime (now : Int)
  /-- The cache is made again over its directory, with nothing in memory. -/
  | reopen

namespace Cache

def call (p : Design α) (c : Cache α) : Call α → Except Fault (Cache α)
  | .put key v placement => c.put key v placement
  | .putCosting key v cost placement => c.putCosting key v cost placement
  | .find key family => return (← c.find key family).2
  | .remove key => .ok (c.remove key)
  | .removeIf q => .ok (c.removeIf q).2
  | .clear => .ok c.clear
  | .sweep => .ok c.sweep.2
  | .dropWindow => .ok c.dropWindow
  | .resizeMemory capacity => .ok (c.resizeMemory capacity)
  | .hold id => .ok (c.hold id)
  | .release id => .ok (c.release id)
  | .setTime now => .ok { c with volume := { c.volume with clock := now } }
  | .reopen => p.build c.volume

/-- A put goes to the disk, to one family, and its write is committed. -/
def Commits (c : Cache α) (key : String) (value : α) (placement : Placement) (family : Family) :
    Prop :=
  ∃ retention bytes, placement = .disk family retention ∧ c.kind.encode value = .ok bytes ∧
    ((c.archive.get family).put c.volume (Digest.ofKey (Key.normalize key)) bytes retention).1 =
      .committed

/-- A put has its value encoded, and its write is committed. -/
def commits (c : Cache α) (key : String) (value : α) : Placement → Bool
  | .memory => false
  | .disk f r => (c.kind.encode value).toOption.any fun bytes =>
    ((c.archive.get f).put c.volume (.ofKey (Key.normalize key)) bytes r).1 = .committed

theorem commits_of_eq_true {c : Cache α} {key : String} {value : α} {f : Family} {r : Retention}
    (h : c.commits key value (.disk f r) = true) : c.Commits key value (.disk f r) f := by
  obtain ⟨bytes, henc, hput⟩ := exists_of_any h
  exact ⟨r, bytes, rfl, henc, of_decide_eq_true hput⟩

/-- The keys of a call are among those used, and what it puts is committed to the family of its
key. -/
def Admits (family : String → Family) (used : String → Prop) (c : Cache α) : Call α → Prop
  | .put key v placement | .putCosting key v _ placement =>
    used (Key.normalize key) ∧ c.Commits key v.value placement (family (Key.normalize key))
  | .find key _ | .remove key => used (Key.normalize key)
  | _ => True

/-- The caches that runs from a volume lead to, with the calls made, latest first. -/
inductive Reaches (p : Design α) (family : String → Family) (used : String → Prop) (v : Volume) :
    List (Call α) → Cache α → Prop where
  | start {c : Cache α} (h : p.build v = .ok c) : Reaches p family used v [] c
  | step {calls : List (Call α)} {c c' : Cache α} {x : Call α} (h : Reaches p family used v calls c)
      (hx : c.Admits family used x) (hc : c.call p x = .ok c') :
      Reaches p family used v (x :: calls) c'

/-- The value of a key put last, unless it was removed since. -/
def lastPut (key : String) : List (Call α) → Option α
  | [] => none
  | .put key' v _ :: calls | .putCosting key' v _ _ :: calls =>
    if key = Key.normalize key' then some v.value else lastPut key calls
  | .remove key' :: calls => if key = Key.normalize key' then none else lastPut key calls
  | .clear :: _ => none
  | _ :: calls => lastPut key calls

/-- A record holds what its key was given last. -/
def Recorded (p : Design α) (family : String → Family) (used : String → Prop)
    (last : String → Option α) (f : Family) (d : Digest) (bytes : List UInt8) : Prop :=
  ∃ k x, used k ∧ Digest.ofKey k = d ∧ family k = f ∧ last k = some x ∧ p.kind.encode x = .ok bytes

/-- What keys were given last, with one key given something else. -/
def revise (last : String → Option α) (key : String) (x : Option α) : String → Option α :=
  fun k => if k = key then x else last k

/-- Nothing but what was put last is shown, and recorded in the family of its key. -/
def lastTerms (family : String → Family) (used : String → Prop) (last : String → Option α) :
    Terms α where
  shows := fun k x => last k = some x
  records := fun f d x => ∃ k, used k ∧ Digest.ofKey k = d ∧ family k = f ∧ last k = some x

/-- What a cache shows in memory, and what it has on disk, is what was put last. -/
structure Coherent (p : Design α) (family : String → Family) (used : String → Prop)
    (free : Option Nat) (last : String → Option α) (c : Cache α) : Prop where
  kind_eq : c.kind = p.kind
  free_eq : c.volume.free = free
  seen : ∀ k x, shown c.memory c.overflow k = some x → last k = some x
  stocked : c.archive.Stocked (p.layout.sites free) (Recorded p family used last) c.volume

variable {p : Design α} {family : String → Family} {used : String → Prop} {free : Option Nat}
variable {last last' : String → Option α} {c c' : Cache α} {key : String}

@[simp] theorem revise_self (last : String → Option α) (key : String) (x : Option α) :
    revise last key x key = x := if_pos rfl

theorem revise_of_ne {k : String} (h : k ≠ key) (last : String → Option α) (x : Option α) :
    revise last key x k = last k := if_neg h

/-- A coherent cache is one that upholds the terms of what was put last. -/
theorem coherent_iff : Coherent p family used free last c ↔
    c.Upholds p.kind p.layout free (lastTerms family used last) := by
  have recorded : ∀ f d bytes, Recorded p family used last f d bytes ↔
      (lastTerms family used last).Encoded p.kind f d bytes := by
    intro f d bytes
    constructor
    · rintro ⟨k, x, hk, hd, hf, hl, he⟩
      exact ⟨x, ⟨k, hk, hd, hf, hl⟩, he⟩
    · rintro ⟨x, ⟨k, hk, hd, hf, hl⟩, he⟩
      exact ⟨k, x, hk, hd, hf, hl, he⟩
  constructor
  · intro h
    exact ⟨h.kind_eq, h.free_eq, h.seen, h.stocked.mono fun f d b => (recorded f d b).mp⟩
  · intro h
    exact ⟨h.kind_eq, h.free_eq, h.seen, h.stocked.mono fun f d b => (recorded f d b).mpr⟩

/-- What another key was given is not touched. -/
theorem lastTerms_revise {k : String} {y : α} (hk : k ≠ key) (x : Option α)
    (h : (lastTerms family used last).shows k y) :
    (lastTerms family used (revise last key x)).shows k y :=
  (revise_of_ne hk last x).trans h

/-- The records of other digests, and those of other families, are not touched. -/
theorem records_revise {f : Family} {d : Digest} {y : α} (hne : d ≠ .ofKey key ∨ f ≠ family key)
    (x : Option α) (h : (lastTerms family used last).records f d y) :
    (lastTerms family used (revise last key x)).records f d y := by
  obtain ⟨k, hk, hd, hf, hl⟩ := h
  refine ⟨k, hk, hd, hf, ?_⟩
  rw [revise_of_ne _ last x, hl]
  rintro rfl
  cases hne with
  | inl hne => exact hne hd.symm
  | inr hne => exact hne hf.symm

@[simp] theorem memory_writeRecord (c : Cache α) (key : String) (x : α) (f : Family)
    (r : Retention) :
    (c.writeRecord key x f r).memory = c.memory := (c.tiers_writeRecord key x f r).2.1

namespace Coherent

/-- A look-up comes upon what was put last, in whichever tier, and leaves all as coherent. -/
theorem find (h : Coherent p family used free last c)
    (hu : ∀ k k', used k → used k' → Digest.ofKey k = Digest.ofKey k' → k = k')
    (hd : ∀ x bytes, p.kind.encode x = .ok bytes → p.kind.decode bytes = .ok x)
    (hk : used (Key.normalize key)) {f : Family} {found : Option (Shared α)}
    (hc : c.find key f = .ok (found, c')) :
    Coherent p family used free last c' ∧
      ∀ v, found = some v → last (Key.normalize key) = some v.value := by
  have ht : (lastTerms family used last).Reads (Key.normalize key) f := by
    rintro x ⟨k, hk', hdig, -, hl⟩
    rwa [hu k _ hk' hk hdig] at hl
  obtain ⟨h', hs⟩ := (coherent_iff.mp h).find hd ht hc
  exact ⟨coherent_iff.mpr h', hs⟩

/-- What is put takes the place of what its key was given before. -/
theorem putCosting (h : Coherent p family used free last c) {v : Shared α} {cost : Nat}
    {placement : Placement} (hk : used (Key.normalize key))
    (hcom : c.Commits key v.value placement (family (Key.normalize key)))
    (hc : c.putCosting key v cost placement = .ok c') :
    Coherent p family used free (revise last (Key.normalize key) (some v.value)) c' := by
  obtain ⟨r, bytes, rfl, henc, hout⟩ := hcom
  rw [h.kind_eq] at henc
  refine coherent_iff.mpr ((coherent_iff.mp h).putCosting_replacing henc (by simp [hout])
    (fun k x hne => lastTerms_revise hne _) (fun g d x hne => records_revise hne _)
    (revise_self last _ _) ⟨_, hk, rfl, rfl, revise_self last _ _⟩ hc)

theorem remove (h : Coherent p family used free last c) (key : String) :
    Coherent p family used free (revise last (Key.normalize key) none) (c.remove key) :=
  coherent_iff.mpr ((coherent_iff.mp h).remove key (fun _ _ hne => lastTerms_revise hne _)
    fun _ _ _ hne => records_revise (.inl hne) _)

theorem removeIf (h : Coherent p family used free last c) (q : String → Bool) :
    Coherent p family used free last (c.removeIf q).2 :=
  coherent_iff.mpr ((coherent_iff.mp h).removeIf q (fun _ _ _ hs => hs) fun _ _ _ _ _ _ hr => hr)

theorem clear (h : Coherent p family used free last c) :
    Coherent p family used free (fun _ => none) c.clear :=
  coherent_iff.mpr (coherent_iff.mp h).clear

end Coherent

theorem build_ok {v : Volume} (h : p.build v = .ok c) : ∃ a w, p.layout.start v = .ok (a, w) ∧
    c = .new p.kind p.memoryCapacity p.overflowWindow a w := by
  simp only [Design.build] at h
  obtain ⟨r, hr, h⟩ := bind_eq_ok_iff.mp h
  cases h
  exact ⟨r.1, r.2, hr, rfl⟩

/-- Every call keeps its cache coherent with what was put last. -/
theorem Coherent.step {calls : List (Call α)} {x : Call α}
    (hu : ∀ k k', used k → used k' → Digest.ofKey k = Digest.ofKey k' → k = k')
    (hd : ∀ x bytes, p.kind.encode x = .ok bytes → p.kind.decode bytes = .ok x)
    (h : Coherent p family used free (fun k => lastPut k calls) c) (hx : c.Admits family used x)
    (hc : c.call p x = .ok c') :
    Coherent p family used free (fun k => lastPut k (x :: calls)) c' := by
  cases x with
  | put key v placement => exact h.putCosting hx.1 hx.2 hc
  | putCosting key v cost placement => exact h.putCosting hx.1 hx.2 hc
  | find key f =>
    obtain ⟨r, hr, hc⟩ := bind_eq_ok_iff.mp hc
    cases hc
    exact (h.find hu hd hx hr).1
  | remove key =>
    cases hc
    exact h.remove key
  | removeIf q =>
    cases hc
    exact h.removeIf q
  | clear =>
    cases hc
    exact h.clear
  | sweep =>
    cases hc
    exact coherent_iff.mpr (coherent_iff.mp h).sweep
  | dropWindow =>
    cases hc
    exact coherent_iff.mpr ((coherent_iff.mp h).of_tiers rfl rfl rfl h.seen)
  | resizeMemory capacity =>
    cases hc
    exact coherent_iff.mpr ((coherent_iff.mp h).resizeMemory capacity)
  | hold id =>
    cases hc
    exact coherent_iff.mpr ((coherent_iff.mp h).of_tiers rfl rfl rfl h.seen)
  | release id =>
    cases hc
    exact coherent_iff.mpr ((coherent_iff.mp h).of_tiers rfl rfl rfl h.seen)
  | setTime now =>
    cases hc
    exact coherent_iff.mpr ((coherent_iff.mp h).setTime now)
  | reopen =>
    obtain ⟨a, w, hstart, rfl⟩ := build_ok hc
    exact coherent_iff.mpr ((coherent_iff.mp h).reopened hstart _ _)

/-- Every run keeps its cache coherent with what was put last. -/
theorem Reaches.coherent {v : Volume} {calls : List (Call α)}
    (hu : ∀ k k', used k → used k' → Digest.ofKey k = Digest.ofKey k' → k = k')
    (hd : ∀ x bytes, p.kind.encode x = .ok bytes → p.kind.decode bytes = .ok x)
    (hv : p.layout.Usable v) (h : Reaches p family used v calls c) :
    Coherent p family used v.free (fun k => lastPut k calls) c := by
  induction h with
  | start hc =>
    obtain ⟨a, w, hstart, rfl⟩ := build_ok hc
    exact coherent_iff.mpr (.started hv hstart _ _ _)
  | step _ hx hc ih => exact ih.step hu hd hx hc

/-- A look-up returns the value of its key that was put last, or nothing, whichever tier answers
and in whichever family it looks; and nothing if the key was removed since. -/
theorem find_lastPut {v : Volume} {calls : List (Call α)}
    (hu : ∀ k k', used k → used k' → Digest.ofKey k = Digest.ofKey k' → k = k')
    (hd : ∀ x bytes, p.kind.encode x = .ok bytes → p.kind.decode bytes = .ok x)
    (hv : p.layout.Usable v) (h : Reaches p family used v calls c)
    (hk : used (Key.normalize key)) {f : Family} {w : Shared α}
    (hc : c.find key f = .ok (some w, c')) :
    lastPut (Key.normalize key) calls = some w.value :=
  ((h.coherent hu hd hv).find hu hd hk hc).2 w rfl

/-- Values that are bytes, stored as they are. -/
def plainBytes : ValueKind (List UInt8) where
  encode := .ok
  decode := .ok
  storedKey := fun _ => none
  cost := List.length

def storeDesign : Design (List UInt8) where
  kind := plainBytes
  memoryCapacity := 10
  overflowWindow := 2
  layout := .single ⟨["store"]⟩ 1 100

/-- Two values are put under one key. -/
def firstPut : Call (List UInt8) := .put "a" ⟨7, [1, 2]⟩ (.disk .general .normal)

def secondPut : Call (List UInt8) := .put "a" ⟨8, [3]⟩ (.disk .general .normal)

/-- Both puts are committed, the cache is made again, and something is found. -/
def putsTwice : Bool :=
  (storeDesign.build Volume.empty).toOption.any fun c₀ =>
    c₀.commits "a" [1, 2] (.disk .general .normal) &&
    (c₀.call storeDesign firstPut).toOption.any fun c₁ =>
      c₁.commits "a" [3] (.disk .general .normal) &&
      (c₁.call storeDesign secondPut).toOption.any fun c₂ =>
        (c₂.call storeDesign .reopen).toOption.any fun c₃ =>
          (c₃.find "a" .general).toOption.any fun r => r.1.isSome

/-- The value that was put second is found, also where it has to come from the disk. -/
theorem find_lastPut_store : ∃ c c' w,
    Reaches storeDesign (fun _ => .general) (· = "a") Volume.empty
      [.reopen, secondPut, firstPut] c ∧
    c.find "a" .general = .ok (some w, c') ∧ w.value = [3] ∧
    lastPut "a" [.reopen, secondPut, firstPut] = some w.value := by
  have hkey : Key.normalize "a" = "a" := by decide
  have hputs : putsTwice = true := by decide +kernel
  obtain ⟨c₀, hbuild, h⟩ := exists_of_any hputs
  obtain ⟨hcommits, h⟩ := Bool.and_eq_true_iff.mp h
  obtain ⟨c₁, hfirst, h⟩ := exists_of_any h
  obtain ⟨hcommits', h⟩ := Bool.and_eq_true_iff.mp h
  obtain ⟨c₂, hsecond, h⟩ := exists_of_any h
  obtain ⟨c, hreopen, h⟩ := exists_of_any h
  obtain ⟨⟨hit, c'⟩, hfind, h⟩ := exists_of_any h
  obtain ⟨w, rfl⟩ := Option.isSome_iff_exists.mp h
  have hadmits : c₀.Admits (fun _ => .general) (· = "a") firstPut :=
    ⟨hkey, commits_of_eq_true hcommits⟩
  have hadmits' : c₁.Admits (fun _ => .general) (· = "a") secondPut :=
    ⟨hkey, commits_of_eq_true hcommits'⟩
  have hadmits'' : c₂.Admits (fun _ => .general) (· = "a") .reopen := trivial
  have hreach := (((Reaches.start hbuild).step hadmits hfirst).step hadmits' hsecond).step
    hadmits'' hreopen
  have hlast := find_lastPut (fun k k' hk hk' _ => hk.trans hk'.symm)
    (fun x bytes hx => by cases hx; rfl) Layout.usable_store hreach hkey hfind
  rw [hkey] at hlast
  have hthree : lastPut "a" [.reopen, secondPut, firstPut] = some [3] := by decide
  refine ⟨c, c', w, hreach, hfind, ?_, hlast⟩
  rw [hlast] at hthree
  exact Option.some.inj hthree

end Cache

end TierCache
