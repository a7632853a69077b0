import Mathlib.Data.List.Range
import Crossync.Core.RawMutexExclusion
import Crossync.Core.RawMutexHolds
import Crossync.Core.SerialExact
import Crossync.Core.SerialHolds
import Crossync.Atomic.HashMapShared

/-!
# The locks of a shared `AtomicHashMap`

Which thread owns what of the shard locks and of the slot mutexes, at every program point. A call
owns the lock of one shard at most, shared (`shares`) or exclusively (`seals`), and its holds on
slot mutexes are `hands`: the one of the slot it is in, or those that `try_detach` has taken so far.
Returned guards keep their holds and nothing else.

`Mine` states this for one thread, `Sound` what holds of the locks themselves, and `reach_locks`
that both hold along every run. Two consequences carry everything else: a call that holds a slot for
writing is alone in it, with no guard live (`Locks.sole`), and a call that holds a shard exclusively
is the only one in the shard (`Locks.alone`).

## Three kinds of ownership

* A **share** of a shard, from the acquisition to the release (`Pc.shares`).
* The **exclusive section** of a shard, which only `clear` has (`Pc.seals`).
* **Holds** on slots (`Pc.hands`): the slot a visit is in, the slots that `try_detach` has taken so
  far, and the slots of the returned guards.

## How a step is proved

`Stands` says of a program point what it owns, once and for all: one lemma for each function that
computes a next program point. A step of the map's own code changes no lock, so it goes from one
such point to another that owns the same. A step inside a lock goes through the interface of that
lock. And what other threads own is theirs: `Spares` says that a step leaves it alone.

`Locks.alone` is the consequence that the other modules use most: an exclusive section excludes
every share.
-/

open Interleave Linked

namespace Crossync

namespace AtomicHashMap

namespace Shared

variable {ι K V : Type*} [DecidableEq ι]

/-! ### What a program point owns

Read off the program point alone: shares of a shard, an exclusive section, holds on slots. -/

/-- The holds for writing of `t` on the slots from `j` up to `n`. -/
def taken (t : ι) (i j n : ℕ) : List (Hold ι) :=
  (List.range' j (n - j)).map fun k ↦ ⟨i, k, false, t⟩

omit [DecidableEq ι] in
/-- No slot is in the range once its lower end has reached the upper one. -/
theorem taken_of_le (t : ι) {i j n : ℕ} (h : n ≤ j) : taken t i j n = [] := by
  rw [taken, Nat.sub_eq_zero_of_le h]
  rfl

omit [DecidableEq ι] in
theorem taken_cons (t : ι) {i j n : ℕ} (h : j < n) :
    taken t i j n = ⟨i, j, false, t⟩ :: taken t i (j + 1) n := by
  obtain ⟨k, hk⟩ : ∃ k, n - j = k + 1 := ⟨n - j - 1, by omega⟩
  rw [taken, taken, hk, List.range'_succ, List.map_cons, show n - (j + 1) = k by omega]

omit [DecidableEq ι] in
/-- Taking the lock of slot `n` adds it at the end, which is how the acquiring loop proceeds. -/
theorem taken_snoc (t : ι) (i n : ℕ) :
    taken t i 0 (n + 1) = taken t i 0 n ++ [⟨i, n, false, t⟩] := by
  rw [taken, taken, Nat.sub_zero, Nat.sub_zero, List.range'_concat, List.map_append]
  simp

omit [DecidableEq ι] in
/-- The exclusive holds of the slots from `j` up to `n`, and no others, are in the list. -/
theorem mem_taken {t : ι} {i j n : ℕ} {h : Hold ι} :
    h ∈ taken t i j n ↔ ∃ k, j ≤ k ∧ k < n ∧ h = ⟨i, k, false, t⟩ := by
  rw [taken, List.mem_map]
  constructor
  · rintro ⟨k, hk, rfl⟩
    rw [List.mem_range'_1] at hk
    exact ⟨k, hk.1, by omega, rfl⟩
  · rintro ⟨k, h₁, h₂, rfl⟩
    exact ⟨k, by rw [List.mem_range'_1]; omega, rfl⟩

/-- The hold that an operation of a slot mutex takes or gives back. -/
def Next.hold (t : ι) : Next ι K V → Hold ι
  | .locked v | .unlocked v _ => v.hold t
  | .dropped g => g.hold
  | .attempt i j | .backOut i j _ _ | .detached i j _ => ⟨i, j, false, t⟩

omit [DecidableEq ι] in
/-- The slot a pending call is about is the slot of the hold that the call leads to. -/
theorem Next.target_eq (t : ι) (k : Next ι K V) :
    k.target = ((k.hold t).shard, (k.hold t).slot) := by
  cases k <;> rfl

/-- The shard that the caller of a slot mutex holds shared, or exclusively. -/
def Next.shares : Next ι K V → Option ℕ
  | .locked v | .unlocked v _ => some v.shard
  | _ => none

def Next.seals : Next ι K V → Option ℕ
  | .attempt i _ | .backOut i _ _ _ | .detached i _ _ => some i
  | _ => none

/-- The shard that a program point outside of the shard locks holds shared. -/
def Pc.shares : Pc ι K V → Option ℕ
  | .shard _ _ => none
  | .slot _ k => k.shares
  | .loadHead v | .walk v _ _ | .replace v _ _ | .newEntry v _ _ | .linkEntry v _ | .countUp v
  | .unlinkLoad v _ _ | .unlinkStore v _ _ _ | .countDown v _ | .freeEntry v _ _ => some v.shard
  | .lenLoad i _ | .inspect i _ => some i
  | .owned _ _ | .detachSwap _ _ _ | .detachCount _ _ _ _ _ _ | .detachSub _ _ _ _ _
  | .dropChains _ _ => none

/-- The shard that it holds exclusively. -/
def Pc.seals : Pc ι K V → Option ℕ
  | .slot _ k => k.seals
  | .owned i _ | .detachSwap i _ _ | .detachCount i _ _ _ _ _ | .detachSub i _ _ _ _ => some i
  | _ => none

/-- Shared acquisitions of the lock of shard `i`. -/
def Pc.pinned (i : ℕ) : Pc ι K V → ℕ
  | .shard p k => if k.target = i then (RawMutex.phase p).pins else 0
  | p => if p.shares = some i then 1 else 0

/-- Exclusive acquisitions of the lock of shard `i`. -/
def Pc.sealed (i : ℕ) : Pc ι K V → ℕ
  | .shard p k => if k.target = i then (RawMutex.phase p).seals else 0
  | p => if p.seals = some i then 1 else 0

/-- The hold that a release has not given back yet. -/
def stillHeld (h : Hold ι) : SerialMutex.Phase ι → List (Hold ι)
  | .release _ _ => [h]
  | _ => []

/-- The hold that a shard release leaves to its call. -/
def After.kept : After ι K V → List (Hold ι)
  | .guard g => [g.hold]
  | _ => []

/-- The phases of a shard lock that a continuation may wait for. No writer ever parks on a shard
lock, so a shared release wakes nobody and is over with its one access. -/
def After.Expects : After ι K V → RawMutex.Phase → Prop
  | .visit _, ph | .len _ _, ph | .inspect _, ph => ph = .acquire
  | .attempt _, ph => ph = .attempt
  | .nextShard _ _, ph | .lenNext _ _, ph | .finish _ _, ph | .guard _, ph | .retry _, ph =>
    ph = .releaseShared
  | .backOut _ _, ph | .detached _ _, ph => ph = .releaseExclusive ∨ ph = .wake

section Layout

variable (L : Layout)

/-- The other holds of the caller of a slot mutex. -/
def Next.kept (t : ι) : Next ι K V → List (Hold ι)
  | .attempt i j => taken t i 0 j
  | .backOut i j n _ => taken t i (j + 1) n
  | .detached i j _ => taken t i (j + 1) L.capacity
  | _ => []

/-- The holds of the running call on slot mutexes. -/
def Pc.hands (t : ι) : Pc ι K V → List (Hold ι)
  | .shard _ k => k.kept
  | .slot p k => stillHeld (k.hold t) (SerialMutex.phase p) ++ k.kept L t
  | .loadHead v | .walk v _ _ | .replace v _ _ | .newEntry v _ _ | .linkEntry v _ | .countUp v
  | .unlinkLoad v _ _ | .unlinkStore v _ _ _ | .countDown v _ | .freeEntry v _ _ => [v.hold t]
  | .owned i j => taken t i 0 j
  | .detachSwap i _ _ | .detachCount i _ _ _ _ _ | .detachSub i _ _ _ _ => taken t i 0 L.capacity
  | .lenLoad _ _ | .inspect _ _ | .dropChains _ _ => []

/-- The phases of a slot mutex that a continuation may wait for, within the bounds of its loop. -/
def Next.Expects (t : ι) : Next ι K V → SerialMutex.Phase ι → Prop
  | .locked v, ph => ph = .acquire v.job.reads
  | .attempt _ j, ph => ph = .attempt ∧ j < L.capacity
  | .unlocked v _, ph => ph = .release v.job.reads t ∨ ph = .wake
  | .dropped g, ph => ph = .release g.hold.read g.hold.acquirer ∨ ph = .wake
  | .backOut _ _ _ _, ph | .detached _ _ _, ph => ph = .release false t ∨ ph = .wake

/-- The lock operation inside a program point is the one the program point is for. -/
def Pc.Phased (t : ι) : Pc ι K V → Prop
  | .shard p k => k.Expects (RawMutex.phase p)
  | .slot p k => k.Expects L t (SerialMutex.phase p)
  | _ => True

end Layout

/-- The lock operations a call starts with. -/
def Pc.Opens (t : ι) : Pc ι K V → Prop
  | .shard p _ => p = .sharedFastLoad true ∨ p = .tryLockExclusive ∨ p = .unlockShared ∨
      p = .unlockExclusiveFast
  | .slot p k => (∃ read, p = .lockFast read) ∨ p = .tryWriteGuard ∨
      p = releasePc (k.hold t).read (k.hold t).acquirer
  | _ => True

variable [Fintype ι] (L : Layout) (ids : SerialMutex.OwnerIds ι)

/-- What the lock operation inside a program point relies on. -/
def Pc.Knows (t : ι) (s : Store ι K V) : Pc ι K V → Prop
  | .shard p k => RawMutex.Knows t (s.shardLock k.target) p
  | .slot p k => SerialMutex.Knows ids t (s.slotLock k.target.1 k.target.2) p
  | _ => True

/-- The holds of the returned guards of `t`. -/
def Store.holds (s : Store ι K V) (t : ι) : List (Hold ι) := (s.guards t).map Guard.hold

/-- Live holds of the kind, slot and acquirer of `h`, by the record of the slot mutex. -/
def Store.record (s : Store ι K V) (h : Hold ι) (t : ι) : ℕ :=
  (s.slotLock h.shard h.slot).record h.read h.acquirer t

/-- **What one thread owns**, outside (`none`) or at a program point. -/
structure Mine (t : ι) (s : Store ι K V) (q : Option (Pc ι K V)) : Prop where
  shared : ∀ i, (s.shardLock i).shared t = q.elim 0 (Pc.pinned i)
  exclusive : ∀ i, (s.shardLock i).exclusive t = q.elim 0 (Pc.sealed i)
  record : ∀ h, s.record h t = (s.holds t ++ q.elim [] (Pc.hands L t)).count h
  phased : ∀ p, q = some p → p.Phased L t
  knows : ∀ p, q = some p → p.Knows ids t s

/-- **What holds of the locks themselves**: their words are exact. -/
structure Sound (s : Store ι K V) : Prop where
  accounts : ∀ i, RawMutex.Accounts (s.shardLock i)
  unparked : ∀ i, Word.wp (s.shardLock i).state = false
  exact : ∀ i j, SerialMutex.Exact ids (s.slotLock i j)

/-- What a step of another thread leaves to `u`. -/
structure Spares (u : ι) (s s' : Store ι K V) : Prop where
  shared : ∀ i, (s'.shardLock i).shared u = (s.shardLock i).shared u
  exclusive : ∀ i, (s'.shardLock i).exclusive u = (s.shardLock i).exclusive u
  guards : s'.guards u = s.guards u
  record : ∀ h, s'.record h u = s.record h u
  foreign : ∀ i j, SerialMutex.Foreign u (s.slotLock i j) (s'.slotLock i j)

variable {L ids}

/-- What a thread owns depends on its own entries only, so a step of another thread leaves it true.
-/
theorem Mine.spare {u : ι} {s s' : Store ι K V} {q : Option (Pc ι K V)} (h : Mine L ids u s q)
    (hs : Spares u s s') : Mine L ids u s' q where
  shared := fun i ↦ (hs.shared i).trans (h.shared i)
  exclusive := fun i ↦ (hs.exclusive i).trans (h.exclusive i)
  record := fun x ↦ by rw [hs.record, h.record, Store.holds, Store.holds, hs.guards]
  phased := h.phased
  knows := by
    intro p hp
    have hk := h.knows p hp
    cases p with
    | shard p k => exact RawMutex.Knows.mono hk (hs.shared _).ge (hs.exclusive _).ge
    | slot p k => exact SerialMutex.Knows.mono hk (hs.foreign _ _)
    | _ => trivial

/-! ### Steps that leave the locks alone -/

/-- The locks and the guards are as before. -/
structure SameLocks (s s' : Store ι K V) : Prop where
  shardLock : s'.shardLock = s.shardLock
  slotLock : s'.slotLock = s.slotLock
  guards : s'.guards = s.guards

namespace SameLocks

variable {s s' : Store ι K V}

omit [DecidableEq ι] [Fintype ι] in
theorem refl (s : Store ι K V) : SameLocks s s := ⟨rfl, rfl, rfl⟩

omit [DecidableEq ι] [Fintype ι] in
theorem record (h : SameLocks s s') (x : Hold ι) (u : ι) : s'.record x u = s.record x u := by
  unfold Store.record
  rw [h.slotLock]

omit [DecidableEq ι] in
theorem sound (h : SameLocks s s') (hs : Sound ids s) : Sound ids s' :=
  ⟨h.shardLock ▸ hs.accounts, h.shardLock ▸ hs.unparked, h.slotLock ▸ hs.exact⟩

omit [DecidableEq ι] in
theorem spares (h : SameLocks s s') (u : ι) : Spares u s s' :=
  ⟨fun _ ↦ by rw [h.shardLock], fun _ ↦ by rw [h.shardLock], by rw [h.guards], fun x ↦ h.record x u,
    fun i j ↦ h.slotLock ▸ .refl u _⟩

end SameLocks

/-! ### Where a call stands

The form in which a next program point is given back to the step lemmas. -/

/-- **A call stands** at a program point of its own or at the start of a lock operation, with a
shard shared or sealed and these holds. -/
structure Stands (L : Layout) (t : ι) (q : Pc ι K V) (shares seals : Option ℕ)
    (hands : List (Hold ι)) :
    Prop where
  pinned : ∀ i, q.pinned i = if shares = some i then 1 else 0
  sealed : ∀ i, q.sealed i = if seals = some i then 1 else 0
  hands : q.hands L t = hands
  phased : q.Phased L t
  opens : q.Opens t

omit [Fintype ι] [DecidableEq ι] in
theorem phase_releasePc (read : Bool) (a : ι) :
    SerialMutex.phase (releasePc read a) = .release read a := by
  cases read
  · rfl
  · rfl

omit [DecidableEq ι] in
theorem knows_releasePc {l : SerialMutex.Store ι} {read : Bool} {a t : ι}
    (h : 0 < l.record read a t) : SerialMutex.Knows ids t l (releasePc read a) := by
  cases read
  · exact h
  · exact h

/-- A thread that stands somewhere and owns what that place says. -/
theorem Mine.of_stands {t : ι} {s : Store ι K V} {q : Pc ι K V} {shares seals : Option ℕ}
    {hands : List (Hold ι)} (hq : Stands L t q shares seals hands)
    (hshared : ∀ i, (s.shardLock i).shared t = if shares = some i then 1 else 0)
    (hexclusive : ∀ i, (s.shardLock i).exclusive t = if seals = some i then 1 else 0)
    (hrecord : ∀ h, s.record h t = (s.holds t ++ hands).count h) : Mine L ids t s (some q) := by
  refine ⟨fun i ↦ (hshared i).trans (hq.pinned i).symm,
    fun i ↦ (hexclusive i).trans (hq.sealed i).symm,
    fun h ↦ ?_, ?_, ?_⟩
  · rw [hrecord h, ← hq.hands]
    rfl
  · rintro _ ⟨⟩
    exact hq.phased
  · rintro _ ⟨⟩
    have hopens := hq.opens
    cases q with
    | shard p k =>
      rcases hopens with rfl | rfl | rfl | rfl
      · trivial
      · trivial
      · show 0 < (s.shardLock k.target).shared t
        have hone : (Pc.shard .unlockShared k : Pc ι K V).pinned k.target = 1 := if_pos rfl
        rw [hshared, ← hq.pinned, hone]
        exact Nat.one_pos
      · show 0 < (s.shardLock k.target).exclusive t
        have hone : (Pc.shard .unlockExclusiveFast k : Pc ι K V).sealed k.target = 1 := if_pos rfl
        rw [hexclusive, ← hq.sealed, hone]
        exact Nat.one_pos
    | slot p k =>
      rcases hopens with ⟨read, rfl⟩ | rfl | rfl
      · trivial
      · trivial
      · have hpos : 0 < s.record (k.hold t) t := by
          rw [hrecord, ← hq.hands]
          simp [Pc.hands, phase_releasePc, stillHeld]
        unfold Store.record at hpos
        show SerialMutex.Knows ids t (s.slotLock k.target.1 k.target.2) _
        rw [k.target_eq t]
        exact knows_releasePc hpos
    | _ => trivial

/-- A thread outside owns the holds of its returned guards and nothing else. -/
theorem Mine.outside {t : ι} {s : Store ι K V} (hshared : ∀ i, (s.shardLock i).shared t = 0)
    (hexclusive : ∀ i, (s.shardLock i).exclusive t = 0)
    (hrecord : ∀ h, s.record h t = (s.holds t).count h) : Mine L ids t s none := by
  refine ⟨hshared, hexclusive, fun h ↦ ?_, by simp, by simp⟩
  rw [hrecord h]
  simp

/-- What a step of `t` establishes: the locks stay sound, `t` owns what its next program point says,
and every other thread keeps what it has. -/
structure Steps (L : Layout) (ids : SerialMutex.OwnerIds ι) (t : ι) (s s' : Store ι K V)
    (q : Option (Pc ι K V)) : Prop where
  sound : Sound ids s'
  mine : Mine L ids t s' q
  spares : ∀ u, u ≠ t → Spares u s s'

/-- **A step that leaves the locks alone** takes what the thread owns along to the next program
point. -/
theorem Steps.go {t : ι} {s s' : Store ι K V} {p q : Pc ι K V} {shares seals : Option ℕ}
    {hands : List (Hold ι)} (hs : Sound ids s) (hm : Mine L ids t s (some p)) (hl : SameLocks s s')
    (hp : Stands L t p shares seals hands) (hq : Stands L t q shares seals hands) :
    Steps L ids t s s' (some q) := by
  refine ⟨hl.sound hs, .of_stands hq (fun i ↦ ?_) (fun i ↦ ?_) (fun h ↦ ?_), fun u _ ↦ hl.spares u⟩
  · rw [hl.shardLock, ← hp.pinned]
    exact hm.shared i
  · rw [hl.shardLock, ← hp.sealed]
    exact hm.exclusive i
  · rw [hl.record, Store.holds, hl.guards, ← hp.hands]
    exact hm.record h

/-! ### The places of the code

One lemma for each function that computes a next program point. -/

section Places

variable {t : ι} {v : Visit K V} {i j n : ℕ}

omit [Fintype ι] [DecidableEq ι] in
theorem stands_sharing {k : After ι K V} (hk : k.Expects .acquire) :
    Stands L t (sharing k) none none [] := by
  refine ⟨fun i ↦ ite_self 0, fun i ↦ ite_self 0, ?_, hk, Or.inl rfl⟩
  cases k <;> simp [After.Expects] at hk <;> rfl

omit [Fintype ι] [DecidableEq ι] in
theorem stands_leave {k : After ι K V} (hk : k.Expects .releaseShared) :
    Stands L t (leave k) (some k.target) none k.kept := by
  refine ⟨fun i ↦ ?_, fun i ↦ ite_self 0, rfl, hk, Or.inr (Or.inr (Or.inl rfl))⟩
  show (if k.target = i then 1 else 0) = _
  simp only [Option.some.injEq]

omit [Fintype ι] [DecidableEq ι] in
theorem stands_tryLock (i : ℕ) :
    Stands L t (.shard .tryLockExclusive (.attempt i) : Pc ι K V) none none [] :=
  ⟨fun _ ↦ ite_self 0, fun _ ↦ ite_self 0, rfl, rfl, Or.inr (Or.inl rfl)⟩

omit [Fintype ι] [DecidableEq ι] in
theorem stands_unlockExclusive {k : After ι K V} (hk : k.Expects .releaseExclusive) :
    Stands L t (.shard .unlockExclusiveFast k) none (some k.target) [] := by
  refine ⟨fun i ↦ ite_self 0, fun i ↦ ?_, ?_, hk, Or.inr (Or.inr (Or.inr rfl))⟩
  · show (if k.target = i then 1 else 0) = _
    simp only [Option.some.injEq]
  · cases k <;> simp [After.Expects] at hk <;> rfl

omit [Fintype ι] [DecidableEq ι] in
theorem stands_lock (v : Visit K V) :
    Stands L t (.slot (.lockFast v.job.reads) (.locked v) : Pc ι K V) (some v.shard) none [] :=
  ⟨fun _ ↦ rfl, fun _ ↦ rfl, rfl, rfl, Or.inl ⟨_, rfl⟩⟩

omit [Fintype ι] [DecidableEq ι] in
theorem stands_unlock (r : Ret ι K V) :
    Stands L t (unlock t v r) (some v.shard) none [v.hold t] := by
  refine ⟨fun _ ↦ rfl, fun _ ↦ rfl, ?_, Or.inl (phase_releasePc ..), Or.inr (Or.inr rfl)⟩
  show stillHeld _ (SerialMutex.phase (releasePc _ _)) ++ [] = _
  rw [phase_releasePc]
  rfl

omit [Fintype ι] [DecidableEq ι] in
theorem stands_missing : Stands L t (missing t v) (some v.shard) none [v.hold t] := by
  unfold missing
  split
  · exact ⟨fun _ ↦ rfl, fun _ ↦ rfl, rfl, trivial, trivial⟩
  all_goals exact stands_unlock _

omit [Fintype ι] [DecidableEq ι] in
theorem stands_walkNext (prev cur : ℕ) :
    Stands L t (walkNext t v prev cur) (some v.shard) none [v.hold t] := by
  unfold walkNext
  split_ifs
  · exact stands_missing
  · exact ⟨fun _ ↦ rfl, fun _ ↦ rfl, rfl, trivial, trivial⟩

omit [Fintype ι] [DecidableEq ι] in
theorem stands_hit (prev cur : ℕ) :
    Stands L t (hit t v prev cur) (some v.shard) none [v.hold t] := by
  unfold hit
  split
  · exact ⟨fun _ ↦ rfl, fun _ ↦ rfl, rfl, trivial, trivial⟩
  · exact ⟨fun _ ↦ rfl, fun _ ↦ rfl, rfl, trivial, trivial⟩
  · exact stands_unlock _
  · exact stands_leave rfl
  · exact stands_leave rfl
  · exact stands_unlock _

omit [DecidableEq ι] [Fintype ι] in
/-- Looking at an entry does not change the lock that the visit holds. -/
@[simp] theorem Visit.see_hold (e : Entry K V) : (v.see e).hold t = v.hold t := by
  unfold Visit.see
  split <;> simp_all [Visit.hold]

/-- Looking at an entry does not change the shard of the visit. -/
@[simp] theorem Visit.see_shard (v : Visit K V) (e : Entry K V) : (v.see e).shard = v.shard := by
  unfold Visit.see
  split <;> rfl

omit [Fintype ι] [DecidableEq ι] in
theorem stands_lenLoad {m : ℤ} : Stands L t (.lenLoad i m : Pc ι K V) (some i) none [] :=
  ⟨fun _ ↦ rfl, fun _ ↦ rfl, rfl, trivial, trivial⟩

omit [Fintype ι] [DecidableEq ι] in
theorem stands_dropChains {chains : List ℕ} :
    Stands L t (.dropChains i chains : Pc ι K V) none none [] :=
  ⟨fun _ ↦ rfl, fun _ ↦ rfl, rfl, trivial, trivial⟩

omit [Fintype ι] [DecidableEq ι] in
/-- The release of one of the slots that `try_detach` has taken. -/
theorem stands_release {k : Next ι K V} (hh : k.hold t = ⟨i, j, false, t⟩) (hsh : k.shares = none)
    (hse : k.seals = some i) (hk : k.kept L t = taken t i (j + 1) n)
    (he : k.Expects L t (.release false t)) (hj : j < n) :
    Stands L t (.slot (.unlockWrite t) k) none (some i) (taken t i j n) := by
  refine ⟨fun _ ↦ ?_, fun _ ↦ ?_, ?_, he, ?_⟩
  · simp only [Pc.pinned, Pc.shares, hsh]
  · simp only [Pc.sealed, Pc.seals, hse]
  · show [k.hold t] ++ k.kept L t = _
    rw [hh, hk, taken_cons t hj]
    rfl
  · exact Or.inr (Or.inr (by rw [hh]; rfl))

omit [Fintype ι] [DecidableEq ι] in
theorem stands_backOutNext (b : Bool) :
    Stands L t (backOutNext t i j n b : Pc ι K V) none (some i) (taken t i j n) := by
  unfold backOutNext
  split_ifs with hj
  · exact stands_release rfl rfl rfl rfl (Or.inl rfl) hj
  · rw [taken_of_le t (Nat.not_lt.1 hj)]
    exact stands_unlockExclusive (Or.inl rfl)

omit [Fintype ι] [DecidableEq ι] in
theorem stands_releaseNext (chains : List ℕ) :
    Stands L t (releaseNext L t i j chains : Pc ι K V) none (some i) (taken t i j L.capacity) := by
  unfold releaseNext
  split_ifs with hj
  · exact stands_release rfl rfl rfl rfl (Or.inl rfl) hj
  · rw [taken_of_le t (Nat.not_lt.1 hj)]
    exact stands_unlockExclusive (Or.inl rfl)

omit [Fintype ι] [DecidableEq ι] in
theorem stands_swapNext (j : ℕ) (chains : List ℕ) :
    Stands L t (swapNext L t i j chains : Pc ι K V) none (some i) (taken t i 0 L.capacity) := by
  unfold swapNext
  split_ifs
  · exact ⟨fun _ ↦ rfl, fun _ ↦ rfl, rfl, trivial, trivial⟩
  · exact stands_releaseNext chains

omit [Fintype ι] [DecidableEq ι] in
theorem stands_countNext (chains : List ℕ) (chain cur count : ℕ) :
    Stands L t (countNext i j chains chain cur count : Pc ι K V) none (some i)
      (taken t i 0 L.capacity) := by
  unfold countNext
  split_ifs
  · exact ⟨fun _ ↦ rfl, fun _ ↦ rfl, rfl, trivial, trivial⟩
  · exact ⟨fun _ ↦ rfl, fun _ ↦ rfl, rfl, trivial, trivial⟩

omit [Fintype ι] [DecidableEq ι] in
theorem stands_detachNext (hj : j ≤ L.capacity) :
    Stands L t (detachNext L t i j : Pc ι K V) none (some i) (taken t i 0 j) := by
  unfold detachNext
  split_ifs with h
  · exact ⟨fun _ ↦ rfl, fun _ ↦ rfl, rfl, ⟨rfl, h⟩, Or.inr (Or.inl rfl)⟩
  · obtain rfl : j = L.capacity := by omega
    exact stands_swapNext 0 []

omit [Fintype ι] [DecidableEq ι] in
theorem stands_inspectNext (j : ℕ) :
    Stands L t (inspectNext L i j : Pc ι K V) (some i) none [] := by
  unfold inspectNext
  split_ifs
  · exact ⟨fun _ ↦ rfl, fun _ ↦ rfl, rfl, trivial, trivial⟩
  · exact stands_leave rfl

omit [Fintype ι] [DecidableEq ι] in
theorem stands_visitNext (j : ℕ) (seen : List (K × V)) :
    Stands L t (visitNext L i j seen : Pc ι K V) (some i) none [] := by
  unfold visitNext
  split_ifs
  · exact stands_lock ⟨.asVec, i, j, seen⟩
  · exact stands_leave rfl

omit [Fintype ι] [DecidableEq ι] in
theorem stands_visited (r : Ret ι K V) : Stands L t (visited L v r) (some v.shard) none [] := by
  unfold visited
  split
  · exact stands_visitNext _ _
  · exact stands_leave rfl

omit [Fintype ι] [DecidableEq ι] in
theorem stands_visit : Stands L t (visit L v : Pc ι K V) (some v.shard) none [] := by
  unfold visit
  split
  · exact stands_visitNext _ _
  · exact stands_lock v

variable (L t) in
/-- A call that owns nothing goes on, or returns. -/
def Free (o : Outcome (Pc ι K V) (Ret ι K V)) : Prop :=
  ∀ q, o.pc = some q → Stands L t q none none []

omit [Fintype ι] [DecidableEq ι] in
theorem free_asVecNext (i : ℕ) (seen : List (K × V)) :
    Free L t (asVecNext L i seen : Outcome (Pc ι K V) (Ret ι K V)) := by
  unfold asVecNext
  split_ifs
  · rintro _ ⟨⟩
    exact stands_sharing rfl
  · rintro _ ⟨⟩

omit [Fintype ι] [DecidableEq ι] in
theorem free_lenNext (i : ℕ) (n : ℤ) :
    Free L t (lenNext L i n : Outcome (Pc ι K V) (Ret ι K V)) := by
  unfold lenNext
  split_ifs
  · rintro _ ⟨⟩
    exact stands_sharing rfl
  · rintro _ ⟨⟩

omit [Fintype ι] [DecidableEq ι] in
theorem free_clearNext (i : ℕ) : Free L t (clearNext L i : Outcome (Pc ι K V) (Ret ι K V)) := by
  unfold clearNext
  split_ifs
  · rintro _ ⟨⟩
    exact stands_tryLock i
  · rintro _ ⟨⟩

/-- A thread that owns nothing but its returned guards. -/
theorem Mine.of_free {s : Store ι K V} {o : Outcome (Pc ι K V) (Ret ι K V)} (ho : Free L t o)
    (hshared : ∀ i, (s.shardLock i).shared t = 0)
    (hexclusive : ∀ i, (s.shardLock i).exclusive t = 0)
    (hrecord : ∀ h, s.record h t = (s.holds t).count h) : Mine L ids t s o.pc := by
  cases o with
  | ret r => exact .outside hshared hexclusive hrecord
  | goto q => exact .of_stands (ho q rfl) hshared hexclusive (by simpa using hrecord)

end Places

/-! ### Steps of a shard lock

An access of `RawMutex` inside one shard. The continuation says what the call goes on with when the
access ends the lock's call. -/

section ShardLock

variable {adaptive : ℕ} {t : ι} {ch : Choice ι} {s s' : Store ι K V} {p : RawMutex.Pc}
  {k : After ι K V}
  {l : RawMutex.Store ι} {e : Outcome RawMutex.Pc RawMutex.Ret}

omit [Fintype ι] [DecidableEq ι] in
/-- A continuation that expects a phase of the lock does not expect the phase of the other calls. -/
theorem After.Expects.ne_other {ph : RawMutex.Phase} (h : k.Expects ph) : ph ≠ .other := by
  rintro rfl
  cases k <;> simp [After.Expects] at h

omit [Fintype ι] [DecidableEq ι] in
/-- After an exclusive release, the same continuations are waited for. -/
theorem After.Expects.wake (h : k.Expects .releaseExclusive) : k.Expects .wake := by
  cases k <;> simp_all [After.Expects]

omit [Fintype ι] [DecidableEq ι] in
/-- An update of one shard's lock is seen at that shard and nowhere else. -/
theorem shardLock_setShardLock (s : Store ι K V) (i i' : ℕ) (l : RawMutex.Store ι) :
    (s.setShardLock i l).shardLock i' = if i' = i then l else s.shardLock i' :=
  Function.update_apply ..

/-- The locks after an access of a shard lock. -/
theorem Sound.setShardLock {i : ℕ} (hs : Sound ids s) (hk : RawMutex.Knows t (s.shardLock i) p)
    (hp : RawMutex.phase p ≠ .other)
    (hr : RawMutex.exec adaptive t ch (s.shardLock i) p = some (l, e)) :
    Sound ids (s.setShardLock i l) := by
  refine ⟨fun i' ↦ ?_, fun i' ↦ ?_, hs.exact⟩
  · rw [shardLock_setShardLock]
    split_ifs
    · exact (hs.accounts i).step (RawMutex.exec_word hk hr)
    · exact hs.accounts i'
  · rw [shardLock_setShardLock]
    split_ifs
    · exact RawMutex.exec_unparked (hs.accounts i) hk hp (hs.unparked i) hr
    · exact hs.unparked i'

/-- An access of a shard lock by `t` leaves every other thread what it has. -/
theorem spares_setShardLock {i : ℕ} {u : ι} (hold : RawMutex.HoldStep t p (s.shardLock i) l e)
    (hu : u ≠ t) : Spares u s (s.setShardLock i l) := by
  refine ⟨fun i' ↦ ?_, fun i' ↦ ?_, rfl, fun _ ↦ rfl, fun _ _ ↦ .refl u _⟩
  · rw [shardLock_setShardLock]
    split_ifs with h
    · rw [h, (hold.other hu).1]
    · rfl
  · rw [shardLock_setShardLock]
    split_ifs with h
    · rw [h, (hold.other hu).2]
    · rfl

/-- A call that has just acquired its shard shared. -/
theorem Mine.resume_acquired (r : RawMutex.Ret) (hk : k.Expects .acquire)
    (hshared : ∀ i, (s.shardLock i).shared t = if some k.target = some i then 1 else 0)
    (hexclusive : ∀ i, (s.shardLock i).exclusive t = 0)
    (hrec : ∀ h, s.record h t = (s.holds t ++ []).count h) :
    Mine L ids t (resume L t s k r).1 (resume L t s k r).2.pc := by
  cases k with
  | visit v => exact .of_stands stands_visit hshared hexclusive hrec
  | len i n => exact .of_stands stands_lenLoad hshared hexclusive hrec
  | inspect i => exact .of_stands (stands_inspectNext 0) hshared hexclusive hrec
  | _ => simp [After.Expects] at hk

/-- A call whose release of its shard is over. -/
theorem Mine.resume_released (r : RawMutex.Ret) (hk : k.Expects .releaseShared ∨ k.Expects .wake)
    (hshared : ∀ i, (s.shardLock i).shared t = 0)
    (hexclusive : ∀ i, (s.shardLock i).exclusive t = 0)
    (hrec : ∀ h, s.record h t = (s.holds t ++ k.kept).count h) :
    Mine L ids t (resume L t s k r).1 (resume L t s k r).2.pc := by
  have hrec' : k.kept = [] → ∀ h, s.record h t = (s.holds t).count h := fun hnil ↦ by
    simpa [hnil] using hrec
  cases k with
  | nextShard i seen => exact .of_free (free_asVecNext _ _) hshared hexclusive (hrec' rfl)
  | lenNext i n => exact .of_free (free_lenNext _ _) hshared hexclusive (hrec' rfl)
  | finish i r => exact .outside hshared hexclusive (hrec' rfl)
  | guard g =>
    -- the guard passes from the call to the hands of the thread
    refine .outside hshared hexclusive fun h ↦ (hrec h).trans ?_
    simp [resume, Store.receive, Store.holds, After.kept]
  | retry i => exact .of_stands (stands_tryLock i) hshared hexclusive hrec
  | backOut i panics =>
    cases panics
    · exact .of_stands (stands_tryLock i) hshared hexclusive hrec
    · exact .outside hshared hexclusive (hrec' rfl)
  | detached i chains => exact .of_stands stands_dropChains hshared hexclusive hrec
  | _ => simp [After.Expects] at hk

/-- The call of `try_lock` goes on, with the shard or without. -/
theorem Mine.resume_attempt {i : ℕ} {r : RawMutex.Ret}
    (hshared : ∀ i, (s.shardLock i).shared t = 0)
    (hexclusive : ∀ i', (s.shardLock i').exclusive t =
      if r = .bool true ∧ some i = some i' then 1 else 0)
    (hrec : ∀ h, s.record h t = (s.holds t ++ []).count h) :
    Mine L ids t (resume L t s (.attempt i) r).1 (resume L t s (.attempt i) r).2.pc := by
  have hnot : r ≠ .bool true → Mine L ids t s (some (sharing (.inspect i))) := fun hr ↦
    .of_stands (stands_sharing rfl) hshared
      (fun i' ↦ by rw [hexclusive, if_neg fun h ↦ hr h.1]; rfl) hrec
  cases r with
  | unit => exact hnot (by simp)
  | bool b =>
    cases b
    · exact hnot (by simp)
    · refine .of_stands (stands_detachNext (Nat.zero_le _)) hshared
        (fun i' ↦ (hexclusive i').trans ?_) hrec
      simp

omit [Fintype ι] in
/-- What resuming a call does to the store: a returned guard comes into the hands of the thread. -/
theorem resume_store (s : Store ι K V) (k : After ι K V) (r : RawMutex.Ret) :
    (resume L t s k r).1 = s ∨ ∃ g, k = .guard g ∧ (resume L t s k r).1 = s.receive t g := by
  unfold resume
  split
  case h_6 g => exact Or.inr ⟨g, rfl, rfl⟩
  all_goals exact Or.inl rfl

/-- A step that ends a call of the shard's lock goes on with the continuation, and the pair of them
is a step as well. -/
theorem Steps.resume {s₁ : Store ι K V} {r : RawMutex.Ret} (hs : Sound ids s₁)
    (hm : Mine L ids t (resume L t s₁ k r).1 (resume L t s₁ k r).2.pc)
    (hsp : ∀ u, u ≠ t → Spares u s s₁) :
    Steps L ids t s (AtomicHashMap.Shared.resume L t s₁ k r).1
      (AtomicHashMap.Shared.resume L t s₁ k r).2.pc := by
  obtain hsame | ⟨g, -, hg⟩ := resume_store s₁ k r
  · exact ⟨by rwa [hsame], hm, by rwa [hsame]⟩
  · refine ⟨?_, hm, fun u hu ↦ ?_⟩
    · rw [hg]
      exact ⟨hs.accounts, hs.unparked, hs.exact⟩
    · have h := hsp u hu
      rw [hg]
      refine ⟨h.shared, h.exclusive, ?_, h.record, h.foreign⟩
      exact (Function.update_of_ne hu _ _).trans h.guards

variable [BEq K] [Hashable K]

/-- An access of a shard lock leaves that lock, and a returned guard in the hands of its thread. -/
theorem exec_shard_store {o : Outcome (Pc ι K V) (Ret ι K V)}
    (h : exec L ids adaptive t ch s (.shard p k) = some (s', o)) :
    ∃ l, s' = s.setShardLock k.target l ∨
      ∃ g, k = .guard g ∧ s' = (s.setShardLock k.target l).receive t g := by
  simp only [exec] at h
  split at h
  · cases h
  · rename_i l p' hr
    cases h
    exact ⟨l, Or.inl rfl⟩
  · rename_i l e hr
    have hs : (resume L t (s.setShardLock k.target l) k e).1 = s' :=
      congrArg Prod.fst (Option.some.inj h)
    exact ⟨l, hs ▸ resume_store _ k e⟩

/-- An access of a shard lock inside a call. -/
theorem exec_locks_shard {o : Outcome (Pc ι K V) (Ret ι K V)} (hs : Sound ids s)
    (hm : Mine L ids t s (some (.shard p k)))
    (h : exec L ids adaptive t ch s (.shard p k) = some (s', o)) : Steps L ids t s s' o.pc := by
  have hexp : k.Expects (RawMutex.phase p) := hm.phased _ rfl
  have hk : RawMutex.Knows t (s.shardLock k.target) p := hm.knows _ rfl
  have hne := hexp.ne_other
  simp only [exec] at h
  cases hr : RawMutex.exec adaptive t ch (s.shardLock k.target) p with
  | none =>
    rw [hr] at h
    cases h
  | some x =>
    obtain ⟨l, e⟩ := x
    have hold := RawMutex.exec_holds hne hr
    have hsound := hs.setShardLock hk hne hr
    have hspares : ∀ u, u ≠ t → Spares u s (s.setShardLock k.target l) := fun u hu ↦
      spares_setShardLock hold hu
    have hsh : (s.shardLock k.target).shared t = (RawMutex.phase p).pins :=
      (hm.shared k.target).trans (if_pos rfl)
    have hex : (s.shardLock k.target).exclusive t = (RawMutex.phase p).seals :=
      (hm.exclusive k.target).trans (if_pos rfl)
    have hshared : ∀ x, l.shared t = x → ∀ i, ((s.setShardLock k.target l).shardLock i).shared t =
        if some k.target = some i then x else 0 := by
      rintro _ rfl i
      rw [shardLock_setShardLock]
      by_cases hi : i = k.target
      · simp [hi]
      · rw [if_neg hi, if_neg fun h ↦ hi (Option.some.inj h).symm]
        exact (hm.shared i).trans (if_neg (Ne.symm hi))
    have hexclusive : ∀ x, l.exclusive t = x → ∀ i,
        ((s.setShardLock k.target l).shardLock i).exclusive t =
          if some k.target = some i then x else 0 := by
      rintro _ rfl i
      rw [shardLock_setShardLock]
      by_cases hi : i = k.target
      · simp [hi]
      · rw [if_neg hi, if_neg fun h ↦ hi (Option.some.inj h).symm]
        exact (hm.exclusive i).trans (if_neg (Ne.symm hi))
    have hrec : ∀ h, (s.setShardLock k.target l).record h t =
        ((s.setShardLock k.target l).holds t ++ k.kept).count h := hm.record
    have hzero : ∀ {f : ℕ → ℕ}, (∀ i, f i = if some k.target = some i then 0 else 0) →
        ∀ i, f i = 0 :=
      fun hf i ↦ (hf i).trans (ite_self 0)
    rw [hr] at h
    cases e with
    | goto p' =>
      cases h
      obtain ⟨h₁, h₂, hph⟩ := hold.of_goto hk
      refine ⟨hsound, ⟨fun i ↦ ?_, fun i ↦ ?_, hrec, ?_, ?_⟩, hspares⟩
      · refine (hshared (RawMutex.phase p').pins (by omega) i).trans ?_
        simp only [Option.some.injEq]
        rfl
      · refine (hexclusive (RawMutex.phase p').seals (by omega) i).trans ?_
        simp only [Option.some.injEq]
        rfl
      · rintro _ ⟨⟩
        show k.Expects (RawMutex.phase p')
        obtain hph | ⟨hrel | hrel, hph⟩ := hph
        · rwa [hph]
        · cases RawMutex.exec_unlockShared hrel (hs.unparked _) hr
        · rw [hph]
          rw [hrel] at hexp
          exact hexp.wake
      · rintro _ ⟨⟩
        show RawMutex.Knows t ((s.setShardLock k.target l).shardLock k.target) p'
        rw [shardLock_setShardLock, if_pos rfl]
        exact RawMutex.exec_knows hk hr rfl
    | ret r =>
      simp only [Option.some.injEq] at h
      obtain ⟨rfl, rfl⟩ : (AtomicHashMap.Shared.resume L t (s.setShardLock k.target l) k r).1 = s' ∧
          (AtomicHashMap.Shared.resume L t (s.setShardLock k.target l) k r).2 = o := by
        rw [h]
        exact ⟨rfl, rfl⟩
      refine .resume hsound ?_ hspares
      have hgiven := hold.of_ret hk
      generalize RawMutex.phase p = ph at *
      cases ph with
      | acquire =>
        have hkept : k.kept = [] := by
          cases k <;> simp [After.Expects] at hexp <;> rfl
        rw [hkept] at hrec
        exact .resume_acquired r hexp (hshared 1 (by rw [hgiven.1, hsh]; rfl))
          (hzero (hexclusive 0 (by rw [hgiven.2, hex]; rfl))) hrec
      | attempt =>
        cases k <;> simp [After.Expects] at hexp
        refine .resume_attempt ?_ ?_ hrec
        · refine hzero (hshared 0 ?_)
          obtain ⟨-, h₁, -⟩ | ⟨-, h₁, -⟩ := hgiven
          · rw [h₁, hsh]
            rfl
          · rw [h₁, hsh]
            rfl
        · intro i'
          obtain ⟨rfl, -, h₂⟩ | ⟨rfl, -, h₂⟩ := hgiven
          · rw [hexclusive 1 (by rw [h₂, hex]; rfl)]
            simp [After.target]
          · rw [hexclusive 0 (by rw [h₂, hex]; rfl)]
            simp
      | releaseShared =>
        obtain ⟨h₁, h₂⟩ := hgiven
        refine .resume_released r (Or.inl hexp) (hzero (hshared 0 ?_))
          (hzero (hexclusive 0 ?_)) hrec
        · rw [hsh] at h₁
          exact Nat.add_right_cancel (h₁.trans (Nat.zero_add _).symm)
        · exact h₂.trans hex
      | releaseExclusive =>
        obtain ⟨h₁, h₂⟩ := hgiven
        refine .resume_released r (Or.inr hexp.wake) (hzero (hshared 0 ?_))
          (hzero (hexclusive 0 ?_)) hrec
        · exact h₁.trans hsh
        · rw [hex] at h₂
          exact Nat.add_right_cancel (h₂.trans (Nat.zero_add _).symm)
      | wake =>
        obtain ⟨h₁, h₂⟩ := hgiven
        exact .resume_released r (Or.inr hexp) (hzero (hshared 0 (h₁.trans hsh)))
          (hzero (hexclusive 0 (h₂.trans hex))) hrec
      | other => exact absurd rfl hne

end ShardLock

/-! ### Steps of a slot mutex

An access of `SerialMutex` inside one slot, with the same shape. -/

section SlotLock

variable {adaptive : ℕ} {t : ι} {ch : Choice ι} {s s' : Store ι K V} {p : SerialMutex.Pc ι}
  {k : Next ι K V} {l : SerialMutex.Store ι} {e : Outcome (SerialMutex.Pc ι) SerialMutex.Ret}

omit [Fintype ι] [DecidableEq ι] in
/-- An update of one slot's lock is seen at that slot and nowhere else. -/
theorem slotLock_setSlotLock (s : Store ι K V) (i j i' j' : ℕ) (l : SerialMutex.Store ι) :
    (s.setSlotLock i j l).slotLock i' j' = if i' = i ∧ j' = j then l else s.slotLock i' j' := by
  unfold Store.setSlotLock
  by_cases hi : i' = i
  · subst hi
    by_cases hj : j' = j
    · subst hj
      simp
    · simp [hj]
  · simp [hi]

omit [Fintype ι] [DecidableEq ι] in
/-- The holds on record at a slot are those of the lock put there. -/
theorem record_setSlotLock (s : Store ι K V) (i j : ℕ) (l : SerialMutex.Store ι)
    (h : Hold ι) (u : ι) :
    (s.setSlotLock i j l).record h u =
      if h.shard = i ∧ h.slot = j then l.record h.read h.acquirer u else s.record h u := by
  unfold Store.record
  rw [slotLock_setSlotLock]
  split_ifs <;> rfl

omit [Fintype ι] in
/-- A slot mutex that moves its record moves the record of one hold. -/
theorem record_setSlotLock_moves {h₀ : Hold ι} {u : ι} {n : ℕ}
    (hm : SerialMutex.Moves (s.slotLock h₀.shard h₀.slot) l h₀.read h₀.acquirer u n) (h : Hold ι)
    (v : ι) : (s.setSlotLock h₀.shard h₀.slot l).record h v =
      if h = h₀ ∧ v = u then n else s.record h v := by
  rw [record_setSlotLock]
  obtain ⟨i, j, r, a⟩ := h
  obtain ⟨i₀, j₀, r₀, a₀⟩ := h₀
  simp only [Hold.mk.injEq]
  by_cases hb : i = i₀ ∧ j = j₀
  · obtain ⟨rfl, rfl⟩ := hb
    rw [if_pos ⟨rfl, rfl⟩, hm.record_eq]
    simp [Store.record, and_assoc]
  · rw [if_neg hb, if_neg]
    rintro ⟨⟨h₁, h₂, -⟩, -⟩
    exact hb ⟨h₁, h₂⟩

omit [Fintype ι] [DecidableEq ι] in
/-- A slot mutex that keeps its record. -/
theorem record_setSlotLock_keeps {i j : ℕ} (hk : SerialMutex.Keeps (s.slotLock i j) l) (h : Hold ι)
    (u : ι) : (s.setSlotLock i j l).record h u = s.record h u := by
  rw [record_setSlotLock]
  split_ifs with hij
  · rw [hk.record, Store.record, hij.1, hij.2]
  · rfl

/-- The locks after an access of a slot mutex. -/
theorem Sound.setSlotLock {i j : ℕ} (hs : Sound ids s)
    (hk : SerialMutex.Knows ids t (s.slotLock i j) p)
    (hr : SerialMutex.exec ids adaptive t ch (s.slotLock i j) p = some (l, e)) :
    Sound ids (s.setSlotLock i j l) := by
  refine ⟨hs.accounts, hs.unparked, fun i' j' ↦ ?_⟩
  rw [slotLock_setSlotLock]
  split_ifs
  · exact (SerialMutex.exec_word (hs.exact i j) hk hr).exact (hs.exact i j)
  · exact hs.exact i' j'

/-- An access of a slot mutex by `t` leaves every other thread what it has. -/
theorem spares_setSlotLock {i j : ℕ} {u : ι} (hs : Sound ids s)
    (hk : SerialMutex.Knows ids t (s.slotLock i j) p)
    (hr : SerialMutex.exec ids adaptive t ch (s.slotLock i j) p = some (l, e)) (hu : u ≠ t) :
    Spares u s (s.setSlotLock i j l) := by
  refine ⟨fun _ ↦ rfl, fun _ ↦ rfl, rfl, fun h ↦ ?_, fun i' j' ↦ ?_⟩
  · rw [record_setSlotLock]
    split_ifs with hij
    · have hne : e ≠ .ret .inconsistent := by
        rintro rfl
        exact SerialMutex.exec_consistent (hs.exact i j) hk hr
      rw [(SerialMutex.exec_holds hr).other hne hu, Store.record, hij.1, hij.2]
    · rfl
  · rw [slotLock_setSlotLock]
    split_ifs with hij
    · rw [hij.1, hij.2]
      exact (SerialMutex.exec_word (hs.exact i j) hk hr).foreign hu
    · exact .refl u _

omit [Fintype ι] in
/-- The record after the hold `h₀` was gained. -/
theorem count_gained (h₀ : Hold ι) {xs ys : List (Hold ι)}
    (hm : SerialMutex.Moves (s.slotLock h₀.shard h₀.slot) l h₀.read h₀.acquirer t
      (s.record h₀ t + 1))
    (hrec : ∀ h, s.record h t = (xs ++ ys).count h) (h : Hold ι) :
    (s.setSlotLock h₀.shard h₀.slot l).record h t = (xs ++ (h₀ :: ys)).count h := by
  rw [record_setSlotLock_moves hm, hrec, hrec]
  by_cases hh : h = h₀
  · subst hh
    simp only [List.count_append, List.count_cons_self, and_self, if_true]
    omega
  · rw [if_neg fun hc ↦ hh hc.1]
    simp [List.count_append, Ne.symm hh]

omit [Fintype ι] in
/-- The record after the hold `h₀` was released. -/
theorem count_released {h₀ : Hold ι} {xs ys : List (Hold ι)}
    (hm : SerialMutex.Moves (s.slotLock h₀.shard h₀.slot) l h₀.read h₀.acquirer t
      (s.record h₀ t - 1))
    (hrec : ∀ h, s.record h t = (xs ++ (h₀ :: ys)).count h) (h : Hold ι) :
    (s.setSlotLock h₀.shard h₀.slot l).record h t = (xs ++ ys).count h := by
  rw [record_setSlotLock_moves hm, hrec, hrec]
  by_cases hh : h = h₀
  · subst hh
    simp only [List.count_append, List.count_cons_self, and_self, if_true]
    omega
  · rw [if_neg fun hc ↦ hh hc.1]
    simp [List.count_append, Ne.symm hh]

omit [Fintype ι] [DecidableEq ι] in
/-- The release that is waited for gives back the hold of the continuation. -/
theorem Next.Expects.of_release {read : Bool} {a : ι} (h : k.Expects L t (.release read a)) :
    (k.hold t).read = read ∧ (k.hold t).acquirer = a ∧ k.Expects L t .wake := by
  cases k with
  | locked v | attempt i j => simp [Next.Expects] at h
  | unlocked v r | dropped g | backOut i j n b | detached i j chains =>
    simp only [Next.Expects, SerialMutex.Phase.release.injEq, reduceCtorEq, or_false] at h
    exact ⟨h.1.symm, h.2.symm, Or.inr rfl⟩

/-- A call whose release of a slot is over. -/
theorem Mine.resumeSlot_released (hk : k.Expects L t .wake)
    (hshared : ∀ i, (s.shardLock i).shared t = if k.shares = some i then 1 else 0)
    (hexclusive : ∀ i, (s.shardLock i).exclusive t = if k.seals = some i then 1 else 0)
    (hrec : ∀ h, s.record h t = (s.holds t ++ k.kept L t).count h) :
    Mine L ids t s (resumeSlot L t s k .unit).2.pc := by
  cases k with
  | unlocked v r => exact .of_stands (stands_visited r) hshared hexclusive hrec
  | dropped g =>
    refine .outside hshared hexclusive fun h ↦ (hrec h).trans ?_
    simp [Next.kept]
  | backOut i j n b => exact .of_stands (stands_backOutNext b) hshared hexclusive hrec
  | detached i j chains => exact .of_stands (stands_releaseNext chains) hshared hexclusive hrec
  | locked v | attempt i j => simp [Next.Expects] at hk

omit [DecidableEq ι] [Fintype ι] in
/-- Going on after a call of a slot's lock is a matter of the program counter alone. -/
theorem resumeSlot_store (s : Store ι K V) (k : Next ι K V) (r : SerialMutex.Ret) :
    (resumeSlot L t s k r).1 = s := by
  unfold resumeSlot
  split <;> rfl

variable [BEq K] [Hashable K]

/-- An access of a slot mutex leaves that mutex, as the access of the mutex alone does. -/
theorem exec_slot_store {o : Outcome (Pc ι K V) (Ret ι K V)}
    (h : exec L ids adaptive t ch s (.slot p k) = some (s', o)) :
    ∃ l e, SerialMutex.exec ids adaptive t ch (s.slotLock k.target.1 k.target.2) p = some (l, e) ∧
      s' = s.setSlotLock k.target.1 k.target.2 l := by
  simp only [exec] at h
  split at h
  · cases h
  · rename_i l p' hr
    cases h
    exact ⟨l, _, hr, rfl⟩
  · rename_i l e hr
    have hs : (resumeSlot L t (s.setSlotLock k.target.1 k.target.2 l) k e).1 = s' :=
      congrArg Prod.fst (Option.some.inj h)
    exact ⟨l, _, hr, hs ▸ resumeSlot_store _ k e⟩

/-- An access of a slot mutex inside a call. -/
theorem exec_locks_slot {o : Outcome (Pc ι K V) (Ret ι K V)} (hs : Sound ids s)
    (hm : Mine L ids t s (some (.slot p k)))
    (h : exec L ids adaptive t ch s (.slot p k) = some (s', o)) : Steps L ids t s s' o.pc := by
  have hexp : k.Expects L t (SerialMutex.phase p) := hm.phased _ rfl
  have hk : SerialMutex.Knows ids t (s.slotLock k.target.1 k.target.2) p := hm.knows _ rfl
  have hshared : ∀ i, (s.shardLock i).shared t = if k.shares = some i then 1 else 0 := hm.shared
  have hexclusive : ∀ i, (s.shardLock i).exclusive t = if k.seals = some i then 1 else 0 :=
    hm.exclusive
  have hrec : ∀ h, s.record h t =
      (s.holds t ++ (stillHeld (k.hold t) (SerialMutex.phase p) ++ k.kept L t)).count h := hm.record
  simp only [exec] at h
  rw [k.target_eq t] at h hk
  cases hr : SerialMutex.exec ids adaptive t ch (s.slotLock (k.hold t).shard (k.hold t).slot) p with
  | none =>
    rw [hr] at h
    cases h
  | some x =>
    obtain ⟨l, e⟩ := x
    rw [hr] at h
    have hsound := hs.setSlotLock hk hr
    have hspares : ∀ u, u ≠ t → Spares u s (s.setSlotLock (k.hold t).shard (k.hold t).slot l) :=
      fun u hu ↦ spares_setSlotLock hs hk hr hu
    -- inside the operation
    have hstay : ∀ p', e = .goto p' → k.Expects L t (SerialMutex.phase p') →
        (∀ h, (s.setSlotLock (k.hold t).shard (k.hold t).slot l).record h t = (s.holds t ++
          (stillHeld (k.hold t) (SerialMutex.phase p') ++ k.kept L t)).count h) →
        Steps L ids t s s' o.pc := by
      rintro p' rfl hexp' hrec'
      cases h
      refine ⟨hsound, ⟨hshared, hexclusive, hrec', ?_, ?_⟩, hspares⟩
      · rintro _ ⟨⟩
        exact hexp'
      · rintro _ ⟨⟩
        show SerialMutex.Knows ids t (Store.slotLock _ k.target.1 k.target.2) p'
        rw [k.target_eq t, slotLock_setSlotLock, if_pos ⟨rfl, rfl⟩]
        exact SerialMutex.exec_knows (hs.exact _ _) hk hr rfl
    -- after the operation
    have hdone : ∀ r, e = .ret r →
        Mine L ids t (s.setSlotLock (k.hold t).shard (k.hold t).slot l)
          (resumeSlot L t (s.setSlotLock (k.hold t).shard (k.hold t).slot l) k r).2.pc →
        Steps L ids t s s' o.pc := by
      rintro r rfl hmine
      have hsame :=
        resumeSlot_store (L := L) (t := t) (s.setSlotLock (k.hold t).shard (k.hold t).slot l) k r
      simp only [Option.some.injEq] at h
      rw [h] at hmine hsame
      subst hsame
      exact ⟨hsound, hmine, hspares⟩
    cases SerialMutex.exec_holds hr with
    | stay p' ho hp hkeep =>
      refine hstay p' ho (hp ▸ hexp) fun h ↦ ?_
      rw [record_setSlotLock_keeps hkeep, hp]
      exact hrec h
    | gain read hp ho hmove =>
      rw [hp] at hexp hrec
      cases k <;> simp [Next.Expects] at hexp
      subst hexp
      have hcount := count_gained (Visit.hold _ t) hmove hrec
      exact hdone _ ho
        (.of_stands ⟨fun _ ↦ rfl, fun _ ↦ rfl, rfl, trivial, trivial⟩ hshared hexclusive hcount)
    | refused read hp ho hsame =>
      rw [hp] at hexp hrec
      cases k <;> simp [Next.Expects] at hexp
      rename_i v
      have hcount : ∀ h, (s.setSlotLock v.shard v.slot l).record h t = (s.holds t ++ []).count h :=
        fun h ↦
          (record_setSlotLock_keeps ⟨by rw [hsame]; rfl, by rw [hsame]; rfl⟩ h t).trans (hrec h)
      have hgo : Mine L ids t (s.setSlotLock v.shard v.slot l)
          (some (leave (.finish v.shard (.panicked .lock)))) :=
        .of_stands (stands_leave rfl) hshared hexclusive hcount
      rcases ho with ho | ho
      · exact hdone _ ho hgo
      · exact hdone _ ho hgo
    | won hp ho hmove =>
      rw [hp] at hexp hrec
      cases k <;> simp [Next.Expects] at hexp
      rename_i i j
      have hcount := count_gained ⟨i, j, false, t⟩ hmove hrec
      refine hdone _ ho (.of_stands (stands_detachNext hexp) hshared hexclusive fun h ↦
        (hcount h).trans ?_)
      rw [taken_snoc]
      refine List.Perm.count_eq ?_ h
      exact (List.perm_append_singleton _ _).symm.append_left _
    | lost hp ho hsame =>
      rw [hp] at hexp hrec
      cases k <;> simp [Next.Expects] at hexp
      have hcount : ∀ h, (s.setSlotLock _ _ l).record h t = (s.holds t ++ taken t _ 0 _).count h :=
        fun h ↦ (record_setSlotLock_keeps ⟨by rw [hsame], by rw [hsame]⟩ h t).trans (hrec h)
      exact hdone _ ho
        (.of_stands ⟨fun _ ↦ rfl, fun _ ↦ rfl, rfl, trivial, trivial⟩ hshared hexclusive hcount)
    | drop read a hp ho hmove =>
      rw [hp] at hexp hrec
      obtain ⟨rfl, rfl, hwake⟩ := hexp.of_release
      have hcount := count_released hmove hrec
      obtain ho | ⟨p', ho, hp'⟩ := ho
      · exact hdone _ ho (.resumeSlot_released hwake hshared hexclusive hcount)
      · refine hstay p' ho (hp' ▸ hwake) fun h ↦ ?_
        rw [hp', hcount]
        rfl
    | broken read a hp ho =>
      rw [ho] at hr
      exact absurd hr (SerialMutex.exec_consistent (hs.exact _ _) hk)
    | woke hp ho hkeep =>
      rw [hp] at hexp hrec
      refine hdone _ ho (.resumeSlot_released hexp hshared hexclusive fun h ↦ ?_)
      rw [record_setSlotLock_keeps hkeep]
      exact hrec h

end SlotLock

/-! ### Runs

All accesses, and the starts of calls. -/

section Runs

variable {adaptive : ℕ} {t : ι} {s s' : Store ι K V}

/-- The program points of the map's own accesses. -/
def Pc.Own : Pc ι K V → Prop
  | .shard _ _ | .slot _ _ => False
  | _ => True

omit [Fintype ι] [DecidableEq ι] in
theorem stands_own {p : Pc ι K V} (hp : p.Own) : Stands L t p p.shares p.seals (p.hands L t) := by
  cases p with
  | shard p k | slot p k => exact hp.elim
  | _ => exact ⟨fun _ ↦ rfl, fun _ ↦ rfl, rfl, trivial, trivial⟩

/-- An access of the map's own takes what the thread owns along. -/
theorem Steps.own {p q : Pc ι K V} (hs : Sound ids s) (hm : Mine L ids t s (some p)) (hp : p.Own)
    (hl : SameLocks s s') (hq : Stands L t q p.shares p.seals (p.hands L t)) :
    Steps L ids t s s' (some q) :=
  .go hs hm hl (stands_own hp) hq

/-- The same, for a call that owns nothing. -/
theorem Steps.free {p : Pc ι K V} {o : Outcome (Pc ι K V) (Ret ι K V)} (hs : Sound ids s)
    (hm : Mine L ids t s (some p)) (hp : Stands L t p none none []) (ho : Free L t o) :
    Steps L ids t s s o.pc := by
  refine ⟨hs, .of_free ho (fun i ↦ ?_) (fun i ↦ ?_) (fun h ↦ ?_),
    fun u _ ↦ (SameLocks.refl s).spares u⟩
  · exact (hm.shared i).trans (hp.pinned i)
  · exact (hm.exclusive i).trans (hp.sealed i)
  · refine (hm.record h).trans ?_
    simp [hp.hands]

variable [BEq K] [Hashable K]

omit [Fintype ι] [BEq K] [Hashable K] [DecidableEq ι] in
/-- A point that reads or writes an entry is not inside a call of a lock. -/
theorem Pc.Derefs.own {p : Pc ι K V} {a : ℕ} (h : p.Derefs a) : p.Own := by
  cases p with
  | shard p k | slot p k => exact h
  | _ => trivial

/-- An access outside of the locks keeps them sound and every thread's ownership. -/
theorem Access.locks {p : Pc ι K V} {o : Outcome (Pc ι K V) (Ret ι K V)}
    (ha : Access L ids t s p s' o) (hs : Sound ids s) (hm : Mine L ids t s (some p)) :
    Steps L ids t s s' o.pc := by
  cases ha with
  | astray hp _ => exact .own hs hm hp.own ⟨rfl, rfl, rfl⟩ (stands_own hp.own)
  | loadHead => exact .own hs hm trivial (.refl s) (stands_walkNext _ _)
  | hit => exact .own hs hm trivial (.refl s) (stands_hit _ _)
  | @pass v prev cur e he =>
    have hnext := stands_walkNext (L := L) (t := t) (v := v.see e) cur e.next
    rw [Visit.see_hold, Visit.see_shard] at hnext
    exact .own hs hm trivial (.refl s) hnext
  | replace | countUp | freeEntry => exact .own hs hm trivial ⟨rfl, rfl, rfl⟩ (stands_unlock _)
  | @newEntry v _ _ entry =>
    exact .own hs hm trivial ⟨rfl, rfl, rfl⟩ (stands_own (p := .linkEntry v entry) trivial)
  | @linkEntry v => exact .own hs hm trivial ⟨rfl, rfl, rfl⟩ (stands_own (p := .countUp v) trivial)
  | @unlinkLoad v prev cur e =>
    exact .own hs hm trivial (.refl s) (stands_own (p := .unlinkStore v prev cur e.next) trivial)
  | @unlinkHead v cur | @unlinkAfter v _ cur =>
    exact .own hs hm trivial ⟨rfl, rfl, rfl⟩ (stands_own (p := .countDown v cur) trivial)
  | @countDown v cur e =>
    exact .own hs hm trivial ⟨rfl, rfl, rfl⟩ (stands_own (p := .freeEntry v cur e.value) trivial)
  | lenLoad | reentrant => exact .own hs hm trivial (.refl s) (stands_leave rfl)
  | owned => exact .own hs hm trivial (.refl s) (stands_backOutNext _)
  | detachSwap => exact .own hs hm trivial ⟨rfl, rfl, rfl⟩ (stands_countNext _ _ _ _)
  | detachCount => exact .own hs hm trivial (.refl s) (stands_countNext _ _ _ _)
  | detachSub => exact .own hs hm trivial ⟨rfl, rfl, rfl⟩ (stands_swapNext _ _)
  | inspect => exact .own hs hm trivial (.refl s) (stands_inspectNext _)
  | dropped => exact .free hs hm stands_dropChains (free_clearNext _)
  | dropNull => exact .own hs hm trivial (.refl s) stands_dropChains
  | dropEntry => exact .own hs hm trivial ⟨rfl, rfl, rfl⟩ stands_dropChains

/-- **Every access keeps the locks sound and every thread's ownership.** -/
theorem exec_locks {ch : Choice ι} {p : Pc ι K V} {o : Outcome (Pc ι K V) (Ret ι K V)}
    (hs : Sound ids s) (hm : Mine L ids t s (some p))
    (h : exec L ids adaptive t ch s p = some (s', o)) :
    Steps L ids t s s' o.pc := by
  obtain ⟨q, k, rfl⟩ | ⟨q, k, rfl⟩ | ha := exec_cases h
  · exact exec_locks_shard hs hm h
  · exact exec_locks_slot hs hm h
  · exact ha.locks hs hm

/-- What the start of a call establishes. A guard handed over changes what its new holder has, so
the other threads are spoken of as a whole. -/
structure Starts (L : Layout) (ids : SerialMutex.OwnerIds ι) (t : ι) (s s' : Store ι K V)
    (q : Option (Pc ι K V)) : Prop where
  sound : Sound ids s'
  mine : Mine L ids t s' q
  others : ∀ u, u ≠ t → ∀ q, Mine L ids u s q → Mine L ids u s' q

omit [BEq K] [Hashable K] in
theorem Starts.of_same {q : Option (Pc ι K V)} (hs : Sound ids s) (hl : SameLocks s s')
    (hm : Mine L ids t s' q) : Starts L ids t s s' q :=
  ⟨hl.sound hs, hm, fun u _ _ hu ↦ hu.spare (hl.spares u)⟩

omit [BEq K] [Hashable K] in
/-- A call that owns nothing starts. -/
theorem Starts.free {o : Outcome (Pc ι K V) (Ret ι K V)} (hs : Sound ids s)
    (hm : Mine L ids t s none) (ho : Free L t o) : Starts L ids t s s o.pc :=
  .of_same hs (.refl s) (.of_free ho hm.shared hm.exclusive (by simpa using hm.record))

omit [Fintype ι] [BEq K] [Hashable K] in
/-- The holds of the guards are those of one guard and of the others. -/
theorem perm_holds {gs : List (Guard ι)} {g : Guard ι} (hg : g ∈ gs) :
    List.Perm (gs.map Guard.hold) ((gs.erase g).map Guard.hold ++ [g.hold]) := by
  have := (List.perm_cons_erase hg).map Guard.hold
  exact this.trans (List.perm_append_singleton _ _).symm

omit [BEq K] [Hashable K] in
/-- A returned guard is about to be dropped: its hold passes from the hands of the thread to its
call. -/
theorem starts_dropGuard {g : Guard ι} (hs : Sound ids s) (hm : Mine L ids t s none)
    (hg : g ∈ s.guards t) :
    Starts L ids t s (s.giveUp t g)
      (some (.slot (releasePc g.hold.read g.hold.acquirer) (.dropped g))) := by
  refine ⟨⟨hs.accounts, hs.unparked, hs.exact⟩, ?_, fun u hu q hq ↦ ?_⟩
  · have hstands : Stands L t
      (.slot (releasePc g.hold.read g.hold.acquirer) (.dropped g) : Pc ι K V)
        none none [g.hold] := by
      refine ⟨fun _ ↦ rfl, fun _ ↦ rfl, ?_, Or.inl (phase_releasePc ..), Or.inr (Or.inr rfl)⟩
      show stillHeld _ (SerialMutex.phase (releasePc _ _)) ++ [] = _
      rw [phase_releasePc]
      rfl
    refine .of_stands hstands hm.shared hm.exclusive fun h ↦ (hm.record h).trans ?_
    show ((s.guards t).map Guard.hold ++ []).count h =
      ((Function.update s.guards t _ t).map Guard.hold ++ [g.hold]).count h
    rw [List.append_nil, Function.update_self, (perm_holds hg).count_eq]
  · exact hq.spare ⟨fun _ ↦ rfl, fun _ ↦ rfl, Function.update_of_ne hu _ _, fun _ ↦ rfl,
      fun _ _ ↦ .refl u _⟩

omit [BEq K] [Hashable K] in
/-- A returned guard is handed to another thread. -/
theorem starts_sendGuard {u : ι} {g : Guard ι} (hs : Sound ids s) (hm : Mine L ids t s none)
    (hg : g ∈ s.guards t) (h : send t u g s = some s') : Starts L ids t s s' none := by
  unfold send at h
  split at h
  · cases h
  rename_i l o hr
  obtain ⟨-, hut, hmrec⟩ := SerialMutex.enter_send hr
  obtain ⟨hstate, -, hreads, hwrites, hforeign, -⟩ := SerialMutex.enter_spec ids hr
  obtain ⟨ht, hu, hv⟩ := transfer_cases (f := fun v ↦ s.record g.hold v) hut
  have hguards : s'.guards = Function.update (Function.update s.guards t ((s.guards t).erase g)) u
      (s.guards u ++ [g]) := by
    cases h
    show Function.update (Function.update s.guards t _) u
      (Function.update s.guards t _ u ++ [g]) = _
    rw [Function.update_of_ne hut]
  have hslot : ∀ i j, s'.slotLock i j =
      if i = g.hold.shard ∧ j = g.hold.slot then l else s.slotLock i j := by
    cases h
    exact fun i j ↦ slotLock_setSlotLock ((s.giveUp t g).receive u g) _ _ i j l
  have hshard : s'.shardLock = s.shardLock := by
    cases h
    rfl
  have hrec : ∀ x v, s'.record x v =
      if x = g.hold then transfer (fun v ↦ s.record g.hold v) t u v else s.record x v := by
    intro x v
    unfold Store.record
    rw [hslot]
    obtain ⟨i, j, r, a⟩ := x
    generalize g.hold = y at *
    obtain ⟨i₀, j₀, r₀, a₀⟩ := y
    simp only [Hold.mk.injEq]
    by_cases hb : i = i₀ ∧ j = j₀
    · obtain ⟨rfl, rfl⟩ := hb
      rw [if_pos ⟨rfl, rfl⟩, hmrec]
      simp
    · rw [if_neg hb, if_neg fun h ↦ hb ⟨h.1, h.2.1⟩]
  have hfor : ∀ v, v ≠ t → ∀ i j, SerialMutex.Foreign v (s.slotLock i j) (s'.slotLock i j) := by
    intro v hv i j
    rw [hslot]
    split_ifs with hij
    · rw [hij.1, hij.2]
      exact hforeign v hv
    · exact .refl v _
  refine ⟨⟨hshard ▸ hs.accounts, hshard ▸ hs.unparked, fun i j ↦ ?_⟩, ?_, fun v hv' q hq ↦ ?_⟩
  · rw [hslot]
    split_ifs
    · exact (hs.exact _ _).of_fields_eq (fun h ↦ hstate ▸ h) (by rw [hstate]) (by rw [hstate])
        (by rw [hstate]) hreads hwrites
    · exact hs.exact i j
  · refine .outside (hshard ▸ hm.shared) (hshard ▸ hm.exclusive) fun x ↦ ?_
    have hx : s.record x t = (s.holds t).count x := by simpa using hm.record x
    unfold Store.holds at hx ⊢
    rw [(perm_holds hg).count_eq, List.count_append] at hx
    rw [hrec, hguards, Function.update_of_ne hut.symm, Function.update_self]
    split_ifs with hxg
    · subst hxg
      rw [ht, hx]
      simp
    · rw [hx]
      simp [Ne.symm hxg]
  · by_cases hvu : v = u
    · subst hvu
      refine ⟨hshard ▸ hq.shared, hshard ▸ hq.exclusive, fun x ↦ ?_, hq.phased, fun p hp ↦ ?_⟩
      · have hx := hq.record x
        unfold Store.holds at hx ⊢
        rw [hrec, hguards, Function.update_self]
        split_ifs with hxg
        · subst hxg
          rw [hu, hx]
          simp only [List.count_append, List.map_append, List.map_cons, List.map_nil,
            List.count_singleton_self]
          omega
        · rw [hx]
          simp [List.count_append, Ne.symm hxg]
      · have hk := hq.knows p hp
        cases p with
        | shard p k =>
          show RawMutex.Knows v (s'.shardLock k.target) p
          rw [hshard]
          exact hk
        | slot p k => exact SerialMutex.Knows.mono hk (hfor v hv' _ _)
        | _ => trivial
    · refine hq.spare ⟨fun i ↦ by rw [hshard], fun i ↦ by rw [hshard], ?_, fun x ↦ ?_, hfor v hv'⟩
      · rw [hguards, Function.update_of_ne hvu, Function.update_of_ne hv']
      · rw [hrec]
        split_ifs with hxg
        · subst hxg
          exact hv v hv' hvu
        · rfl

omit [BEq K] in
/-- **Every start of a call keeps the locks sound and every thread's ownership.** -/
theorem enter_locks {op : Op ι K V} {o : Outcome (Pc ι K V) (Ret ι K V)} (hs : Sound ids s)
    (hm : Mine L ids t s none) (h : enter L t op s = some (s', o)) : Starts L ids t s s' o.pc := by
  have hsharing : ∀ k : After ι K V, k.Expects .acquire →
      Free L t (.goto (sharing k) : Outcome (Pc ι K V) (Ret ι K V)) := by
    rintro k hk _ ⟨⟩
    exact stands_sharing hk
  have hret : ∀ r, SameLocks s s' →
      Starts L ids t s s' (Outcome.ret r : Outcome (Pc ι K V) (Ret ι K V)).pc :=
    fun r hl ↦ .of_same hs hl (hm.spare (hl.spares t))
  cases op with
  | insert key value | get key | getMut key | remove key | containsKey key =>
    cases h
    exact .free hs hm (hsharing _ rfl)
  | clear =>
    cases h
    exact .free hs hm (free_clearNext 0)
  | len =>
    cases h
    exact .free hs hm (free_lenNext 0 0)
  | asVec =>
    cases h
    exact .free hs hm (free_asVecNext 0 [])
  | deref g | write g v =>
    simp only [enter] at h
    split_ifs at h
    split at h <;> cases h <;> exact hret _ ⟨rfl, rfl, rfl⟩
  | dropGuard g =>
    simp only [enter] at h
    split_ifs at h with hg
    cases h
    exact starts_dropGuard hs hm hg
  | sendGuard g u =>
    simp only [enter] at h
    split_ifs at h with hg
    obtain ⟨x, hx, hx'⟩ := Option.map_eq_some_iff.1 h
    cases hx'
    exact starts_sendGuard hs hm hg hx

variable (L ids) in
/-- The locks are sound and every thread owns what its program point says. -/
structure Locks (c : Config ι (Store ι K V) (Pc ι K V)) : Prop where
  sound : Sound ids c.shared
  mine : ∀ t, Mine L ids t c.shared (c.pcs t)

variable {ok : Config ι (Store ι K V) (Pc ι K V) → Label ι (Op ι K V) → Prop}
  {c : Config ι (Store ι K V) (Pc ι K V)}

omit [BEq K] [Hashable K] in
/-- Nobody holds anything in the initial configuration. -/
theorem locks_init : Locks L ids (init : Config ι (Store ι K V) (Pc ι K V)) := by
  refine
    ⟨⟨fun _ ↦ RawMutex.accounts_new, fun _ ↦ Word.wp_unlocked, fun _ _ ↦ SerialMutex.exact_new⟩,
    fun t ↦ .outside (fun _ ↦ rfl) (fun _ ↦ rfl) fun h ↦ ?_⟩
  show SerialMutex.Store.record .new h.read h.acquirer t = _
  cases h.read <;> rfl

/-- **Ownership along every run.** -/
theorem reach_locks (h : Reach (atomicHashMap L ids adaptive) ok init c) : Locks L ids c := by
  refine h.invariant (I := Locks L ids) locks_init ?_ ?_
  · rintro c t op ⟨s', o⟩ - ⟨hs, hm⟩ - hpc he
    have hst := enter_locks hs (hpc ▸ hm t) he
    refine ⟨hst.sound, fun u ↦ ?_⟩
    by_cases hu : u = t
    · subst hu
      rw [Config.put_pcs_self]
      exact hst.mine
    · rw [Config.put_pcs_of_ne _ _ hu]
      exact hst.others u hu _ (hm u)
  · rintro c t ch p ⟨s', o⟩ - ⟨hs, hm⟩ - hpc he
    have hst := exec_locks hs (hpc ▸ hm t) he
    refine ⟨hst.sound, fun u ↦ ?_⟩
    by_cases hu : u = t
    · subst hu
      rw [Config.put_pcs_self]
      exact hst.mine
    · rw [Config.put_pcs_of_ne _ _ hu]
      exact (hm u).spare (hst.spares u hu)

end Runs

/-! ### What the locks exclude

The invariant in the form in which it is used. -/

section Exclusion

variable {c : Config ι (Store ι K V) (Pc ι K V)} {t u : ι}

/-- All that `t` holds of the slot mutexes, in its returned guards and in its call. -/
def holdsOf (L : Layout) (c : Config ι (Store ι K V) (Pc ι K V)) (t : ι) : List (Hold ι) :=
  c.shared.holds t ++ (c.pcs t).elim [] (Pc.hands L t)

omit [Fintype ι] [DecidableEq ι] in
/-- A guard's hold is among those of its owner. -/
theorem guard_mem_holdsOf {g : Guard ι} (hg : g ∈ c.shared.guards t) : g.hold ∈ holdsOf L c t :=
  List.mem_append_left _ (List.mem_map.2 ⟨g, hg, rfl⟩)

/-- Every hold of a thread is on record at its slot's lock. -/
theorem Locks.record_pos (h : Locks L ids c) {x : Hold ι} (hx : x ∈ holdsOf L c t) :
    0 < c.shared.record x t := by
  rw [(h.mine t).record]
  exact List.count_pos_iff.2 hx

/-- **A hold for writing is the only hold on its slot**, of all threads. -/
theorem Locks.sole (h : Locks L ids c) {x y : Hold ι} (hx : x ∈ holdsOf L c t) (hw : x.read = false)
    (hy : y ∈ holdsOf L c u) (hi : y.shard = x.shard) (hj : y.slot = x.slot) :
    u = t ∧ y = x ∧ (holdsOf L c t).count x = 1 := by
  have hE := h.sound.exact x.shard x.slot
  have hpx := h.record_pos hx
  have hpy := h.record_pos hy
  have hcount : c.shared.record x t = (holdsOf L c t).count x := (h.mine t).record x
  obtain ⟨i, j, r, a⟩ := x
  obtain ⟨i', j', r', b⟩ := y
  obtain rfl : r = false := hw
  obtain rfl : i' = i := hi
  obtain rfl : j' = j := hj
  have hwx : 0 < (c.shared.slotLock i' j').writes a t := hpx
  obtain ⟨-, -, hreads, -, -⟩ := hE.of_writes hwx
  cases r' with
  | true =>
    have hry : 0 < (c.shared.slotLock i' j').reads b u := hpy
    have hle := le_tally ((c.shared.slotLock i' j').reads b) u
    have hz : tally ((c.shared.slotLock i' j').reads b) = 0 := hreads b
    omega
  | false =>
    have hwy : 0 < (c.shared.slotLock i' j').writes b u := hpy
    obtain ⟨rfl, rfl, hone⟩ := hE.unique_writer hwx hwy
    exact ⟨rfl, rfl, hcount.symm.trans hone⟩

/-- **A call that holds a shard exclusively is the only one in it.** -/
theorem Locks.alone (h : Locks L ids c) {p q : Pc ι K V} {i : ℕ} (hpc : c.pcs t = some p)
    (hp : p.sealed i = 1) (hq : c.pcs u = some q) : q.pinned i = 0 ∧ (u ≠ t → q.sealed i = 0) := by
  have hx : (c.shared.shardLock i).exclusive t = 1 := by
    rw [(h.mine t).exclusive, hpc]
    exact hp
  have hu : (c.shared.shardLock i).shared u = q.pinned i := by
    rw [(h.mine u).shared, hq]
    rfl
  obtain ⟨he, hsh, -⟩ | ⟨he, -⟩ := h.sound.accounts i
  · refine ⟨hu ▸ (tally_eq_zero_iff.1 hsh) u, fun hut ↦ ?_⟩
    have hle := add_le_tally (c.shared.shardLock i).exclusive hut
    have hux : (c.shared.shardLock i).exclusive u = q.sealed i := by
      rw [(h.mine u).exclusive, hq]
      rfl
    omega
  · have hle := le_tally (c.shared.shardLock i).exclusive t
    omega

end Exclusion

end Shared

end AtomicHashMap

end Crossync
