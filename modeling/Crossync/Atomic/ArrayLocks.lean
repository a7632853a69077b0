import Crossync.Core.RawMutexExclusion
import Crossync.Core.RawMutexHolds
import Crossync.Core.SerialExact
import Crossync.Core.SerialHolds
import Crossync.Atomic.Array

/-!
# The locks of `AtomicArray`

Which thread owns what of the coordination lock and of the slot locks, at every program point. A
thread's shared acquisitions are the guards in its hands and the one its running call has taken
(`pinned`); its exclusive acquisition is the one of a reset between `try_exclusive_guard` and the
release (`sealed`); and its guards on a slot lock are the returned guards it holds and the slot
guard its running call has taken (`inHand`).

`Mine` states this for one thread, `Sound` what holds of the locks themselves, and `reach_locks`
that both hold along every run. The consequence used everywhere else is `Locks.alone`: while a reset
is in its exclusive section, no other thread is in a shared one and no guard is live.

## The shape of the argument

Two locks, and one interface for each: `RawMutex.exec_holds` and `SerialMutex.exec_holds` say what
an access of a lock does to the record of its owners. What is proved here is that the program points
of the array agree with these records. A point inside a call of a lock owns what the caller owned
before the call, and one more as soon as the phase of the lock says that the acquisition has taken
effect.

`Steps` is what an access has to give: the locks stay sound, its thread owns what its next point
says, and every other thread is spared. `Starts` is the same for the start of a call.
-/

open Interleave

namespace Crossync

namespace AtomicArray

variable {ι α : Type*} [DecidableEq ι]

/-! ### What a program point owns

Read off the program point alone: shares of the coordination lock, the exclusive section, and guards
of slots in hand. -/

/-- Shared acquisitions of the coordination lock taken by the running call. -/
def Pc.pinned : Pc ι α → ℕ
  | .coord p _ => (RawMutex.phase p).pins
  | .resetTry _ | .resetShared _ | .resetStorage _ | .resetHead _ _ | .resetTail _ _ | .resetLen _ _
  | .resetDrop _ _ => 0
  | _ => 1

/-- Exclusive acquisitions of the coordination lock taken by the running call. -/
def Pc.sealed : Pc ι α → ℕ
  | .coord p _ => (RawMutex.phase p).seals
  | .resetStorage _ | .resetHead _ _ | .resetTail _ _ | .resetLen _ _ => 1
  | _ => 0

/-- The guard that a visit of `t` takes on its slot. -/
def Visit.guard (v : Visit α) (t : ι) : Guard ι := ⟨v.slots, v.target, v.job.reads, t⟩

/-- The slot guard the running call has taken and not yet released. -/
def Pc.inHand (t : ι) : Pc ι α → List (Guard ι)
  | .access v => [v.guard t]
  | .unlock p v => if SerialMutex.phase p = .wake then [] else [v.guard t]
  | .dropSlot p g => if SerialMutex.phase p = .wake then [] else [g]
  | _ => []

/-- The phases of a coordination operation that a continuation may wait for. No writer ever parks on
the coordination lock, so a shared release wakes nobody and is over with its one access. -/
def After.Expects : After ι α → RawMutex.Phase → Prop
  | .push _, ph | .job _, ph | .inspect _, ph => ph = .acquire
  | .attempt _, ph => ph = .attempt
  | .retry _, ph | .unwind _, ph | .finish _, ph => ph = .releaseShared
  | .commit _ _, ph => ph = .releaseExclusive ∨ ph = .wake

/-- The lock operation inside a program point is the one the program point is for. -/
def Pc.Phased (t : ι) : Pc ι α → Prop
  | .coord p k => k.Expects (RawMutex.phase p)
  | .lock p v => SerialMutex.phase p = .acquire v.job.reads
  | .unlock p v => SerialMutex.phase p = .release v.job.reads t ∨ SerialMutex.phase p = .wake
  | .dropSlot p g => SerialMutex.phase p = .release g.read g.acquirer ∨ SerialMutex.phase p = .wake
  | _ => True

/-- A continuation of a reset refers to a replacement that was allocated. -/
def After.Known (n : ℕ) : After ι α → Prop
  | .attempt r | .inspect r | .retry r | .unwind r | .commit r _ => r.fresh < n
  | _ => True

/-- The storages a program point refers to were allocated: their addresses are below `n`. -/
def Pc.Known (n : ℕ) : Pc ι α → Prop
  | .coord _ k => k.Known n
  | .waitWrite v | .lock _ v | .access v | .unlock _ v => v.slots < n
  | .dropSlot _ g => g.storage < n
  | .resetTry r | .resetShared r | .inspect r _ | .resetStorage r | .resetHead r _ | .resetTail r _
  | .resetLen r _ | .resetDrop r _ => r.fresh < n
  | _ => True

omit [DecidableEq ι] in
/-- A storage that was allocated stays allocated. -/
theorem Pc.Known.mono {n m : ℕ} (hnm : n ≤ m) {p : Pc ι α} (h : p.Known n) : p.Known m := by
  cases p with
  | coord p k => cases k <;> first | exact lt_of_lt_of_le h hnm | trivial
  | _ => first | exact lt_of_lt_of_le h hnm | trivial

variable [Fintype ι] (ids : SerialMutex.OwnerIds ι)

/-- What the lock operation inside a program point relies on. -/
def Pc.Knows (t : ι) (s : Store ι α) : Pc ι α → Prop
  | .coord p _ => RawMutex.Knows t s.coordLock p
  | .lock p v | .unlock p v => SerialMutex.Knows ids t (s.slot v.slots v.target).lock p
  | .dropSlot p g => SerialMutex.Knows ids t (s.slot g.storage g.index).lock p
  | _ => True

/-- The guards of `t` on slot locks, returned ones and the one of its running call. -/
def hands (t : ι) (s : Store ι α) (q : Option (Pc ι α)) : List (Guard ι) :=
  s.guards t ++ q.elim [] (Pc.inHand t)

/-- Live guards of the kind, slot and acquirer of `g`, by the record of the slot lock. -/
def Store.record (s : Store ι α) (g : Guard ι) (t : ι) : ℕ :=
  (s.slot g.storage g.index).lock.record g.read g.acquirer t

/-- **What one thread owns**, outside (`none`) or at a program point. -/
structure Mine (t : ι) (s : Store ι α) (q : Option (Pc ι α)) : Prop where
  shared : s.coordLock.shared t = (s.guards t).length + q.elim 0 Pc.pinned
  exclusive : s.coordLock.exclusive t = q.elim 0 Pc.sealed
  record : ∀ g, s.record g t = (hands t s q).count g
  phased : ∀ p, q = some p → p.Phased t
  known : ∀ p, q = some p → p.Known s.next
  knows : ∀ p, q = some p → p.Knows ids t s

/-- **What holds of the locks themselves**: their words are exact, and no lock of a storage that was
not allocated yet has been touched. -/
structure Sound (s : Store ι α) : Prop where
  accounts : RawMutex.Accounts s.coordLock
  unparked : Word.wp s.coordLock.state = false
  exact : ∀ a i, SerialMutex.Exact ids (s.slot a i).lock
  fresh : ∀ a i, s.next ≤ a → (s.slot a i).lock = .new
  storage : s.storage < s.next

/-- What a step of another thread leaves to `u`. -/
structure Spares (u : ι) (s s' : Store ι α) : Prop where
  shared : s'.coordLock.shared u = s.coordLock.shared u
  exclusive : s'.coordLock.exclusive u = s.coordLock.exclusive u
  guards : s'.guards u = s.guards u
  record : ∀ g, s'.record g u = s.record g u
  next : s.next ≤ s'.next
  foreign : ∀ a i, SerialMutex.Foreign u (s.slot a i).lock (s'.slot a i).lock

variable {ids}

/-- What a thread owns depends on its own entries only, so a step of another thread leaves it true.
-/
theorem Mine.spare {u : ι} {s s' : Store ι α} {q : Option (Pc ι α)} (h : Mine ids u s q)
    (hs : Spares u s s') : Mine ids u s' q where
  shared := by rw [hs.shared, hs.guards, h.shared]
  exclusive := by rw [hs.exclusive, h.exclusive]
  record := fun g ↦ by rw [hs.record, h.record, hands, hands, hs.guards]
  phased := h.phased
  known := fun p hp ↦ (h.known p hp).mono hs.next
  knows := by
    intro p hp
    have hk := h.knows p hp
    cases p with
    | coord p k => exact RawMutex.Knows.mono hk hs.shared.ge hs.exclusive.ge
    | lock p v | unlock p v => exact SerialMutex.Knows.mono hk (hs.foreign _ _)
    | dropSlot p g => exact SerialMutex.Knows.mono hk (hs.foreign _ _)
    | _ => trivial

/-! ### Steps that leave the locks alone

Most accesses of the array are of this kind: loads and stores of the counters, of the values and of
the states of the slots, and the records. -/

/-- The locks, the guards and the allocations are as before. -/
structure SameLocks (s s' : Store ι α) : Prop where
  coordLock : s'.coordLock = s.coordLock
  lock : ∀ a i, (s'.slot a i).lock = (s.slot a i).lock
  guards : s'.guards = s.guards
  next : s.next ≤ s'.next
  storage : s.storage < s.next → s'.storage < s'.next

namespace SameLocks

variable {s s' s'' : Store ι α}

omit [DecidableEq ι] [Fintype ι] in
theorem refl (s : Store ι α) : SameLocks s s := ⟨rfl, fun _ _ ↦ rfl, rfl, le_rfl, id⟩

omit [DecidableEq ι] [Fintype ι] in
theorem trans (h : SameLocks s s') (h' : SameLocks s' s'') : SameLocks s s'' :=
  ⟨h'.coordLock.trans h.coordLock, fun a i ↦ (h'.lock a i).trans (h.lock a i),
    h'.guards.trans h.guards, h.next.trans h'.next, h'.storage ∘ h.storage⟩

omit [DecidableEq ι] [Fintype ι] in
theorem record (h : SameLocks s s') (g : Guard ι) (u : ι) : s'.record g u = s.record g u := by
  unfold Store.record
  rw [h.lock]

omit [DecidableEq ι] in
theorem sound (h : SameLocks s s') (hs : Sound ids s) : Sound ids s' :=
  ⟨h.coordLock ▸ hs.accounts, h.coordLock ▸ hs.unparked, fun a i ↦ h.lock a i ▸ hs.exact a i,
    fun a i ha ↦ (h.lock a i).trans (hs.fresh a i (h.next.trans ha)), h.storage hs.storage⟩

omit [DecidableEq ι] in
theorem spares (h : SameLocks s s') (u : ι) : Spares u s s' :=
  ⟨by rw [h.coordLock], by rw [h.coordLock], by rw [h.guards], fun g ↦ h.record g u, h.next,
    fun a i ↦ h.lock a i ▸ .refl u _⟩

/-- A change that touches no lock leaves a thread what it owns. -/
theorem mine (h : SameLocks s s') {t : ι} {q : Option (Pc ι α)} (hm : Mine ids t s q) :
    Mine ids t s' q :=
  hm.spare (h.spares t)

omit [Fintype ι] in
theorem use (s : Store ι α) (t : ι) (gens : List ℕ) : SameLocks s (s.use t gens) :=
  ⟨rfl, fun _ _ ↦ rfl, rfl, le_rfl, id⟩

omit [DecidableEq ι] [Fintype ι] in
theorem free (s : Store ι α) (a : ℕ) : SameLocks s (s.free a) :=
  ⟨rfl, fun _ _ ↦ rfl, rfl, le_rfl, id⟩

end SameLocks

omit [DecidableEq ι] [Fintype ι] in
/-- An update of one slot is seen at that slot and nowhere else. -/
theorem slot_setSlot (s : Store ι α) (a i b j : ℕ) (x : Slot ι α) :
    (s.setSlot a i x).slot b j = if b = a ∧ j = i then x else s.slot b j := by
  unfold Store.setSlot Store.slot
  by_cases hb : b = a
  · subst hb
    by_cases hj : j = i
    · subst hj
      simp
    · simp [hj]
  · simp [hb]

omit [DecidableEq ι] [Fintype ι] in
@[simp] theorem slot_setSlot_self (s : Store ι α) (a i : ℕ) (x : Slot ι α) :
    (s.setSlot a i x).slot a i = x := by
  simp [slot_setSlot]

omit [DecidableEq ι] [Fintype ι] in
/-- A slot is stored with its lock as it was. -/
theorem SameLocks.setSlot (s : Store ι α) (a i : ℕ) {x : Slot ι α}
    (hx : x.lock = (s.slot a i).lock) : SameLocks s (s.setSlot a i x) := by
  refine ⟨rfl, fun b j ↦ ?_, rfl, le_rfl, id⟩
  rw [slot_setSlot]
  split_ifs with h
  · rw [hx, h.1, h.2]
  · rfl

omit [DecidableEq ι] [Fintype ι] in
/-- A store of a value touches no lock. -/
theorem SameLocks.store (s : Store ι α) (a i : ℕ) (v : α) : SameLocks s (s.store a i v) :=
  (SameLocks.setSlot s a i (x := { s.slot a i with value := some v }) rfl).trans
    ⟨rfl, fun _ _ ↦ rfl, rfl, le_rfl, id⟩

omit [DecidableEq ι] [Fintype ι] in
/-- Showing a value to the caller touches no lock. -/
theorem SameLocks.shown (s : Store ι α) (v : Visit α) (x : α) : SameLocks s (shown s v x) := by
  unfold AtomicArray.shown
  split
  · exact .store ..
  · exact .refl s

/-- The lock operations a call starts with. -/
def Pc.Opens (t : ι) : Pc ι α → Prop
  | .coord p _ => p = .sharedFastLoad true ∨ p = .tryLockExclusive ∨ p = .unlockShared ∨
      p = .unlockExclusiveFast
  | .lock p v => p = .lockFast v.job.reads
  | .unlock p v => p = releasePc v.job.reads t
  | .dropSlot p g => p = releasePc g.read g.acquirer
  | _ => True

omit [DecidableEq ι] [Fintype ι] in
theorem phase_releasePc (read : Bool) (a : ι) :
    SerialMutex.phase (releasePc read a) = .release read a := by
  cases read
  · rfl
  · rfl

omit [DecidableEq ι] in
theorem knows_releasePc {l : SerialMutex.Store ι} {read : Bool} {a t : ι}
    (h : 0 < l.record read a t) : SerialMutex.Knows ids t l (releasePc read a) := by
  cases read
  · exact h
  · exact h

/-- A thread that starts a lock operation knows what the operation relies on: what it owns. -/
theorem knows_of_opens {t : ι} {s : Store ι α} {p : Pc ι α}
    (hshared : s.coordLock.shared t = (s.guards t).length + p.pinned)
    (hexclusive : s.coordLock.exclusive t = p.sealed)
    (hrecord : ∀ g, s.record g t = (s.guards t ++ p.inHand t).count g) (ho : p.Opens t) :
    p.Knows ids t s := by
  cases p with
  | coord p k =>
    rcases ho with rfl | rfl | rfl | rfl
    · trivial
    · trivial
    · show 0 < s.coordLock.shared t
      rw [hshared]
      exact Nat.succ_pos _
    · show 0 < s.coordLock.exclusive t
      rw [hexclusive]
      exact Nat.one_pos
  | lock p v =>
    obtain rfl : p = .lockFast v.job.reads := ho
    trivial
  | unlock p v =>
    obtain rfl : p = releasePc v.job.reads t := ho
    refine knows_releasePc ((hrecord (v.guard t)).trans_gt ?_)
    simp [Pc.inHand, phase_releasePc]
  | dropSlot p g =>
    obtain rfl : p = releasePc g.read g.acquirer := ho
    refine knows_releasePc ((hrecord g).trans_gt ?_)
    simp [Pc.inHand, phase_releasePc]
  | _ => trivial

/-- A thread stands where a lock operation starts, or at an access of its own, and owns what the
program point says. -/
theorem Mine.of_opens {t : ι} {s : Store ι α} {p : Pc ι α}
    (hshared : s.coordLock.shared t = (s.guards t).length + p.pinned)
    (hexclusive : s.coordLock.exclusive t = p.sealed)
    (hrecord : ∀ g, s.record g t = (s.guards t ++ p.inHand t).count g) (hph : p.Phased t)
    (hn : p.Known s.next) (ho : p.Opens t) : Mine ids t s (some p) := by
  refine ⟨hshared, hexclusive, hrecord, ?_, ?_, ?_⟩
  · rintro _ ⟨⟩
    exact hph
  · rintro _ ⟨⟩
    exact hn
  · rintro _ ⟨⟩
    exact knows_of_opens hshared hexclusive hrecord ho

/-- A thread outside owns its returned guards and nothing else. -/
theorem Mine.outside {t : ι} {s : Store ι α}
    (hshared : s.coordLock.shared t = (s.guards t).length)
    (hexclusive : s.coordLock.exclusive t = 0)
    (hrecord : ∀ g, s.record g t = (s.guards t).count g) : Mine ids t s none := by
  refine ⟨hshared, hexclusive, fun g ↦ ?_, by simp, by simp, by simp⟩
  rw [hrecord g, hands]
  simp

/-- **A step that leaves the locks alone** takes what the thread owns along to the next program
point. -/
theorem Mine.go {t : ι} {s s' : Store ι α} {p p' : Pc ι α} (h : Mine ids t s (some p))
    (hs : SameLocks s s') (hpin : p'.pinned = p.pinned) (hseal : p'.sealed = p.sealed)
    (hhand : p'.inHand t = p.inHand t) (hph : p'.Phased t) (hn : p'.Known s'.next)
    (ho : p'.Opens t) : Mine ids t s' (some p') := by
  refine .of_opens ?_ ?_ (fun g ↦ ?_) hph hn ho
  · rw [hs.coordLock, hs.guards, hpin]
    exact h.shared
  · rw [hs.coordLock, hseal]
    exact h.exclusive
  · rw [hs.record, hs.guards, hhand]
    exact h.record g

/-- What a step of `t` establishes: the locks stay sound, `t` owns what its next program point says,
and every other thread keeps what it has. -/
structure Steps (ids : SerialMutex.OwnerIds ι) (t : ι) (s s' : Store ι α) (q : Option (Pc ι α)) :
    Prop where
  sound : Sound ids s'
  mine : Mine ids t s' q
  spares : ∀ u, u ≠ t → Spares u s s'

/-- A step that touches no lock and keeps what the point owns is a step of the invariant. -/
theorem Steps.go {t : ι} {s s' : Store ι α} {p p' : Pc ι α} (hs : Sound ids s)
    (h : Mine ids t s (some p)) (hl : SameLocks s s') (hpin : p'.pinned = p.pinned)
    (hseal : p'.sealed = p.sealed) (hhand : p'.inHand t = p.inHand t) (hph : p'.Phased t)
    (hn : p'.Known s'.next) (ho : p'.Opens t) : Steps ids t s s' (some p') :=
  ⟨hl.sound hs, h.go hl hpin hseal hhand hph hn ho, fun u _ ↦ hl.spares u⟩

/-- A step followed by one that leaves the locks alone. -/
theorem Steps.trans_same {t : ι} {s s' s'' : Store ι α} {q : Option (Pc ι α)}
    (h : Steps ids t s s' q) (hl : SameLocks s' s'') : Steps ids t s s'' q where
  sound := hl.sound h.sound
  mine := hl.mine h.mine
  spares := fun u hu ↦
    have h₁ := h.spares u hu
    ⟨by rw [hl.coordLock, h₁.shared], by rw [hl.coordLock, h₁.exclusive],
      by rw [hl.guards, h₁.guards], fun g ↦ (hl.record g u).trans (h₁.record g),
      h₁.next.trans hl.next, fun a i ↦ by rw [hl.lock]; exact h₁.foreign a i⟩

/-! ### Steps of the coordination lock

An access of the coordination lock is an access of `RawMutex`, whose own accounting gives what the
thread has gained or lost. -/

section Coord

variable {adaptive : ℕ}

omit [DecidableEq ι] [Fintype ι] in
/-- A continuation that expects a phase of the lock does not expect the phase of the other calls. -/
theorem After.Expects.ne_other {k : After ι α} {ph : RawMutex.Phase} (h : k.Expects ph) :
    ph ≠ .other := by
  rintro rfl
  cases k <;> simp [After.Expects] at h

omit [DecidableEq ι] [Fintype ι] in
/-- What resuming a call does to the store leaves the locks alone. -/
theorem sameLocks_resume (s : Store ι α) (k : After ι α) (e : RawMutex.Ret) :
    SameLocks s (resume s k e).1 := by
  unfold resume
  split
  case h_7 => exact .free _ _
  all_goals exact .refl _

omit [DecidableEq ι] [Fintype ι] in
/-- After an exclusive release, the same continuations are waited for. -/
theorem After.Expects.wake {k : After ι α} (h : k.Expects .releaseExclusive) : k.Expects .wake := by
  cases k <;> simp_all [After.Expects]

/-- A call whose release of the coordination lock is over. -/
theorem Mine.resume_released {t : ι} {s : Store ι α} {k : After ι α} (e : RawMutex.Ret)
    (hshared : s.coordLock.shared t = (s.guards t).length)
    (hexclusive : s.coordLock.exclusive t = 0)
    (hrec : ∀ g, s.record g t = (s.guards t).count g)
    (hk : k.Expects .releaseShared ∨ k.Expects .wake)
    (hn : k.Known s.next) : Mine ids t s (resume s k e).2.pc := by
  cases k with
  | retry r | commit r old =>
    exact .of_opens hshared hexclusive (by simpa [Pc.inHand] using hrec) trivial hn trivial
  | unwind r | finish r => exact .outside hshared hexclusive hrec
  | push v | job j | inspect r | attempt r => simp [After.Expects] at hk

/-- A call that has just acquired the coordination lock shared. -/
theorem Mine.resume_acquired {t : ι} {s : Store ι α} {k : After ι α} (e : RawMutex.Ret)
    (hshared : s.coordLock.shared t = (s.guards t).length + 1)
    (hexclusive : s.coordLock.exclusive t = 0)
    (hrec : ∀ g, s.record g t = (s.guards t).count g) (hk : k.Expects .acquire)
    (hn : k.Known s.next) : Mine ids t s (resume s k e).2.pc := by
  cases k with
  | push v | job j =>
    exact .of_opens hshared hexclusive (by simpa [Pc.inHand] using hrec) trivial hn trivial
  | inspect r =>
    show Mine ids t s (some (inspectNext r 0 s.capacity))
    unfold inspectNext
    split_ifs
    · exact .of_opens hshared hexclusive (by simpa [Pc.inHand] using hrec) trivial hn trivial
    · exact .of_opens hshared hexclusive (by simpa [Pc.inHand] using hrec) rfl hn
        (by simp [Pc.Opens])
  | retry r | commit r old | unwind r | finish r | attempt r => simp [After.Expects] at hk

/-- The call goes on with what the coordination lock has given or taken. -/
theorem Mine.resume {t : ι} {p : RawMutex.Pc} {k : After ι α} {s : Store ι α}
    {l : RawMutex.Store ι} {e : RawMutex.Ret} (hexp : k.Expects (RawMutex.phase p))
    (hm : Mine ids t s (some (.coord p k)))
    (hg : RawMutex.HoldStep.Given t (RawMutex.phase p) s.coordLock l e) :
    Mine ids t { s with coordLock := l }
      (AtomicArray.resume { s with coordLock := l } k e).2.pc := by
  have hshared : s.coordLock.shared t = (s.guards t).length + (RawMutex.phase p).pins := hm.shared
  have hexclusive : s.coordLock.exclusive t = (RawMutex.phase p).seals := hm.exclusive
  have hrec : ∀ g, ({ s with coordLock := l } : Store ι α).record g t = (s.guards t).count g := by
    intro g
    refine (hm.record g).trans ?_
    simp [hands, Pc.inHand]
  have hrec' : ∀ g, ({ s with coordLock := l } : Store ι α).record g t =
      (s.guards t ++ []).count g := by simpa using hrec
  have hn : k.Known s.next := hm.known _ rfl
  generalize RawMutex.phase p = ph at *
  cases ph with
  | acquire =>
    refine .resume_acquired e (hg.1.trans ?_) (hg.2.trans hexclusive) hrec hexp hn
    rw [hshared]
    rfl
  | attempt =>
    cases k <;> simp [After.Expects] at hexp
    obtain ⟨rfl, h₁, h₂⟩ | ⟨rfl, h₁, h₂⟩ := hg
    · exact .of_opens (h₁.trans hshared) (h₂.trans (by rw [hexclusive]; rfl)) hrec' trivial
        hn trivial
    · exact .of_opens (h₁.trans hshared) (h₂.trans hexclusive) hrec' trivial hn trivial
  | releaseShared =>
    obtain ⟨h₁, h₂⟩ := hg
    refine .resume_released e ?_ (h₂.trans hexclusive) hrec (Or.inl hexp) hn
    exact Nat.add_right_cancel (h₁.trans hshared)
  | releaseExclusive =>
    obtain ⟨h₁, h₂⟩ := hg
    refine .resume_released e (h₁.trans hshared) ?_ hrec (Or.inr hexp.wake) hn
    exact Nat.add_right_cancel (h₂.trans (hexclusive.trans (Nat.zero_add _).symm))
  | wake =>
    obtain ⟨h₁, h₂⟩ := hg
    exact .resume_released e (h₁.trans hshared) (h₂.trans hexclusive) hrec (Or.inr hexp) hn
  | other => exact absurd rfl hexp.ne_other

/-- An access of the coordination lock inside a call. -/
theorem exec_locks_coord {t : ι} {ch : Choice ι} {s s' : Store ι α} {p : RawMutex.Pc}
    {k : After ι α} {o : Outcome (Pc ι α) (Ret ι α)} (hs : Sound ids s)
    (hm : Mine ids t s (some (.coord p k)))
    (h : exec ids adaptive t ch s (.coord p k) = some (s', o)) : Steps ids t s s' o.pc := by
  have hexp : k.Expects (RawMutex.phase p) := hm.phased _ rfl
  have hk : RawMutex.Knows t s.coordLock p := hm.knows _ rfl
  simp only [exec] at h
  cases hr : RawMutex.exec adaptive t ch s.coordLock p with
  | none =>
    rw [hr] at h
    cases h
  | some x =>
    obtain ⟨l, e⟩ := x
    have hold := RawMutex.exec_holds hexp.ne_other hr
    have hsound : Sound ids ({ s with coordLock := l } : Store ι α) :=
      ⟨hs.accounts.step (RawMutex.exec_word hk hr),
        RawMutex.exec_unparked hs.accounts hk hexp.ne_other hs.unparked hr, hs.exact, hs.fresh,
        hs.storage⟩
    have hspares : ∀ u, u ≠ t → Spares u s ({ s with coordLock := l } : Store ι α) := fun u hu ↦
      ⟨(hold.other hu).1, (hold.other hu).2, rfl, fun _ ↦ rfl, le_rfl,
        fun _ _ ↦ .refl u _⟩
    rw [hr] at h
    cases e with
    | goto p' =>
      cases h
      obtain ⟨h₁, h₂, hph⟩ := hold.of_goto hk
      have hshared : s.coordLock.shared t = (s.guards t).length + (RawMutex.phase p).pins :=
        hm.shared
      have hexclusive : s.coordLock.exclusive t = (RawMutex.phase p).seals := hm.exclusive
      refine ⟨hsound, ⟨?_, ?_, hm.record, ?_, ?_, ?_⟩, hspares⟩
      · show l.shared t = (s.guards t).length + (RawMutex.phase p').pins
        omega
      · show l.exclusive t = (RawMutex.phase p').seals
        omega
      · rintro _ ⟨⟩
        show k.Expects (RawMutex.phase p')
        obtain hph | ⟨hrel | hrel, hph⟩ := hph
        · rwa [hph]
        · cases RawMutex.exec_unlockShared hrel hs.unparked hr
        · rw [hph]
          rw [hrel] at hexp
          exact hexp.wake
      · rintro _ ⟨⟩
        exact (hm.known _ rfl : Pc.Known s.next (.coord p k))
      · rintro _ ⟨⟩
        exact RawMutex.exec_knows hk hr rfl
    | ret e =>
      simp only [Option.some.injEq] at h
      obtain ⟨rfl, rfl⟩ : (AtomicArray.resume { s with coordLock := l } k e).1 = s' ∧
          (AtomicArray.resume { s with coordLock := l } k e).2 = o := by
        rw [h]
        exact ⟨rfl, rfl⟩
      refine Steps.trans_same ⟨hsound, ?_, hspares⟩ (sameLocks_resume _ k e)
      exact .resume hexp hm (hold.of_ret hk)

end Coord

/-! ### Steps of a slot lock

An access of a slot's lock is an access of `SerialMutex`, at one slot of one storage; the locks of
the other slots are spared. -/

section Slot

variable {adaptive : ℕ}

omit [DecidableEq ι] [Fintype ι] in
/-- The holds on record at a slot are those of the lock put there. -/
theorem record_setLock (s : Store ι α) (a i : ℕ) (l : SerialMutex.Store ι) (g : Guard ι) (u : ι) :
    (s.setLock a i l).record g u =
      if g.storage = a ∧ g.index = i then l.record g.read g.acquirer u else s.record g u := by
  unfold Store.record Store.setLock
  rw [slot_setSlot]
  split_ifs <;> rfl

omit [Fintype ι] in
/-- A slot lock that moves its record moves the record of one kind of guard on that slot. -/
theorem record_setLock_moves {s : Store ι α} {a i : ℕ} {l : SerialMutex.Store ι} {read : Bool}
    {x h : ι} {n : ℕ} (hm : SerialMutex.Moves (s.slot a i).lock l read x h n)
    (g : Guard ι) (u : ι) :
    (s.setLock a i l).record g u = if g = ⟨a, i, read, x⟩ ∧ u = h then n else s.record g u := by
  rw [record_setLock]
  obtain ⟨b, j, r, y⟩ := g
  simp only [Guard.mk.injEq]
  by_cases hb : b = a ∧ j = i
  · obtain ⟨rfl, rfl⟩ := hb
    rw [if_pos ⟨rfl, rfl⟩, hm.record_eq]
    simp [Store.record, and_assoc]
  · rw [if_neg hb, if_neg]
    rintro ⟨⟨h₁, h₂, -⟩, -⟩
    exact hb ⟨h₁, h₂⟩

omit [DecidableEq ι] [Fintype ι] in
/-- A slot lock that keeps its record. -/
theorem record_setLock_keeps {s : Store ι α} {a i : ℕ} {l : SerialMutex.Store ι}
    (hk : SerialMutex.Keeps (s.slot a i).lock l) (g : Guard ι) (u : ι) :
    (s.setLock a i l).record g u = s.record g u := by
  rw [record_setLock]
  split_ifs with h
  · rw [hk.record, Store.record, h.1, h.2]
  · rfl

variable {t : ι} {ch : Choice ι} {s s' : Store ι α} {a i : ℕ} {p : SerialMutex.Pc ι}
  {l : SerialMutex.Store ι} {e : Outcome (SerialMutex.Pc ι) SerialMutex.Ret}

/-- The locks after an access of the lock of an allocated slot. -/
theorem Sound.setLock (hs : Sound ids s) (ha : a < s.next)
    (hk : SerialMutex.Knows ids t (s.slot a i).lock p)
    (hr : SerialMutex.exec ids adaptive t ch (s.slot a i).lock p = some (l, e)) :
    Sound ids (s.setLock a i l) := by
  refine ⟨hs.accounts, hs.unparked, fun b j ↦ ?_, fun b j hb ↦ ?_, hs.storage⟩
  · rw [Store.setLock, slot_setSlot]
    split_ifs
    · exact (SerialMutex.exec_word (hs.exact a i) hk hr).exact (hs.exact a i)
    · exact hs.exact b j
  · rw [Store.setLock, slot_setSlot, if_neg fun h : b = a ∧ j = i ↦
      absurd (h.1 ▸ hb) (Nat.not_le.2 ha)]
    exact hs.fresh b j hb

/-- An access of a slot lock by `t` leaves every other thread what it has. -/
theorem spares_setLock {u : ι} (hs : Sound ids s)
    (hk : SerialMutex.Knows ids t (s.slot a i).lock p)
    (hr : SerialMutex.exec ids adaptive t ch (s.slot a i).lock p = some (l, e)) (hu : u ≠ t) :
    Spares u s (s.setLock a i l) := by
  refine ⟨rfl, rfl, rfl, fun g ↦ ?_, le_rfl, fun b j ↦ ?_⟩
  · rw [record_setLock]
    split_ifs with h
    · have hne : e ≠ .ret .inconsistent := by
        rintro rfl
        exact SerialMutex.exec_consistent (hs.exact a i) hk hr
      rw [(SerialMutex.exec_holds hr).other hne hu, Store.record, h.1, h.2]
    · rfl
  · rw [Store.setLock, slot_setSlot]
    split_ifs with h
    · rw [h.1, h.2]
      exact (SerialMutex.exec_word (hs.exact a i) hk hr).foreign hu
    · exact .refl u _

omit [Fintype ι] in
/-- **What an access of a slot lock can do** inside a call: the call stays in the lock operation, or
goes on with what it returned. -/
theorem slotStep_cases {stay : SerialMutex.Pc ι → Pc ι α}
    {done : Store ι α → SerialMutex.Ret → Store ι α × Outcome (Pc ι α) (Ret ι α)}
    {o : Outcome (Pc ι α) (Ret ι α)}
    (h : slotStep ids adaptive t ch s a i p stay done = some (s', o)) :
    ∃ l, (∃ p', SerialMutex.exec ids adaptive t ch (s.slot a i).lock p = some (l, .goto p') ∧
        s' = s.setLock a i l ∧ o = .goto (stay p')) ∨
      ∃ e, SerialMutex.exec ids adaptive t ch (s.slot a i).lock p = some (l, .ret e) ∧
        (s', o) = done (s.setLock a i l) e := by
  unfold slotStep at h
  split at h
  · cases h
  · rename_i l p' hr
    cases h
    exact ⟨l, Or.inl ⟨p', hr, rfl, rfl⟩⟩
  · rename_i l e hr
    exact ⟨l, Or.inr ⟨e, hr, (Option.some.inj h).symm⟩⟩

/-- The thread goes on inside its lock operation, at a program point `p'` that owns the same of the
coordination lock. -/
theorem Mine.stay {q q' : Pc ι α} (hm : Mine ids t s (some q)) (hpin : q'.pinned = q.pinned)
    (hseal : q'.sealed = q.sealed)
    (hrec : ∀ g, (s.setLock a i l).record g t = (s.guards t ++ q'.inHand t).count g)
    (hph : q'.Phased t) (hn : q'.Known s.next) (hk : q'.Knows ids t (s.setLock a i l)) :
    Mine ids t (s.setLock a i l) (some q') := by
  refine ⟨hm.shared.trans ?_, hm.exclusive.trans ?_, hrec, ?_, ?_, ?_⟩
  · show (s.guards t).length + q.pinned = (s.guards t).length + q'.pinned
    rw [hpin]
  · exact hseal.symm
  · rintro _ ⟨⟩
    exact hph
  · rintro _ ⟨⟩
    exact hn
  · rintro _ ⟨⟩
    exact hk

/-- The thread leaves its lock operation. -/
theorem Mine.leaveLock {q q' : Pc ι α} (hm : Mine ids t s (some q)) (hpin : q'.pinned = q.pinned)
    (hseal : q'.sealed = q.sealed)
    (hrec : ∀ g, (s.setLock a i l).record g t = (s.guards t ++ q'.inHand t).count g)
    (hph : q'.Phased t) (hn : q'.Known s.next) (ho : q'.Opens t) :
    Mine ids t (s.setLock a i l) (some q') := by
  refine hm.stay hpin hseal hrec hph hn (knows_of_opens (hm.shared.trans ?_) (hm.exclusive.trans ?_)
    hrec ho)
  · show (s.guards t).length + q.pinned = (s.guards t).length + q'.pinned
    rw [hpin]
  · exact hseal.symm

omit [Fintype ι] in
/-- The record after the guard `g₀` was gained. -/
theorem count_gained (g₀ : Guard ι)
    (hmove : SerialMutex.Moves (s.slot g₀.storage g₀.index).lock l g₀.read g₀.acquirer t
      (s.record g₀ t + 1))
    (hrec : ∀ g, s.record g t = (s.guards t ++ []).count g) (g : Guard ι) :
    (s.setLock g₀.storage g₀.index l).record g t = (s.guards t ++ [g₀]).count g := by
  have hthis := hrec g
  rw [List.append_nil] at hthis
  rw [record_setLock_moves hmove, List.count_append, ← hthis]
  by_cases hg : g = g₀
  · subst hg
    simp
  · rw [if_neg fun h ↦ hg h.1]
    simp [Ne.symm hg]

omit [Fintype ι] in
/-- The record after the guard `g₀` was released. -/
theorem count_released (g₀ : Guard ι)
    (hmove : SerialMutex.Moves (s.slot g₀.storage g₀.index).lock l g₀.read g₀.acquirer t
      (s.record g₀ t - 1))
    (hrec : ∀ g, s.record g t = (s.guards t ++ [g₀]).count g) (g : Guard ι) :
    (s.setLock g₀.storage g₀.index l).record g t = (s.guards t ++ []).count g := by
  have hthis := hrec g
  rw [List.count_append] at hthis
  rw [record_setLock_moves hmove, List.append_nil]
  by_cases hg : g = g₀
  · subst hg
    rw [if_pos ⟨rfl, rfl⟩, hthis]
    simp
  · rw [if_neg fun h ↦ hg h.1, hthis]
    simp [Ne.symm hg]

/-- What is in hand of `g₀` while its release is in a phase. -/
def stillHeld (g₀ : Guard ι) (ph : SerialMutex.Phase ι) : List (Guard ι) :=
  if ph = .wake then [] else [g₀]

/-- **An access of the release of a guard**: the release goes on, or it is over and the guard is
gone. -/
theorem release_cases (g₀ : Guard ι) (hs : Sound ids s)
    (hph : SerialMutex.phase p = .release g₀.read g₀.acquirer ∨ SerialMutex.phase p = .wake)
    (hk : SerialMutex.Knows ids t (s.slot g₀.storage g₀.index).lock p)
    (hrec : ∀ g, s.record g t = (s.guards t ++ stillHeld g₀ (SerialMutex.phase p)).count g)
    (hr : SerialMutex.exec ids adaptive t ch (s.slot g₀.storage g₀.index).lock p = some (l, e)) :
    (∃ p', e = .goto p' ∧
      (SerialMutex.phase p' = .release g₀.read g₀.acquirer ∨ SerialMutex.phase p' = .wake) ∧
      (∀ g, (s.setLock g₀.storage g₀.index l).record g t =
        (s.guards t ++ stillHeld g₀ (SerialMutex.phase p')).count g)) ∨
    (e = .ret .unit ∧
      ∀ g, (s.setLock g₀.storage g₀.index l).record g t = (s.guards t ++ []).count g) := by
  cases SerialMutex.exec_holds hr with
  | stay p' ho hp hkeep =>
    refine Or.inl ⟨p', ho, hp ▸ hph, fun g ↦ ?_⟩
    rw [record_setLock_keeps hkeep, hp]
    exact hrec g
  | drop read a hp ho hmove =>
    rw [hp] at hph hrec
    obtain ⟨rfl, rfl⟩ : read = g₀.read ∧ a = g₀.acquirer := by simpa using hph
    have hcount := count_released g₀ hmove (by simpa [stillHeld] using hrec)
    obtain ho | ⟨p', ho, hp'⟩ := ho
    · exact Or.inr ⟨ho, hcount⟩
    · refine Or.inl ⟨p', ho, Or.inr hp', fun g ↦ ?_⟩
      rw [hp', hcount]
      rfl
  | woke hp ho hkeep =>
    refine Or.inr ⟨ho, fun g ↦ ?_⟩
    rw [record_setLock_keeps hkeep, hrec g, hp]
    rfl
  | broken read a hp ho =>
    rw [ho] at hr
    exact absurd hr (SerialMutex.exec_consistent (hs.exact _ _) hk)
  | gain _ hp | refused _ hp | won hp | lost hp =>
    rw [hp] at hph
    simp at hph

omit [Fintype ι] in
/-- A taken slot lock is returned as a guard, or the loop goes on to the element. -/
theorem locked_cases (t : ι) (s : Store ι α) (v : Visit α) :
    locked t s v = ({ s with guards := Function.update s.guards t (s.guards t ++ [v.guard t]) },
      .ret (.guard (v.guard t))) ∨ locked t s v = (s, .goto (.access v)) := by
  unfold locked
  split
  · exact Or.inl rfl
  · exact Or.inl rfl
  · exact Or.inr rfl

/-- An access of `lock_read` or `lock_write` inside a call. -/
theorem exec_locks_lock {v : Visit α} {o : Outcome (Pc ι α) (Ret ι α)} (hs : Sound ids s)
    (hm : Mine ids t s (some (.lock p v)))
    (h : exec ids adaptive t ch s (.lock p v) = some (s', o)) : Steps ids t s s' o.pc := by
  have hph : SerialMutex.phase p = .acquire v.job.reads := hm.phased _ rfl
  have hn : v.slots < s.next := hm.known _ rfl
  have hk : SerialMutex.Knows ids t (s.slot v.slots v.target).lock p := hm.knows _ rfl
  have hrec : ∀ g, s.record g t = (s.guards t ++ []).count g := hm.record
  simp only [exec] at h
  obtain ⟨l, ⟨p', hr, rfl, rfl⟩ | ⟨e, hr, he⟩⟩ := slotStep_cases h
  · have hold := SerialMutex.exec_holds hr
    refine ⟨hs.setLock hn hk hr, ?_, fun u hu ↦ spares_setLock hs hk hr hu⟩
    cases hold with
    | stay q ho hp hkeep =>
      cases ho
      refine hm.stay rfl rfl (fun g ↦ ?_) (hp.trans hph) hn ?_
      · rw [record_setLock_keeps hkeep]
        exact hrec g
      · show SerialMutex.Knows ids t ((s.setSlot v.slots v.target _).slot _ _).lock p'
        rw [slot_setSlot_self]
        exact SerialMutex.exec_knows (hs.exact _ _) hk hr rfl
    | drop _ _ hp => exact absurd (hp.symm.trans hph) (by simp)
    | gain _ _ ho | won _ ho | lost _ ho | broken _ _ _ ho | woke _ ho => cases ho
    | refused _ _ ho => simp at ho
  · have hold := SerialMutex.exec_holds hr
    have hsound := hs.setLock hn hk hr
    have hspares : ∀ u, u ≠ t → Spares u s (s.setLock v.slots v.target l) :=
      fun u hu ↦ spares_setLock hs hk hr hu
    cases hold with
    | gain read hp ho hmove =>
      cases ho
      obtain rfl : read = v.job.reads := by simpa using hp.symm.trans hph
      have hcount := count_gained (v.guard t) hmove hrec
      -- `get` and `get_mut`: the guard is returned and takes the coordination hold along
      have hreturn : Steps ids t s { s.setLock v.slots v.target l with
          guards := Function.update s.guards t (s.guards t ++ [v.guard t]) } none := by
        refine ⟨⟨hsound.accounts, hsound.unparked, hsound.exact, hsound.fresh, hsound.storage⟩, ?_,
          fun u hu ↦ ?_⟩
        · refine .outside ?_ hm.exclusive fun g ↦ ?_
          · simp only [Function.update_self, List.length_append]
            exact hm.shared
          · simp only [Function.update_self]
            exact hcount g
        · have hu' := hspares u hu
          exact ⟨hu'.shared, hu'.exclusive, Function.update_of_ne hu _ _, hu'.record, hu'.next,
            hu'.foreign⟩
      obtain hl | hl := locked_cases t (s.setLock v.slots v.target l) v
      · cases he.trans hl
        exact hreturn
      · cases he.trans hl
        exact ⟨hsound, hm.leaveLock rfl rfl hcount trivial hn trivial, hspares⟩
    | refused read hp ho hsame =>
      have hcount : ∀ g, (s.setLock v.slots v.target l).record g t =
          (s.guards t ++ []).count g := by
        intro g
        rw [hsame, record_setLock_keeps ⟨rfl, rfl⟩]
        exact hrec g
      have hgo : Mine ids t (s.setLock v.slots v.target l) (some (leave (.panicked .lock))) :=
        hm.leaveLock rfl rfl hcount rfl trivial (by simp [Pc.Opens, leave])
      rcases ho with ho | ho
      · cases ho
        cases he
        exact ⟨hsound, hgo, hspares⟩
      · cases ho
        cases he
        exact ⟨hsound, hgo, hspares⟩
    | stay _ ho => cases ho
    | drop _ _ hp => exact absurd (hp.symm.trans hph) (by simp)
    | woke hp | won hp | lost hp | broken _ _ hp => exact absurd (hp.symm.trans hph) (by simp)

/-- A program point in a shared section, with no slot guard taken. -/
structure InSection (t : ι) (n : ℕ) (p : Pc ι α) : Prop where
  pinned : p.pinned = 1
  sealed : p.sealed = 0
  inHand : p.inHand t = []
  phased : p.Phased t
  known : p.Known n
  opens : p.Opens t

omit [Fintype ι] in
theorem inSection_leave (t : ι) (n : ℕ) (r : Ret ι α) : InSection t n (leave r) :=
  ⟨rfl, rfl, rfl, rfl, trivial, Or.inr (Or.inr (Or.inl rfl))⟩

omit [Fintype ι] in
theorem inSection_waitWrite (t : ι) {n : ℕ} {v : Visit α} (hn : v.slots < n) :
    InSection t n (.waitWrite v : Pc ι α) :=
  ⟨rfl, rfl, rfl, trivial, hn, trivial⟩

omit [Fintype ι] in
/-- A visit that goes on to its next slot, or ends the call, stays in the shared section. -/
theorem inSection_visitNext (t : ι) {n : ℕ} {v : Visit α} (capacity : ℕ) (hn : v.slots < n) :
    InSection t n (visitNext v capacity : Pc ι α) := by
  unfold visitNext
  split <;> split_ifs
  · exact inSection_waitWrite t hn
  · exact inSection_leave t n _
  · exact inSection_waitWrite t hn
  · exact inSection_leave t n _

/-- An access of the release of a loop's slot guard. -/
theorem exec_locks_unlock {v : Visit α} {o : Outcome (Pc ι α) (Ret ι α)} (hs : Sound ids s)
    (hm : Mine ids t s (some (.unlock p v)))
    (h : exec ids adaptive t ch s (.unlock p v) = some (s', o)) : Steps ids t s s' o.pc := by
  have hph : SerialMutex.phase p = .release v.job.reads t ∨ SerialMutex.phase p = .wake :=
    hm.phased _ rfl
  have hn : v.slots < s.next := hm.known _ rfl
  have hk : SerialMutex.Knows ids t (s.slot v.slots v.target).lock p := hm.knows _ rfl
  simp only [exec] at h
  obtain ⟨l, ⟨p', hr, rfl, rfl⟩ | ⟨e, hr, he⟩⟩ := slotStep_cases h
  · obtain ⟨q, ho, hp, hcount⟩ | ⟨ho, -⟩ := release_cases (v.guard t) hs hph hk hm.record hr
    · cases ho
      refine ⟨hs.setLock hn hk hr, ?_, fun u hu ↦ spares_setLock hs hk hr hu⟩
      refine hm.stay rfl rfl hcount hp hn ?_
      show SerialMutex.Knows ids t ((s.setSlot v.slots v.target _).slot _ _).lock p'
      rw [slot_setSlot_self]
      exact SerialMutex.exec_knows (hs.exact _ _) hk hr rfl
    · cases ho
  · obtain ⟨q, ho, -⟩ | ⟨ho, hcount⟩ := release_cases (v.guard t) hs hph hk hm.record hr
    · cases ho
    · cases ho
      cases he
      have hsec : InSection t s.next
          (visitNext { v with i := v.i + 1, slots := s.storage } s.capacity : Pc ι α) :=
        inSection_visitNext t _ hs.storage
      refine Steps.trans_same ⟨hs.setLock hn hk hr, ?_, fun u hu ↦ spares_setLock hs hk hr hu⟩
        (.use _ t _)
      exact hm.leaveLock hsec.pinned hsec.sealed (hsec.inHand ▸ hcount) hsec.phased hsec.known
        hsec.opens

/-- An access of the release of a returned guard. -/
theorem exec_locks_dropSlot {g : Guard ι} {o : Outcome (Pc ι α) (Ret ι α)} (hs : Sound ids s)
    (hm : Mine ids t s (some (.dropSlot p g)))
    (h : exec ids adaptive t ch s (.dropSlot p g) = some (s', o)) : Steps ids t s s' o.pc := by
  have hph : SerialMutex.phase p = .release g.read g.acquirer ∨ SerialMutex.phase p = .wake :=
    hm.phased _ rfl
  have hn : g.storage < s.next := hm.known _ rfl
  have hk : SerialMutex.Knows ids t (s.slot g.storage g.index).lock p := hm.knows _ rfl
  simp only [exec] at h
  obtain ⟨l, ⟨p', hr, rfl, rfl⟩ | ⟨e, hr, he⟩⟩ := slotStep_cases h
  · obtain ⟨q, ho, hp, hcount⟩ | ⟨ho, -⟩ := release_cases g hs hph hk hm.record hr
    · cases ho
      refine ⟨hs.setLock hn hk hr, ?_, fun u hu ↦ spares_setLock hs hk hr hu⟩
      refine hm.stay rfl rfl hcount hp hn ?_
      show SerialMutex.Knows ids t ((s.setSlot g.storage g.index _).slot _ _).lock p'
      rw [slot_setSlot_self]
      exact SerialMutex.exec_knows (hs.exact _ _) hk hr rfl
    · cases ho
  · obtain ⟨q, ho, -⟩ | ⟨ho, hcount⟩ := release_cases g hs hph hk hm.record hr
    · cases ho
    · cases ho
      cases he
      refine ⟨hs.setLock hn hk hr, ?_, fun u hu ↦ spares_setLock hs hk hr hu⟩
      exact hm.leaveLock rfl rfl hcount rfl trivial (by simp [Pc.Opens, leave])

end Slot

/-! ### Runs

All accesses, by the lemma for the lock they concern or as steps that leave the locks alone. -/

section Runs

variable {adaptive : ℕ}

omit [Fintype ι] in
theorem inSection_pushCheck (t : ι) (n : ℕ) (slow : Bool) (v : α) (tail capacity : ℕ) :
    InSection t n (pushCheck slow v tail capacity : Pc ι α) := by
  unfold pushCheck
  split_ifs
  · exact inSection_leave t n _
  · exact ⟨rfl, rfl, rfl, trivial, trivial, trivial⟩

omit [Fintype ι] in
theorem inSection_lenCheck (t : ι) (n : ℕ) (j : Job α) (len : ℕ) :
    InSection t n (lenCheck j len : Pc ι α) := by
  have hhead : InSection t n (.loadHead j len : Pc ι α) :=
    ⟨rfl, rfl, rfl, trivial, trivial, trivial⟩
  unfold lenCheck
  split
  · split_ifs
    · exact inSection_leave t n _
    · exact hhead
  · split_ifs
    · exact inSection_leave t n _
    · exact hhead
  · split_ifs
    · exact inSection_leave t n _
    · exact hhead
  · exact hhead

omit [Fintype ι] in
theorem inSection_visitFirst (t : ι) {n : ℕ} (j : Job α) (head len : ℕ) {slots : ℕ} (capacity : ℕ)
    (hn : slots < n) : InSection t n (visitFirst j head len slots capacity : Pc ι α) := by
  unfold visitFirst
  split
  · split_ifs
    · exact inSection_leave t n _
    · exact inSection_waitWrite t hn
  · split_ifs
    · exact inSection_leave t n _
    · exact inSection_waitWrite t hn
  · exact inSection_visitNext t _ hn

/-- A step between two points of one section, with no slot lock in hand. -/
theorem Steps.section {t : ι} {s s' : Store ι α} {p p' : Pc ι α} (hs : Sound ids s)
    (h : Mine ids t s (some p)) (hl : SameLocks s s') (hpin : p.pinned = 1) (hseal : p.sealed = 0)
    (hhand : p.inHand t = []) (hsec : InSection t s.next p') : Steps ids t s s' (some p') :=
  .go hs h hl (hsec.pinned.trans hpin.symm) (hsec.sealed.trans hseal.symm)
    (hsec.inHand.trans hhand.symm) hsec.phased (hsec.known.mono hl.next) hsec.opens

/-- **Every access keeps the locks sound and every thread's ownership.** -/
theorem exec_locks {t : ι} {ch : Choice ι} {s s' : Store ι α} {p : Pc ι α}
    {o : Outcome (Pc ι α) (Ret ι α)} (hs : Sound ids s) (hm : Mine ids t s (some p))
    (h : exec ids adaptive t ch s p = some (s', o)) : Steps ids t s s' o.pc := by
  cases p with
  | coord p k => exact exec_locks_coord hs hm h
  | lock p v => exact exec_locks_lock hs hm h
  | unlock p v => exact exec_locks_unlock hs hm h
  | dropSlot p g => exact exec_locks_dropSlot hs hm h
  | pushLoad slow v =>
    cases h
    exact .section hs hm (.use s t _) rfl rfl rfl (inSection_pushCheck ..)
  | pushCas slow v tail =>
    simp only [exec] at h
    split at h
    · cases h
      exact .section hs hm ⟨rfl, fun _ _ ↦ rfl, rfl, le_rfl, id⟩ rfl rfl rfl
        ⟨rfl, rfl, rfl, trivial, trivial, trivial⟩
    · cases h
      refine .section hs hm (.use s t _) rfl rfl rfl ?_
      split_ifs
      · exact inSection_pushCheck ..
      · exact ⟨rfl, rfl, rfl, trivial, trivial, trivial⟩
  | pushWrite v a i =>
    cases h
    exact .section hs hm (.setSlot s a i rfl) rfl rfl rfl ⟨rfl, rfl, rfl, trivial, trivial, trivial⟩
  | pushLen v a i =>
    cases h
    exact .section hs hm ⟨rfl, fun _ _ ↦ rfl, rfl, le_rfl, id⟩ rfl rfl rfl
      ⟨rfl, rfl, rfl, trivial, trivial, trivial⟩
  | pushState v a i =>
    cases h
    exact .section hs hm (.setSlot s a i rfl) rfl rfl rfl (inSection_leave ..)
  | loadLen j =>
    cases h
    exact .section hs hm (.use s t _) rfl rfl rfl (inSection_lenCheck ..)
  | loadHead j len =>
    cases h
    exact .section hs hm (.use s t _) rfl rfl rfl (inSection_visitFirst t j _ _ _ hs.storage)
  | waitWrite v =>
    have hn : v.slots < s.next := hm.known _ rfl
    simp only [exec] at h
    split at h
    · cases h
      exact .section hs hm (.refl s) rfl rfl rfl ⟨rfl, rfl, rfl, rfl, hn, rfl⟩
    · cases h
      exact .section hs hm (.refl s) rfl rfl rfl (inSection_waitWrite t hn)
  | access v =>
    have hn : v.slots < s.next := hm.known _ rfl
    have hgo : ∀ s' w, SameLocks s s' → w.slots = v.slots → w.guard t = v.guard t →
        w.job = v.job → Steps ids t s s' (some (.unlock (releasePc v.job.reads t) w)) := by
      intro s' w hl hslots hguard hjob
      refine .go hs hm hl rfl rfl ?_ ?_ (lt_of_lt_of_le (hslots ▸ hn) hl.next) ?_
      · show (if SerialMutex.phase (releasePc v.job.reads t) = .wake then [] else [w.guard t]) = _
        rw [phase_releasePc, hguard]
        rfl
      · exact Or.inl (by rw [hjob]; exact phase_releasePc _ _)
      · show _ = releasePc w.job.reads t
        rw [hjob]
    simp only [exec] at h
    split at h
    · cases h
      exact hgo _ _ (.shown ..) rfl rfl rfl
    · cases h
      exact hgo _ _ ⟨rfl, fun _ _ ↦ rfl, rfl, le_rfl, id⟩ rfl rfl rfl
  | resetTry r =>
    have hn : r.fresh < s.next := hm.known _ rfl
    cases h
    exact .go hs hm (.refl s) rfl rfl rfl rfl hn (Or.inr (Or.inl rfl))
  | resetShared r =>
    have hn : r.fresh < s.next := hm.known _ rfl
    cases h
    exact .go hs hm (.refl s) rfl rfl rfl rfl hn (Or.inl rfl)
  | inspect r i =>
    have hn : r.fresh < s.next := hm.known _ rfl
    simp only [exec] at h
    split at h
    · cases h
      exact .go hs hm (.refl s) rfl rfl rfl rfl hn (Or.inr (Or.inr (Or.inl rfl)))
    · cases h
      refine .section hs hm (.refl s) rfl rfl rfl ?_
      unfold inspectNext
      split_ifs
      · exact ⟨rfl, rfl, rfl, trivial, hn, trivial⟩
      · exact ⟨rfl, rfl, rfl, rfl, hn, Or.inr (Or.inr (Or.inl rfl))⟩
  | resetStorage r =>
    have hn : r.fresh < s.next := hm.known _ rfl
    cases h
    exact .go hs hm ⟨rfl, fun _ _ ↦ rfl, rfl, le_rfl, fun _ ↦ hn⟩ rfl rfl rfl trivial hn trivial
  | resetHead r old | resetTail r old =>
    have hn : r.fresh < s.next := hm.known _ rfl
    cases h
    exact .go hs hm ⟨rfl, fun _ _ ↦ rfl, rfl, le_rfl, id⟩ rfl rfl rfl trivial hn trivial
  | resetLen r old =>
    have hn : r.fresh < s.next := hm.known _ rfl
    cases h
    exact .go hs hm ⟨rfl, fun _ _ ↦ rfl, rfl, le_rfl, id⟩ rfl rfl rfl (Or.inl rfl) hn
      (Or.inr (Or.inr (Or.inr rfl)))
  | resetDrop r old =>
    cases h
    refine Steps.trans_same ⟨hs, ?_, fun u _ ↦ (SameLocks.refl s).spares u⟩ (.free s old)
    exact .outside hm.shared hm.exclusive (by simpa [hands, Pc.inHand] using hm.record)

/-! ### Starts of calls

A call that starts owns nothing but what its caller hands to it, which is a guard at most. -/

omit [Fintype ι] [DecidableEq ι] in
/-- Building a private array touches no lock. -/
theorem initLoop_lock {n : ℕ} {vs : List α} {a b : Private ι α} (h : initLoop n vs a = some b)
    (ha : ∀ i, (a.storage.slots i).lock = .new) (i : ℕ) : (b.storage.slots i).lock = .new := by
  induction n, vs, a using initLoop.induct with
  | case1 vs a =>
    cases h
    exact ha i
  | case2 n a => cases h
  | case3 n v vs a ih =>
    refine ih h fun j ↦ ?_
    unfold Private.push
    split_ifs
    · exact ha j
    · by_cases hj : j = a.tail
      · subst hj
        simp [ha]
      · simp [hj, ha]

omit [Fintype ι] [DecidableEq ι] in
/-- A storage that was just built has every slot unlocked. -/
theorem initWith_lock {cap : ℕ} {vs : List α} {a : Private ι α} (h : initWith cap vs = .ok a)
    (i : ℕ) : (a.storage.slots i).lock = .new := by
  unfold initWith at h
  split_ifs at h
  split at h
  · rename_i b hb
    cases h
    exact initLoop_lock hb (fun _ ↦ rfl) i
  · cases h

omit [DecidableEq ι] in
/-- A private replacement brings locks nobody has touched. -/
theorem sameLocks_adopt {s : Store ι α} {a : Private ι α} (hs : Sound ids s)
    (ha : ∀ i, (a.storage.slots i).lock = .new) (vs : List α) : SameLocks s (s.adopt a vs) := by
  refine ⟨rfl, fun b i ↦ ?_, rfl, Nat.le_succ _, fun h ↦ Nat.lt_succ_of_lt h⟩
  by_cases hb : b = s.next
  · subst hb
    rw [hs.fresh s.next i le_rfl]
    show ((Function.update s.heap s.next a.storage s.next).slots i).lock = .new
    rw [Function.update_self]
    exact ha i
  · show ((Function.update s.heap s.next a.storage b).slots i).lock = _
    rw [Function.update_of_ne hb]
    rfl

/-- A call starts at a program point that owns nothing. -/
theorem Mine.start {t : ι} {s s' : Store ι α} {p : Pc ι α} (hm : Mine ids t s none)
    (hl : SameLocks s s') (hpin : p.pinned = 0) (hseal : p.sealed = 0) (hhand : p.inHand t = [])
    (hph : p.Phased t) (hn : p.Known s'.next) (ho : p.Opens t) : Mine ids t s' (some p) := by
  refine .of_opens ?_ ?_ (fun g ↦ ?_) hph hn ho
  · rw [hl.coordLock, hl.guards, hpin]
    exact hm.shared
  · rw [hl.coordLock, hseal]
    exact hm.exclusive
  · rw [hl.record, hl.guards, hhand]
    exact hm.record g

/-- What the start of a call establishes. A guard handed over changes what its new holder has, so
the other threads are spoken of as a whole. -/
structure Starts (ids : SerialMutex.OwnerIds ι) (t : ι) (s s' : Store ι α) (q : Option (Pc ι α)) :
    Prop where
  sound : Sound ids s'
  mine : Mine ids t s' q
  others : ∀ u, u ≠ t → ∀ q, Mine ids u s q → Mine ids u s' q

theorem Starts.of_same {t : ι} {s s' : Store ι α} {q : Option (Pc ι α)} (hs : Sound ids s)
    (hl : SameLocks s s') (hm : Mine ids t s' q) : Starts ids t s s' q :=
  ⟨hl.sound hs, hm, fun u _ _ hu ↦ hu.spare (hl.spares u)⟩

/-- A call that takes the coordination lock shared starts. -/
theorem Starts.shared {t : ι} {s s' : Store ι α} (hs : Sound ids s) (hm : Mine ids t s none)
    (hl : SameLocks s s') (k : After ι α) (hk : k.Expects .acquire) (hn : k.Known s'.next) :
    Starts ids t s s' (some (AtomicArray.shared k)) :=
  .of_same hs hl (hm.start hl rfl rfl rfl hk hn (Or.inl rfl))

omit [Fintype ι] in
/-- Taking a guard out of a list and putting it back at the end keeps the counts. -/
theorem count_erase_append {gs : List (Guard ι)} {g : Guard ι} (hg : g ∈ gs) (x : Guard ι) :
    (gs.erase g ++ [g]).count x = gs.count x :=
  ((List.perm_append_singleton g (gs.erase g)).trans (List.perm_cons_erase hg).symm).count_eq x

omit [DecidableEq ι] in
/-- A guard is live only on a storage that was allocated. -/
theorem Sound.storage_lt {t : ι} {s : Store ι α} {g : Guard ι} (hs : Sound ids s)
    (hpos : 0 < s.record g t) : g.storage < s.next := by
  by_contra hle
  have hnew := hs.fresh g.storage g.index (Nat.not_lt.1 hle)
  unfold Store.record at hpos
  rw [hnew] at hpos
  cases hread : g.read <;> rw [hread] at hpos <;> exact absurd hpos (Nat.lt_irrefl 0)

/-- A returned guard is about to be dropped: it passes from the hands of the thread to its call. -/
theorem starts_dropGuard {t : ι} {s : Store ι α} {g : Guard ι} (hs : Sound ids s)
    (hm : Mine ids t s none) (hg : g ∈ s.guards t) :
    Starts ids t s ((s.giveUp t g).start t)
      (some (.dropSlot (releasePc g.read g.acquirer) g)) := by
  have hpos : 0 < s.record g t := by
    rw [hm.record g]
    simpa [hands] using hg
  have hn : g.storage < s.next := hs.storage_lt hpos
  refine ⟨⟨hs.accounts, hs.unparked, hs.exact, hs.fresh, hs.storage⟩, ?_, fun u hu q hq ↦ ?_⟩
  · refine .of_opens ?_ hm.exclusive (fun x ↦ ?_) (Or.inl (phase_releasePc _ _)) hn rfl
    · show s.coordLock.shared t = (Function.update s.guards t _ t).length + 1
      rw [Function.update_self, List.length_erase_of_mem hg]
      have := List.length_pos_of_mem hg
      have hsh : s.coordLock.shared t = (s.guards t).length + 0 := hm.shared
      omega
    · show s.record x t = (Function.update s.guards t _ t ++ Pc.inHand t _).count x
      have hhand : Pc.inHand t (.dropSlot (releasePc g.read g.acquirer) g : Pc ι α) = [g] := by
        show (if SerialMutex.phase (releasePc g.read g.acquirer) = .wake then [] else [g]) = [g]
        rw [phase_releasePc]
        rfl
      rw [Function.update_self, hhand, count_erase_append hg, hm.record x]
      simp [hands]
  · exact hq.spare ⟨rfl, rfl, Function.update_of_ne hu _ _, fun _ ↦ rfl, le_rfl,
      fun _ _ ↦ .refl u _⟩

/-- A returned guard is handed to another thread, with its coordination hold. -/
theorem starts_sendGuard {t u : ι} {s : Store ι α} {g : Guard ι} {l : RawMutex.Store ι}
    {m : SerialMutex.Store ι} {o : Outcome RawMutex.Pc RawMutex.Ret}
    {o' : Outcome (SerialMutex.Pc ι) SerialMutex.Ret} (hs : Sound ids s) (hm : Mine ids t s none)
    (hg : g ∈ s.guards t) (hl : RawMutex.enter t (.sendShared u) s.coordLock = some (l, o))
    (hr : SerialMutex.enter t (if g.read then .sendRead g.acquirer u else .sendWrite g.acquirer u)
      (s.slot g.storage g.index).lock = some (m, o')) :
    Starts ids t s { (s.giveUp t g).setLock g.storage g.index m with
      coordLock := l
      guards := Function.update (s.giveUp t g).guards u ((s.giveUp t g).guards u ++ [g]) }
        none := by
  obtain ⟨hpos, hut, hmrec⟩ := SerialMutex.enter_send hr
  obtain ⟨hstate, -, hreads, hwrites, hforeign, -⟩ := SerialMutex.enter_spec ids hr
  obtain ⟨hlstate, -, -, hlshared, hlexcl, -, -⟩ := RawMutex.enter_spec hl
  have hn : g.storage < s.next := hs.storage_lt hpos
  have hlx : l.exclusive = s.coordLock.exclusive ∧
      l.shared = transfer s.coordLock.shared t u := by
    simp only [RawMutex.enter] at hl
    split_ifs at hl
    cases hl
    exact ⟨rfl, rfl⟩
  obtain ⟨ht₁, hu₁, hv₁⟩ := transfer_cases (f := s.coordLock.shared) hut
  obtain ⟨ht₂, hu₂, hv₂⟩ := transfer_cases (f := fun v ↦ s.record g v) hut
  generalize hs' : ({ (s.giveUp t g).setLock g.storage g.index m with
      coordLock := l
      guards := Function.update (s.giveUp t g).guards u ((s.giveUp t g).guards u ++ [g]) } :
        Store ι α) = s'
  have hslot : ∀ b j, (s'.slot b j).lock =
      if b = g.storage ∧ j = g.index then m else (s.slot b j).lock := by
    intro b j
    subst hs'
    show (((s.giveUp t g).setSlot g.storage g.index _).slot b j).lock = _
    rw [slot_setSlot]
    split_ifs <;> rfl
  have hrec : ∀ x v, s'.record x v =
      if x = g then transfer (fun v ↦ s.record g v) t u v else s.record x v := by
    intro x v
    obtain ⟨b, j, r, y⟩ := x
    obtain ⟨b₀, j₀, r₀, y₀⟩ := g
    unfold Store.record
    rw [hslot]
    simp only [Guard.mk.injEq]
    by_cases hb : b = b₀ ∧ j = j₀
    · obtain ⟨rfl, rfl⟩ := hb
      rw [if_pos ⟨rfl, rfl⟩, hmrec]
      simp
    · rw [if_neg hb, if_neg fun h ↦ hb ⟨h.1, h.2.1⟩]
  have hguards : s'.guards = Function.update (Function.update s.guards t ((s.guards t).erase g)) u
      (s.guards u ++ [g]) := by
    subst hs'
    show Function.update (Function.update s.guards t _) u
      (Function.update s.guards t _ u ++ [g]) = _
    rw [Function.update_of_ne hut]
  have hcoord : s'.coordLock = l := by
    subst hs'
    rfl
  have hnext : s'.next = s.next := by
    subst hs'
    rfl
  have hstorage : s'.storage = s.storage := by
    subst hs'
    rfl
  have hfor : ∀ v, v ≠ t → ∀ b j, SerialMutex.Foreign v (s.slot b j).lock (s'.slot b j).lock := by
    intro v hv b j
    rw [hslot]
    split_ifs with h
    · rw [h.1, h.2]
      exact hforeign v hv
    · exact .refl v _
  refine ⟨⟨?_, by rw [hcoord, hlstate]; exact hs.unparked, fun b j ↦ ?_, fun b j hb ↦ ?_,
    by rw [hnext, hstorage]; exact hs.storage⟩, ?_, fun v hv q hq ↦ ?_⟩
  · have := hs.accounts
    unfold RawMutex.Accounts at this ⊢
    rwa [hcoord, hlstate, hlshared, hlexcl]
  · rw [hslot]
    split_ifs
    · exact (hs.exact g.storage g.index).of_fields_eq (fun h ↦ hstate ▸ h) (by rw [hstate])
        (by rw [hstate]) (by rw [hstate]) hreads hwrites
    · exact hs.exact b j
  · rw [hnext] at hb
    rw [hslot, if_neg fun h : b = g.storage ∧ j = g.index ↦ absurd (h.1 ▸ hb) (Nat.not_le.2 hn)]
    exact hs.fresh b j hb
  · refine .outside ?_ ?_ fun x ↦ ?_
    · rw [hcoord, hlx.2, ht₁, hguards, Function.update_of_ne hut.symm, Function.update_self,
        List.length_erase_of_mem hg]
      have hsh : s.coordLock.shared t = (s.guards t).length + 0 := hm.shared
      omega
    · rw [hcoord, hlx.1]
      exact hm.exclusive
    · rw [hrec, hguards, Function.update_of_ne hut.symm, Function.update_self]
      have hx : s.record x t = (s.guards t).count x := by simpa [hands] using hm.record x
      split_ifs with h
      · subst h
        rw [ht₂, hx, List.count_erase_self]
      · rw [hx, List.count_erase_of_ne h]
  · by_cases hvu : v = u
    · subst hvu
      refine ⟨?_, ?_, fun x ↦ ?_, hq.phased, fun p hp ↦ hnext ▸ hq.known p hp, fun p hp ↦ ?_⟩
      · rw [hcoord, hlx.2, hu₁, hq.shared, hguards, Function.update_self, List.length_append]
        simp only [List.length_singleton]
        omega
      · rw [hcoord, hlx.1, hq.exclusive]
      · have hx := hq.record x
        unfold hands at hx ⊢
        rw [hrec, hguards, Function.update_self]
        split_ifs with h
        · subst h
          rw [hu₂, hx]
          simp only [List.count_append, List.count_singleton_self]
          omega
        · rw [hx]
          simp [Ne.symm h]
      · have hk := hq.knows p hp
        cases p with
        | coord p k =>
          refine RawMutex.Knows.mono hk ?_ ?_
          · rw [hcoord, hlx.2, hu₁]
            exact Nat.le_succ _
          · rw [hcoord, hlx.1]
        | lock p w | unlock p w => exact SerialMutex.Knows.mono hk (hfor v hv _ _)
        | dropSlot p w => exact SerialMutex.Knows.mono hk (hfor v hv _ _)
        | _ => trivial
    · refine hq.spare ⟨?_, ?_, ?_, fun x ↦ ?_, hnext.ge, hfor v hv⟩
      · rw [hcoord, hlx.2, hv₁ v hv hvu]
      · rw [hcoord, hlx.1]
      · rw [hguards, Function.update_of_ne hvu, Function.update_of_ne hv]
      · rw [hrec]
        split_ifs with h
        · subst h
          exact hv₂ v hv hvu
        · rfl

/-- **Every start of a call keeps the locks sound and every thread's ownership.** -/
theorem enter_locks {t : ι} {op : Op ι α} {s s' : Store ι α} {o : Outcome (Pc ι α) (Ret ι α)}
    (hs : Sound ids s) (hm : Mine ids t s none) (h : enter t op s = some (s', o)) :
    Starts ids t s s' o.pc := by
  have hstart : SameLocks s (s.start t) := ⟨rfl, fun _ _ ↦ rfl, rfl, le_rfl, id⟩
  cases op with
  | push v =>
    cases h
    have hl : SameLocks s { s.start t with
        offered := Function.update s.offered t (s.offered t ++ [v]) } :=
      ⟨rfl, fun _ _ ↦ rfl, rfl, le_rfl, id⟩
    exact .shared hs hm hl (.push v) rfl trivial
  | get index | getMut index =>
    cases h
    exact .shared hs hm hstart (.job _) rfl trivial
  | asVec | forEach =>
    cases h
    exact .shared hs hm hstart (.job _) rfl trivial
  | forEachMut f =>
    cases h
    exact .shared hs hm hstart (.job _) rfl trivial
  | resetWith newCap inits =>
    simp only [enter] at h
    split at h
    · cases h
      exact .of_same hs (.refl s) hm
    · rename_i a ha
      cases h
      have hl : SameLocks s { (s.start t).adopt a (inits.take newCap) with
          asked := Function.update s.asked t (newCap, inits) } :=
        (hstart.trans
          (sameLocks_adopt (hstart.sound hs) (initWith_lock ha) (inits.take newCap))).trans
          ⟨rfl, fun _ _ ↦ rfl, rfl, le_rfl, id⟩
      exact .of_same hs hl (hm.start hl rfl rfl rfl trivial (Nat.lt_succ_self _) trivial)
  | deref g =>
    simp only [enter] at h
    split_ifs at h
    split at h
    · cases h
      exact .of_same hs (.refl s) hm
    · cases h
      have hl : SameLocks s { s with undefined := true } := ⟨rfl, fun _ _ ↦ rfl, rfl, le_rfl, id⟩
      exact .of_same hs hl (hl.mine hm)
  | write g v =>
    simp only [enter] at h
    split_ifs at h
    cases h
    exact .of_same hs (.store ..) ((SameLocks.store ..).mine hm)
  | dropGuard g =>
    simp only [enter] at h
    split_ifs at h with hg
    cases h
    exact starts_dropGuard hs hm hg
  | sendGuard g u =>
    by_cases hg : g ∈ s.guards t
    · simp only [enter, if_pos hg] at h
      split at h
      · rename_i l o₁ m o₂ hl hr
        cases h
        exact starts_sendGuard hs hm hg hl hr
      · cases h
    · simp only [enter, if_neg hg] at h
      cases h

variable (ids) in
/-- The locks are sound and every thread owns what its program point says. -/
structure Locks (c : Config ι (Store ι α) (Pc ι α)) : Prop where
  sound : Sound ids c.shared
  mine : ∀ t, Mine ids t c.shared (c.pcs t)

variable {ok : Config ι (Store ι α) (Pc ι α) → Label ι (Op ι α) → Prop} {capacity : ℕ}
  {c : Config ι (Store ι α) (Pc ι α)}

/-- Nobody owns anything in the initial configuration. -/
theorem locks_init : Locks ids (init capacity : Config ι (Store ι α) (Pc ι α)) := by
  have hlock : ∀ a i, ((Store.new capacity : Store ι α).slot a i).lock = .new := by
    intro a i
    show ((Function.update (fun _ ↦ allocateSlots 0) 0 (allocateSlots capacity) a :
      Storage ι α).slots i).lock = _
    by_cases ha : a = 0
    · subst ha
      rw [Function.update_self]
      rfl
    · rw [Function.update_of_ne ha]
      rfl
  refine ⟨⟨?_, Word.wp_unlocked, fun a i ↦ ?_, fun a i _ ↦ hlock a i, Nat.one_pos⟩, fun t ↦ ?_⟩
  · exact RawMutex.accounts_new
  · show SerialMutex.Exact ids ((Store.new capacity : Store ι α).slot a i).lock
    rw [hlock]
    exact SerialMutex.exact_new
  · refine .outside rfl rfl fun g ↦ ?_
    show SerialMutex.Store.record ((Store.new capacity : Store ι α).slot _ _).lock _ _ _ = _
    rw [hlock]
    cases g.read <;> rfl

/-- **Ownership along every run.** -/
theorem reach_locks (h : Reach (atomicArray ids adaptive) ok (init capacity) c) :
    Locks ids c := by
  refine h.invariant (I := Locks ids) locks_init ?_ ?_
  · rintro c t op ⟨s', o⟩ - ⟨hs, hm⟩ - hpc he
    have hst := enter_locks hs (hpc ▸ hm t) he
    refine ⟨hst.sound, fun u ↦ ?_⟩
    by_cases hu : u = t
    · subst hu
      rw [Config.put_pcs_self]
      exact hst.mine
    · rw [Config.put_pcs_of_ne _ _ hu]
      exact hst.others u hu _ (hm u)
  · rintro c t ch p ⟨s', o⟩ - ⟨hs, hm⟩ - hpc he
    have hst := exec_locks hs (hpc ▸ hm t) he
    refine ⟨hst.sound, fun u ↦ ?_⟩
    by_cases hu : u = t
    · subst hu
      rw [Config.put_pcs_self]
      exact hst.mine
    · rw [Config.put_pcs_of_ne _ _ hu]
      exact (hm u).spare (hst.spares u hu)

/-- **A reset in its exclusive section is alone**: no other thread is in an exclusive or a shared
section, and nobody holds a guard. -/
theorem Locks.alone (h : Locks ids c) {t : ι} {p : Pc ι α} (hpc : c.pcs t = some p)
    (hp : p.sealed = 1) (u : ι) :
    c.shared.guards u = [] ∧
      ∀ q, c.pcs u = some q → q.pinned = 0 ∧ (u ≠ t → q.sealed = 0) := by
  have hx : c.shared.coordLock.exclusive t = 1 := by
    rw [(h.mine t).exclusive, hpc]
    exact hp
  obtain ⟨he, hsh, -⟩ | ⟨he, -⟩ := h.sound.accounts
  · have hu : c.shared.coordLock.shared u = 0 := (tally_eq_zero_iff.1 hsh) u
    rw [(h.mine u).shared] at hu
    refine ⟨List.length_eq_zero_iff.1 (by omega), fun q hq ↦ ⟨?_, fun hut ↦ ?_⟩⟩
    · rw [hq] at hu
      exact (Nat.add_eq_zero_iff.1 hu).2
    · have hle := add_le_tally c.shared.coordLock.exclusive hut
      have hux : c.shared.coordLock.exclusive u = q.sealed := by
        rw [(h.mine u).exclusive, hq]
        rfl
      omega
  · have hle := le_tally c.shared.coordLock.exclusive t
    omega

end Runs

end AtomicArray

end Crossync
