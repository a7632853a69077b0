import Crossync.Core.RawMutexParking
import Crossync.Core.SerialParking
import Crossync.Atomic.ArraySlots

/-!
# Who waits for whom in an `AtomicArray`

A call sleeps at two places, on the coordination lock behind a reset that has the array for itself
and on the mutex of a slot behind whoever has the slot, and it spins at one, on a slot that is
reserved and not yet written. A reset never sleeps with the coordination lock in its hands, a call
that sleeps has no slot, and a push that has reserved a slot goes on to write it without waiting. So
whoever a thread waits for can go on, unless it is the program, which still has a guard.

## The order of waiting

1. A thread asleep on the coordination lock waits for a reset that has it, or for a wake under way.
2. A thread asleep on a slot waits for the thread that has the slot, which is in its section.
3. A thread that spins on a slot waits for the push that reserved it.

A reset waits for nobody while it has the coordination lock, and a push that has reserved its slot
has only stores left. So the chain ends after one step, at a thread that can go on, or at a guard
that the program keeps.
-/

open Interleave

namespace Crossync

namespace AtomicArray

variable {ι α : Type*} [DecidableEq ι]

/-! ### Roles on the futexes

For the coordination lock and for every slot, whether a program point sleeps on it, has yet to wake
its sleepers, or is away from it. -/

/-- The operation of a slot mutex inside a program point, with its slot. -/
def Pc.slotOp : Pc ι α → Option (SerialMutex.Pc ι × (ℕ × ℕ))
  | .lock p v | .unlock p v => some (p, (v.slots, v.target))
  | .dropSlot p g => some (p, (g.storage, g.index))
  | _ => none

/-- What a thread owes or expects of the readers' futex of the coordination lock. -/
def coordRole : Option (Pc ι α) → Role
  | some (.coord p _) => RawMutex.readerRole (some p)
  | _ => .out

/-- What a thread owes or expects of the futex of a slot. -/
def slotRole (x : ℕ × ℕ) (q : Option (Pc ι α)) : Role :=
  (q.bind Pc.slotOp).elim .out fun y ↦ if y.2 = x then SerialMutex.role (some y.1) else .out

/-- No futex is concerned. -/
def Away (q : Option (Pc ι α)) : Prop := coordRole q = .out ∧ ∀ x, slotRole x q = .out

omit [DecidableEq ι] in
theorem away_none : Away (none : Option (Pc ι α)) := ⟨rfl, fun _ ↦ rfl⟩

omit [DecidableEq ι] in
theorem slotRole_of_slotOp {p : Pc ι α} {q : SerialMutex.Pc ι} {y : ℕ × ℕ}
    (h : p.slotOp = some (q, y)) (x : ℕ × ℕ) :
    slotRole x (some p) = if y = x then SerialMutex.role (some q) else .out := by
  unfold slotRole
  rw [Option.bind_some, h]
  rfl

omit [DecidableEq ι] in
theorem coordRole_of_slotOp {p : Pc ι α} {q : SerialMutex.Pc ι} {y : ℕ × ℕ}
    (h : p.slotOp = some (q, y)) :
    coordRole (some p) = .out := by
  cases p with
  | coord p k => cases h
  | _ => rfl

omit [DecidableEq ι] in
/-- No operation of a lock starts on a futex. -/
theorem Pc.Opens.away {t : ι} {p : Pc ι α} (h : p.Opens t) : Away (some p) := by
  have hrelease : ∀ (read : Bool) (a : ι), SerialMutex.role (some (releasePc read a)) = .out := by
    intro read a
    cases read
    · rfl
    · rfl
  cases p with
  | coord q k =>
    refine ⟨?_, fun _ ↦ rfl⟩
    rcases h with rfl | rfl | rfl | rfl
    all_goals rfl
  | lock q v =>
    obtain rfl : q = .lockFast v.job.reads := h
    exact ⟨rfl, fun _ ↦ ite_self _⟩
  | unlock q v =>
    obtain rfl : q = releasePc v.job.reads t := h
    refine ⟨rfl, fun x ↦ ?_⟩
    rw [slotRole_of_slotOp rfl, hrelease, ite_self]
  | dropSlot q g =>
    obtain rfl : q = releasePc g.read g.acquirer := h
    refine ⟨rfl, fun x ↦ ?_⟩
    rw [slotRole_of_slotOp rfl, hrelease, ite_self]
  | _ => exact ⟨rfl, fun _ ↦ rfl⟩

variable [Fintype ι] {ids : SerialMutex.OwnerIds ι} {adaptive capacity : ℕ} {t : ι} {ch : Choice ι}
  {s s' : Store ι α} {p : Pc ι α} {o : Outcome (Pc ι α) (Ret ι α)}

omit [Fintype ι] in
theorem InSection.away {n : ℕ} (h : InSection t n p) : Away (some p) := h.opens.away

omit [DecidableEq ι] [Fintype ι] in
theorem away_leave (r : Ret ι α) : Away (some (leave r)) := ⟨rfl, fun _ ↦ rfl⟩

omit [DecidableEq ι] [Fintype ι] in
/-- After an operation of the coordination lock. -/
theorem away_resume (s : Store ι α) (k : After ι α) (e : RawMutex.Ret) :
    Away (resume s k e).2.pc := by
  have hinspect : ∀ (r : Reset) (i n : ℕ), Away (some (inspectNext r i n : Pc ι α)) := by
    intro r i n
    unfold inspectNext
    split_ifs
    · exact ⟨rfl, fun _ ↦ rfl⟩
    · exact ⟨rfl, fun _ ↦ rfl⟩
  unfold resume
  split
  all_goals first
    | exact hinspect _ _ _
    | exact ⟨rfl, fun _ ↦ rfl⟩

/-- **Where an access leads**: through an operation of the coordination lock, through one of a slot
mutex, or past the locks. -/
inductive Leads (ids : SerialMutex.OwnerIds ι) (adaptive : ℕ) (t : ι) (ch : Choice ι)
    (s : Store ι α) (p : Pc ι α) (s' : Store ι α) (q : Option (Pc ι α)) : Prop
  | coord (r : RawMutex.Pc) (k : After ι α) (l : RawMutex.Store ι)
    (e : Outcome RawMutex.Pc RawMutex.Ret)
      (hp : p = .coord r k) (hr : RawMutex.exec adaptive t ch s.coordLock r = some (l, e))
      (hcoord : s'.coordLock = l) (hslot : ∀ a i, (s'.slot a i).lock = (s.slot a i).lock)
      (hq : coordRole q = RawMutex.readerRole e.pc) (hq' : ∀ x, slotRole x q = .out)
  | slot (r : SerialMutex.Pc ι) (y : ℕ × ℕ) (l : SerialMutex.Store ι)
      (e : Outcome (SerialMutex.Pc ι) SerialMutex.Ret)
      (hp : p.slotOp = some (r, y))
        (hr : SerialMutex.exec ids adaptive t ch (s.slot y.1 y.2).lock r = some (l, e))
      (hcoord : s'.coordLock = s.coordLock)
      (hslot : ∀ x : ℕ × ℕ, (s'.slot x.1 x.2).lock = if y = x then l else (s.slot x.1 x.2).lock)
      (hq : coordRole q = .out)
        (hq' : ∀ x, slotRole x q = if y = x then SerialMutex.role e.pc else .out)
  | own (hlocks : SameLocks s s') (hp : Away (some p)) (hq : Away q)

omit [DecidableEq ι] [Fintype ι] in
theorem lock_setLock (s : Store ι α) (y x : ℕ × ℕ) (l : SerialMutex.Store ι) :
    ((s.setLock y.1 y.2 l).slot x.1 x.2).lock = if y = x then l else (s.slot x.1 x.2).lock := by
  rw [Store.setLock, slot_setSlot]
  by_cases hyx : y = x
  · subst hyx
    rw [if_pos ⟨rfl, rfl⟩, if_pos rfl]
  · rw [if_neg hyx, if_neg fun h ↦ hyx (Prod.ext h.1.symm h.2.symm)]

omit [DecidableEq ι] [Fintype ι] in
/-- What the new lock of a slot has in common with the old one, all slot locks keep. -/
theorem setLock_keeps {β : Type*} {y : ℕ × ℕ} {l : SerialMutex.Store ι}
    (f : SerialMutex.Store ι → β) (hf : f l = f (s.slot y.1 y.2).lock) (x : ℕ × ℕ) :
    f ((s.setLock y.1 y.2 l).slot x.1 x.2).lock = f (s.slot x.1 x.2).lock := by
  rw [lock_setLock]
  split_ifs with hyx
  · rw [hf, hyx]
  · rfl

/-- An operation of a slot mutex inside a call. -/
theorem leads_slotStep {r : SerialMutex.Pc ι} {a i : ℕ} {stay : SerialMutex.Pc ι → Pc ι α}
    {done : Store ι α → SerialMutex.Ret → Store ι α × Outcome (Pc ι α) (Ret ι α)}
    (hp : p.slotOp = some (r, (a, i))) (hstay : ∀ r', (stay r').slotOp = some (r', (a, i)))
    (hdone : ∀ s₁ e, (done s₁ e).1.coordLock = s₁.coordLock ∧
      (∀ b j, ((done s₁ e).1.slot b j).lock = (s₁.slot b j).lock) ∧ Away (done s₁ e).2.pc)
    (h : slotStep ids adaptive t ch s a i r stay done = some (s', o)) :
    Leads ids adaptive t ch s p s' o.pc := by
  obtain ⟨l, ⟨r', hr, rfl, rfl⟩ | ⟨e, hr, he⟩⟩ := slotStep_cases h
  · exact .slot r (a, i) l _ hp hr rfl (fun x ↦ lock_setLock s (a, i) x l)
      (coordRole_of_slotOp (hstay r'))
      (slotRole_of_slotOp (hstay r'))
  · obtain ⟨hcoord, hslot, haway⟩ := hdone (s.setLock a i l) e
    rw [← he] at hcoord hslot haway
    refine .slot r (a, i) l _ hp hr hcoord
      (fun x ↦ (hslot x.1 x.2).trans (lock_setLock s (a, i) x l)) haway.1 fun x ↦ ?_
    rw [haway.2 x]
    exact (ite_self _).symm

omit [Fintype ι] in
theorem away_locked (s : Store ι α) (v : Visit α) :
    (locked t s v).1.coordLock = s.coordLock ∧
      (∀ a i, ((locked t s v).1.slot a i).lock = (s.slot a i).lock) ∧
      Away (locked t s v).2.pc := by
  rcases locked_cases t s v with h | h
  · rw [h]
    exact ⟨rfl, fun _ _ ↦ rfl, away_none⟩
  · rw [h]
    exact ⟨rfl, fun _ _ ↦ rfl, rfl, fun _ ↦ rfl⟩

/-- **Every access leads somewhere.** -/
theorem exec_leads (hs : Sound ids s) (hm : Mine ids t s (some p))
    (h : exec ids adaptive t ch s p = some (s', o)) : Leads ids adaptive t ch s p s' o.pc := by
  have hsection : ∀ {q : Pc ι α}, SameLocks s s' → Away (some p) → InSection t s.next q →
      Leads ids adaptive t ch s p s' (some q) := fun hl hp hq ↦ .own hl hp hq.away
  cases p with
  | coord r k =>
    obtain ⟨l, ⟨r', hr, rfl, rfl⟩ | ⟨e, hr, he⟩⟩ := coord_cases h
    · exact .coord r k l _ rfl hr rfl (fun _ _ ↦ rfl) rfl fun _ ↦ rfl
    · have haway := away_resume { s with coordLock := l } k e
      have hlocks := sameLocks_resume { s with coordLock := l } k e
      rw [← he] at haway hlocks
      exact .coord r k l _ rfl hr hlocks.coordLock hlocks.lock haway.1 haway.2
  | lock r v =>
    simp only [exec] at h
    refine leads_slotStep rfl ?_ ?_ h
    · exact fun _ ↦ rfl
    intro s₁ e
    cases e with
    | token w => exact away_locked s₁ v
    | _ => exact ⟨rfl, fun _ _ ↦ rfl, away_leave _⟩
  | unlock r v =>
    simp only [exec] at h
    refine leads_slotStep rfl ?_ ?_ h
    · exact fun _ ↦ rfl
    intro s₁ e
    cases e with
    | unit => exact ⟨rfl, fun _ _ ↦ rfl, (inSection_visitNext t _ hs.storage).away⟩
    | _ => exact ⟨rfl, fun _ _ ↦ rfl, away_leave _⟩
  | dropSlot r g =>
    simp only [exec] at h
    refine leads_slotStep rfl ?_ ?_ h
    · exact fun _ ↦ rfl
    intro s₁ e
    cases e with
    | unit => exact ⟨rfl, fun _ _ ↦ rfl, away_leave _⟩
    | _ => exact ⟨rfl, fun _ _ ↦ rfl, away_none⟩
  | pushLoad slow v =>
    cases h
    exact hsection (.use s t _) ⟨rfl, fun _ ↦ rfl⟩ (inSection_pushCheck ..)
  | pushCas slow v tail =>
    simp only [exec] at h
    split at h
    · cases h
      exact .own ⟨rfl, fun _ _ ↦ rfl, rfl, le_rfl, id⟩ ⟨rfl, fun _ ↦ rfl⟩ ⟨rfl, fun _ ↦ rfl⟩
    · cases h
      refine .own (.use s t _) ⟨rfl, fun _ ↦ rfl⟩ ?_
      cases slow
      · exact ⟨rfl, fun _ ↦ rfl⟩
      · exact (inSection_pushCheck t s.next ..).away
  | pushWrite v a i | pushState v a i =>
    cases h
    exact .own (.setSlot s a i rfl) ⟨rfl, fun _ ↦ rfl⟩ ⟨rfl, fun _ ↦ rfl⟩
  | pushLen v a i =>
    cases h
    exact .own ⟨rfl, fun _ _ ↦ rfl, rfl, le_rfl, id⟩ ⟨rfl, fun _ ↦ rfl⟩ ⟨rfl, fun _ ↦ rfl⟩
  | loadLen j =>
    cases h
    exact hsection (.use s t _) ⟨rfl, fun _ ↦ rfl⟩ (inSection_lenCheck ..)
  | loadHead j len =>
    cases h
    exact hsection (.use s t _) ⟨rfl, fun _ ↦ rfl⟩ (inSection_visitFirst t j _ _ _ hs.storage)
  | waitWrite v =>
    simp only [exec] at h
    split at h
    · cases h
      have hopens : (Pc.lock (.lockFast v.job.reads) v : Pc ι α).Opens t := rfl
      exact .own (.refl s) ⟨rfl, fun _ ↦ rfl⟩ hopens.away
    · cases h
      exact .own (.refl s) ⟨rfl, fun _ ↦ rfl⟩ ⟨rfl, fun _ ↦ rfl⟩
  | access v =>
    have hopens : ∀ w : Visit α, w.job = v.job →
        (Pc.unlock (releasePc v.job.reads t) w : Pc ι α).Opens t := by
      intro w hw
      show releasePc v.job.reads t = releasePc w.job.reads t
      rw [hw]
    simp only [exec] at h
    split at h
    · cases h
      exact .own (.shown ..) ⟨rfl, fun _ ↦ rfl⟩ (hopens _ rfl).away
    · cases h
      exact .own ⟨rfl, fun _ _ ↦ rfl, rfl, le_rfl, id⟩ ⟨rfl, fun _ ↦ rfl⟩ (hopens _ rfl).away
  | resetTry r | resetShared r =>
    cases h
    exact .own (.refl s) ⟨rfl, fun _ ↦ rfl⟩ ⟨rfl, fun _ ↦ rfl⟩
  | inspect r i =>
    simp only [exec] at h
    split at h
    · cases h
      exact .own (.refl s) ⟨rfl, fun _ ↦ rfl⟩ ⟨rfl, fun _ ↦ rfl⟩
    · cases h
      refine .own (.refl s) ⟨rfl, fun _ ↦ rfl⟩ ?_
      unfold Outcome.pc inspectNext
      split_ifs <;> exact ⟨rfl, fun _ ↦ rfl⟩
  | resetStorage r =>
    have hn : r.fresh < s.next := hm.known _ rfl
    cases h
    exact .own ⟨rfl, fun _ _ ↦ rfl, rfl, le_rfl, fun _ ↦ hn⟩ ⟨rfl, fun _ ↦ rfl⟩ ⟨rfl, fun _ ↦ rfl⟩
  | resetHead r old | resetTail r old | resetLen r old =>
    cases h
    exact .own ⟨rfl, fun _ _ ↦ rfl, rfl, le_rfl, id⟩ ⟨rfl, fun _ ↦ rfl⟩ ⟨rfl, fun _ ↦ rfl⟩
  | resetDrop r old =>
    cases h
    exact .own (.free s old) ⟨rfl, fun _ ↦ rfl⟩ away_none

/-! ### The steps on the futexes

Every access is a step of the parking pattern on each of the futexes. On all but one of them it is a
step of a thread that is away. -/

/-- Whether the call is about to recheck the coordination lock before it sleeps. -/
def Pc.rechecks : Pc ι α → Bool
  | .coord r _ => RawMutex.atRecheck (some r)
  | _ => false

/-- **An access is a step of the parking pattern** on the coordination lock, if a recheck does not
miss the flag. -/
theorem exec_coordPark (hs : Sound ids s) (hm : Mine ids t s (some p))
    (hflag : p.rechecks = true → Word.isWriterLocked s.coordLock.state = true →
      s.coordLock.state &&& Word.readersParked ≠ 0)
    (h : exec ids adaptive t ch s p = some (s', o)) :
    Park t s.coordLock.readersFutex s'.coordLock.readersFutex (RawMutex.ReaderQueued s.coordLock)
      (RawMutex.ReaderQueued s'.coordLock) (coordRole (some p)) (coordRole o.pc) := by
  cases exec_leads hs hm h with
  | coord r k l e hp hr hcoord _ hq _ =>
    subst hp
    rw [hcoord, hq]
    exact RawMutex.exec_parkBehind hs.accounts (hm.knows _ rfl) hs.unparked hflag hr
  | slot r y l e hp _ hcoord _ hq _ =>
    rw [hcoord, hq, coordRole_of_slotOp hp]
    exact .rest
  | own hlocks hp hq =>
    rw [hlocks.coordLock, hp.1, hq.1]
    exact .rest

/-- What an operation of a slot mutex relies on. -/
theorem Mine.knows_slotOp {r : SerialMutex.Pc ι} {y : ℕ × ℕ} (hm : Mine ids t s (some p))
    (hp : p.slotOp = some (r, y)) : SerialMutex.Knows ids t (s.slot y.1 y.2).lock r := by
  have hk := hm.knows p rfl
  cases p with
  | lock | unlock | dropSlot =>
    cases hp
    exact hk
  | _ => cases hp

/-- **An access is a step of the parking pattern** on every slot. -/
theorem exec_slotPark (hs : Sound ids s) (hm : Mine ids t s (some p))
    (h : exec ids adaptive t ch s p = some (s', o)) (x : ℕ × ℕ) :
    Park t (s.slot x.1 x.2).lock.wake (s'.slot x.1 x.2).lock.wake
      (SerialWord.waiting (s.slot x.1 x.2).lock.state = true)
      (SerialWord.waiting (s'.slot x.1 x.2).lock.state = true) (slotRole x (some p))
        (slotRole x o.pc) := by
  cases exec_leads hs hm h with
  | coord r k l e hp _ _ hslot _ hq =>
    subst hp
    rw [hslot, hq]
    exact .rest
  | slot r y l e hp hr _ hslot _ hq =>
    rw [hslot, hq, slotRole_of_slotOp hp]
    by_cases hyx : y = x
    · subst hyx
      simp only [if_true]
      exact SerialMutex.exec_park (hs.exact _ _) (hm.knows_slotOp hp) hr
    · simp only [if_neg hyx]
      exact .rest
  | own hlocks hp hq =>
    rw [hlocks.lock, hp.2, hq.2]
    exact .rest

/-- The futexes, and the words that cover their sleepers, are as before. -/
structure SameFutexes (s s' : Store ι α) : Prop where
  coordState : s'.coordLock.state = s.coordLock.state
  readersFutex : s'.coordLock.readersFutex = s.coordLock.readersFutex
  state : ∀ a i, (s'.slot a i).lock.state = (s.slot a i).lock.state
  wake : ∀ a i, (s'.slot a i).lock.wake = (s.slot a i).lock.wake

omit [DecidableEq ι] [Fintype ι] in
theorem SameLocks.sameFutexes (h : SameLocks s s') : SameFutexes s s' :=
  ⟨by rw [h.coordLock], by rw [h.coordLock], fun a i ↦ by rw [h.lock], fun a i ↦ by rw [h.lock]⟩

/-- The start of a call leaves the futexes alone. -/
theorem enter_away {op : Op ι α} (hs : Sound ids s) (h : enter t op s = some (s', o)) :
    Away o.pc ∧ SameFutexes s s' := by
  have hstart : SameLocks s (s.start t) := ⟨rfl, fun _ _ ↦ rfl, rfl, le_rfl, id⟩
  cases op with
  | push v =>
    cases h
    exact ⟨⟨rfl, fun _ ↦ rfl⟩, ⟨rfl, rfl, fun _ _ ↦ rfl, fun _ _ ↦ rfl⟩⟩
  | get index | getMut index | asVec | forEach | forEachMut f =>
    cases h
    exact ⟨⟨rfl, fun _ ↦ rfl⟩, hstart.sameFutexes⟩
  | resetWith newCap inits =>
    simp only [enter] at h
    split at h
    · cases h
      exact ⟨away_none, (SameLocks.refl s).sameFutexes⟩
    · rename_i a ha
      cases h
      have hadopt := sameLocks_adopt (hstart.sound hs) (initWith_lock ha) (inits.take newCap)
      obtain ⟨h₁, h₂, h₃, h₄⟩ := (hstart.trans hadopt).sameFutexes
      exact ⟨⟨rfl, fun _ ↦ rfl⟩, ⟨h₁, h₂, h₃, h₄⟩⟩
  | deref g =>
    simp only [enter] at h
    split_ifs at h
    split at h <;> cases h <;> exact ⟨away_none, ⟨rfl, rfl, fun _ _ ↦ rfl, fun _ _ ↦ rfl⟩⟩
  | write g v =>
    simp only [enter] at h
    split_ifs at h
    cases h
    exact ⟨away_none, (SameLocks.store ..).sameFutexes⟩
  | dropGuard g =>
    simp only [enter] at h
    split_ifs at h
    cases h
    have hopens : (Pc.dropSlot (releasePc g.read g.acquirer) g : Pc ι α).Opens t := rfl
    exact ⟨hopens.away, ⟨rfl, rfl, fun _ _ ↦ rfl, fun _ _ ↦ rfl⟩⟩
  | sendGuard g u =>
    by_cases hg : g ∈ s.guards t
    · simp only [enter, if_pos hg] at h
      split at h
      · rename_i l o₁ m o₂ hl hr
        cases h
        obtain ⟨hstate, hfutex, -⟩ := RawMutex.enter_spec hl
        obtain ⟨hstate', hwake, -⟩ := SerialMutex.enter_spec ids hr
        exact ⟨away_none, ⟨hstate, hfutex,
          fun a i ↦ setLock_keeps (s := s.giveUp t g) (y := (g.storage, g.index)) (·.state)
            hstate' (a, i),
          fun a i ↦ setLock_keeps (s := s.giveUp t g) (y := (g.storage, g.index)) (·.wake)
            hwake (a, i)⟩⟩
      · cases h
    · simp only [enter, if_neg hg] at h
      cases h

omit [DecidableEq ι] [Fintype ι] in
/-- The slot locks of a new array are new. -/
theorem lock_new (capacity a i : ℕ) : ((Store.new capacity : Store ι α).slot a i).lock = .new := by
  show ((Function.update (fun _ ↦ allocateSlots 0) 0 (allocateSlots capacity) a : Storage ι α).slots
    i).lock = _
  by_cases ha : a = 0
  · subst ha
    rw [Function.update_self]
    rfl
  · rw [Function.update_of_ne ha]
    rfl

/-! ### Runs -/

/-- The condition under which calls are safe behind a reset: the recheck of a reader that is about
to sleep does not find a writer and the readers-parked flag gone. -/
def FlagsSurvive (c : Config ι (Store ι α) (Pc ι α)) : Label ι (Op ι α) → Prop
  | .call _ _ => True
  | .exec t _ => (c.pcs t).any Pc.rechecks = true →
    Word.isWriterLocked c.shared.coordLock.state = true →
      c.shared.coordLock.state &&& Word.readersParked ≠ 0

instance (c : Config ι (Store ι α) (Pc ι α)) (l : Label ι (Op ι α)) :
    Decidable (FlagsSurvive c l) :=
  match l with
  | .call _ _ => isTrue trivial
  | .exec _ _ => inferInstanceAs (Decidable (_ → _ → _))

/-- The parking invariants of all locks. -/
structure Parked (c : Config ι (Store ι α) (Pc ι α)) : Prop where
  coord : Lot c.shared.coordLock.readersFutex (RawMutex.ReaderQueued c.shared.coordLock) fun t ↦
    coordRole (c.pcs t)
  slot : ∀ x : ℕ × ℕ, Lot (c.shared.slot x.1 x.2).lock.wake
    (SerialWord.waiting (c.shared.slot x.1 x.2).lock.state = true) fun t ↦ slotRole x (c.pcs t)

variable {c : Config ι (Store ι α) (Pc ι α)}

/-- **No lock loses a wakeup** while the flag survives. -/
theorem reach_parked (h : Reach (atomicArray ids adaptive) FlagsSurvive (init capacity) c) :
    Parked c := by
  refine h.invariant (I := Parked) ⟨Lot.new 0 _, fun x ↦ ?_⟩ ?_ ?_
  · show Lot ((Store.new capacity : Store ι α).slot x.1 x.2).lock.wake _ _
    rw [lock_new]
    exact Lot.new 0 _
  · rintro c t op ⟨s', o⟩ hc hp - hpc he
    obtain ⟨haway, hsame⟩ := enter_away (reach_locks hc).sound he
    refine ⟨?_, fun x ↦ ?_⟩
    · rw [Config.comp_put_pcs, haway.1]
      refine hp.coord.step ?_
      rw [hpc, Config.put_shared, RawMutex.ReaderQueued, RawMutex.ReaderQueued, hsame.coordState,
        hsame.readersFutex]
      exact .rest
    · rw [Config.comp_put_pcs, haway.2 x]
      refine (hp.slot x).step ?_
      rw [hpc, Config.put_shared, hsame.state, hsame.wake]
      exact .rest
  · rintro c t ch p ⟨s', o⟩ hc hp hok hpc he
    have hL := reach_locks hc
    have hm : Mine ids t c.shared (some p) := hpc ▸ hL.mine t
    refine ⟨?_, fun x ↦ ?_⟩
    · rw [Config.comp_put_pcs]
      refine hp.coord.step ?_
      rw [hpc]
      refine exec_coordPark hL.sound hm (fun hr ↦ hok ?_) he
      rw [hpc]
      exact hr
    · rw [Config.comp_put_pcs]
      refine (hp.slot x).step ?_
      rw [hpc]
      exact exec_slotPark hL.sound hm he x

/-! ### Waiting

Who waits, for whom, and why that one can go on. Spinning is waiting as well: a thread that finds
its slot unwritten again and again makes steps and no progress. -/

/-- The call spins on a slot that is not written yet. -/
def Pc.Spins (s : Store ι α) : Pc ι α → Prop
  | .waitWrite v => (s.slot v.slots v.target).state = .empty
  | _ => False

/-- The call waits: asleep on one of the locks, or spinning on a slot. -/
def Waits (t : ι) (s : Store ι α) : Pc ι α → Prop
  | .coord r _ => (∃ b, r = .lockSharedParked b) ∧ t ∈ s.coordLock.readersFutex.waiters
  | .lock r v => (∃ read b, r = .slowParked read b) ∧
    t ∈ (s.slot v.slots v.target).lock.wake.waiters
  | .waitWrite v => (s.slot v.slots v.target).state = .empty
  | _ => False

omit [Fintype ι] in
/-- The release of a slot mutex can always go on. -/
theorem exec_release_ne_none {l : SerialMutex.Store ι} {r : SerialMutex.Pc ι} {read : Bool} {a : ι}
    (hph : SerialMutex.phase r = .release read a ∨ SerialMutex.phase r = .wake) :
    SerialMutex.exec ids adaptive t .go l r ≠ none := by
  intro hr
  obtain ⟨⟨read', b, rfl⟩, -⟩ := SerialMutex.exec_eq_none hr
  rcases hph with h | h <;> cases h

/-- **What cannot go on waits.** -/
theorem waits_of_stuck (hm : Mine ids t s (some p))
    (h : p.Spins s ∨ exec ids adaptive t .go s p = none) :
    Waits t s p := by
  have hslot : ∀ {a i r stay done}, slotStep ids adaptive t .go s a i r stay done = none →
      SerialMutex.exec ids adaptive t .go (s.slot a i).lock r = none := by
    intro a i r stay done hstep
    unfold slotStep at hstep
    split at hstep
    · assumption
    · cases hstep
    · cases hstep
  cases p with
  | waitWrite v =>
    rcases h with h | h
    · exact h
    · simp only [exec] at h
      split at h <;> cases h
  | coord r k =>
    have hgo := h.resolve_left id
    have hexp : k.Expects (RawMutex.phase r) := hm.phased _ rfl
    simp only [exec] at hgo
    split at hgo
    · rename_i hr
      exact RawMutex.exec_eq_none hexp.ne_other hr
    · cases hgo
    · cases hgo
  | lock r v =>
    have hgo := h.resolve_left id
    simp only [exec] at hgo
    exact SerialMutex.exec_eq_none (hslot hgo)
  | unlock | dropSlot =>
    have hgo := h.resolve_left id
    simp only [exec] at hgo
    exact absurd (hslot hgo) (exec_release_ne_none (hm.phased _ rfl))
  | pushCas | access | inspect =>
    have hgo := h.resolve_left id
    simp only [exec] at hgo
    split at hgo <;> cases hgo
  | _ => cases h.resolve_left id

omit [Fintype ι] [DecidableEq ι] in
/-- Who waits owes no futex anything. -/
theorem Waits.role (h : Waits t s p) : (coordRole (some p) = .out ∨ coordRole (some p) = .asleep) ∧
    ∀ x, slotRole x (some p) = .out ∨ slotRole x (some p) = .asleep := by
  cases p with
  | coord r k =>
    obtain ⟨⟨b, rfl⟩, -⟩ := h
    exact ⟨Or.inr rfl, fun _ ↦ Or.inl rfl⟩
  | lock r v =>
    obtain ⟨⟨read, b, rfl⟩, -⟩ := h
    refine ⟨Or.inl rfl, fun x ↦ ?_⟩
    rw [slotRole_of_slotOp rfl]
    split_ifs
    · exact Or.inr rfl
    · exact Or.inl rfl
  | waitWrite v => exact ⟨Or.inl rfl, fun _ ↦ Or.inl rfl⟩
  | _ => exact h.elim

omit [Fintype ι] in
/-- Who waits has neither the array for itself nor a slot in hand. -/
theorem Waits.empty (h : Waits t s p) : p.sealed = 0 ∧ p.inHand t = [] := by
  cases p with
  | coord r k =>
    obtain ⟨⟨b, rfl⟩, -⟩ := h
    exact ⟨rfl, rfl⟩
  | lock | waitWrite => exact ⟨rfl, rfl⟩
  | _ => exact h.elim

/-- **Who spins waits for a push that can go on**: the slot is reserved, and the push that has
reserved it is at one of its three remaining accesses. -/
theorem spin_awaits_push (h : Reach (atomicArray ids adaptive) Always (init capacity) c)
    {v : Visit α} (hpc : c.pcs t = some (.waitWrite v)) (hspin : (Pc.waitWrite v).Spins c.shared) :
    ∃ u q x r, c.pcs u = some q ∧ (q = .pushWrite x v.slots v.target ∨
      q = .pushLen x v.slots v.target ∨ q = .pushState x v.slots v.target) ∧
        exec ids adaptive u .go c.shared q = some r := by
  obtain ⟨u, q, x, r, hq, hpush, -⟩ :=
    ((reach_books h).touches (reach_locks h) hpc rfl).pending hspin
  rcases hpush with rfl | rfl | rfl
  · exact ⟨u, _, x, _, hq, Or.inl rfl, rfl⟩
  · exact ⟨u, _, x, _, hq, Or.inr (Or.inl rfl), rfl⟩
  · exact ⟨u, _, x, _, hq, Or.inr (Or.inr rfl), rfl⟩

/-- **What stays when nobody can go on**: a thread that sleeps on the mutex of a slot, which the
program keeps with a guard of another thread's making. -/
theorem asleep_of_stuck (h : Reach (atomicArray ids adaptive) FlagsSurvive (init capacity) c)
    (hpc : c.pcs t = some p) (hgo : ¬ ∃ u q r, c.pcs u = some q ∧ ¬ q.Spins c.shared ∧
      exec ids adaptive u .go c.shared q = some r) :
    ∃ read b v, p = .lock (.slowParked read b) v ∧
      ∃ u, ∃ g ∈ c.shared.guards u,
        (g.storage, g.index) = (v.slots, v.target) ∧ g.acquirer ≠ t := by
  have hL := reach_locks h
  have hP := reach_parked h
  have hmine : ∀ {u q}, c.pcs u = some q → Mine ids u c.shared (some q) :=
    fun {u q} hq ↦ hq ▸ hL.mine u
  have hwaits : ∀ {u q}, c.pcs u = some q → Waits u c.shared q := by
    intro u q hq
    have hstuck : q.Spins c.shared ∨ exec ids adaptive u .go c.shared q = none := by
      by_contra hnot
      obtain ⟨hspin, hne⟩ := not_or.1 hnot
      obtain ⟨r, hr⟩ := Option.ne_none_iff_exists'.1 hne
      exact hgo ⟨u, q, r, hq, hspin, hr⟩
    exact waits_of_stuck (hmine hq) hstuck
  -- nobody owes a wakeup, has the array for itself or a slot in hand
  have hrole : ∀ u, (coordRole (c.pcs u) = .out ∨ coordRole (c.pcs u) = .asleep) ∧
      ∀ x, slotRole x (c.pcs u) = .out ∨ slotRole x (c.pcs u) = .asleep := by
    intro u
    cases hq : c.pcs u with
    | none => exact ⟨Or.inl rfl, fun _ ↦ Or.inl rfl⟩
    | some q => exact (hwaits hq).role
  have hempty : ∀ u, (c.pcs u).elim 0 Pc.sealed = 0 ∧
      hands u c.shared (c.pcs u) = c.shared.guards u := by
    intro u
    unfold hands
    cases hq : c.pcs u with
    | none => exact ⟨rfl, List.append_nil _⟩
    | some q =>
      obtain ⟨hseal, hhand⟩ := (hwaits hq).empty
      exact ⟨hseal, by rw [Option.elim_some, hhand, List.append_nil]⟩
  cases p with
  | coord r k =>
    exfalso
    obtain ⟨u, hpos⟩ :=
      (hP.coord.queued (fun u ↦ (hrole u).1) ⟨t, (hwaits hpc).2⟩).held hL.sound.accounts
    rw [(hL.mine u).exclusive, (hempty u).1] at hpos
    cases hpos
  | waitWrite v =>
    exfalso
    obtain ⟨u, q, x, r, hq, hpush, -⟩ :=
      spin_awaits_push (h.mono fun _ _ _ ↦ trivial) hpc (hwaits hpc)
    rcases hpush with rfl | rfl | rfl <;> exact (hwaits hq).elim
  | lock r v =>
    obtain ⟨⟨read, b, rfl⟩, hw⟩ := hwaits hpc
    refine ⟨read, b, v, rfl, ?_⟩
    have hq := (hP.slot (v.slots, v.target)).queued (fun u ↦ (hrole u).2 _) ⟨t, hw⟩
    obtain ⟨read', a, u, hpos⟩ := (hL.sound.exact _ _).held hq
    have hrec : 0 < c.shared.record ⟨v.slots, v.target, read', a⟩ u := hpos
    rw [(hL.mine u).record, (hempty u).2] at hrec
    refine ⟨u, _, List.count_pos_iff.1 hrec, rfl, ?_⟩
    rintro rfl
    -- the sleeper has no guard of its own making on the slot
    have hno : SerialMutex.NoGuards (c.shared.slot v.slots v.target).lock a :=
      (hmine hpc).knows _ rfl
    exact absurd hpos (hno.record read' u).le.not_gt
  | _ => exact (hwaits hpc).elim

/-- **No deadlock.** While a thread is inside a call, some thread inside a call can go on without
spinning, or the thread sleeps on the mutex of a slot that the program keeps with a guard of another
thread's making. And if the thread spins on a slot, then the push that has reserved this slot is at
one of its remaining accesses and can go on. -/
theorem array_never_stuck (h : Reach (atomicArray ids adaptive) FlagsSurvive (init capacity) c)
    (hpc : c.pcs t = some p) :
    ((∃ u q r, c.pcs u = some q ∧ ¬ q.Spins c.shared ∧
        exec ids adaptive u .go c.shared q = some r) ∨
      ∃ read b v, p = .lock (.slowParked read b) v ∧
        ∃ u, ∃ g ∈ c.shared.guards u,
          (g.storage, g.index) = (v.slots, v.target) ∧ g.acquirer ≠ t) ∧
    ∀ v, p = .waitWrite v → p.Spins c.shared →
      ∃ u q x r, c.pcs u = some q ∧ (q = .pushWrite x v.slots v.target ∨
        q = .pushLen x v.slots v.target ∨ q = .pushState x v.slots v.target) ∧
          exec ids adaptive u .go c.shared q = some r := by
  refine ⟨or_iff_not_imp_left.2 fun hgo ↦ asleep_of_stuck h hpc hgo, ?_⟩
  rintro v rfl hspin
  exact spin_awaits_push (h.mono fun _ _ _ ↦ trivial) hpc hspin

/-! ### A run -/

/-- A sleeper on a slot goes on only when it is woken. -/
theorem exec_eq_none_of_asleep {x : ℕ × ℕ} (hr : slotRole x (some p) = .asleep)
    (hw : t ∈ (s.slot x.1 x.2).lock.wake.waiters) : exec ids adaptive t .go s p = none := by
  have hstep : ∀ {r : SerialMutex.Pc ι}, SerialMutex.role (some r) = .asleep →
      SerialMutex.exec ids adaptive t .go (s.slot x.1 x.2).lock r = none := by
    intro r hr
    have hresume : (s.slot x.1 x.2).lock.wake.resume t .go = none := if_pos hw
    cases r with
    | slowParked read b => simp only [SerialMutex.exec, hresume]
    | _ => cases hr
  cases p with
  | lock r v | unlock r v =>
    rw [slotRole_of_slotOp rfl] at hr
    split_ifs at hr with hx
    subst hx
    simp only [exec, slotStep, hstep hr]
  | dropSlot r g =>
    rw [slotRole_of_slotOp rfl] at hr
    split_ifs at hr with hx
    subst hx
    simp only [exec, slotStep, hstep hr]
  | _ => cases hr

/-- Thread `t` takes a guard, and `u` asks for the same slot. -/
def behindGuard (t u : Fin 2) : List (Label (Fin 2) (Op (Fin 2) ℕ)) :=
  .call t (.push 7) :: List.replicate 8 (.exec t .go) ++ .call t (.get 0) ::
    List.replicate 6 (.exec t .go) ++
    .call u (.getMut 0) :: List.replicate 36 (.exec u .go)

/-- A thread that waits for the guard of another one. -/
theorem array_never_stuck_behind_guard :
    ∃ c p, Reach (atomicArray SerialMutex.twoIds 4) FlagsSurvive
        (init 2 : Config (Fin 2) (Store (Fin 2) ℕ) (Pc (Fin 2) ℕ)) c ∧
      c.pcs 1 = some p ∧ exec SerialMutex.twoIds 4 1 .go c.shared p = none ∧ c.pcs 0 = none ∧
        ∃ u, ∃ g ∈ c.shared.guards u, g.acquirer ≠ 1 := by
  obtain ⟨c, hc, ht⟩ := Reach.exists_of_replay (atomicArray SerialMutex.twoIds 4) FlagsSurvive
    (init 2 : Config (Fin 2) (Store (Fin 2) ℕ) (Pc (Fin 2) ℕ)) (behindGuard 0 1)
    (fun c ↦ decide (slotRole (0, 0) (c.pcs 1) = .asleep ∧
      1 ∈ (c.shared.slot 0 0).lock.wake.waiters) &&
      (c.pcs 0).isNone) (by decide +kernel)
  obtain ⟨hasleep, hout⟩ := Bool.and_eq_true_iff.1 ht
  obtain ⟨hrole, hw⟩ := of_decide_eq_true hasleep
  have hnone := Option.isNone_iff_eq_none.1 hout
  cases hp : c.pcs 1 with
  | none =>
    rw [hp] at hrole
    cases hrole
  | some p =>
    rw [hp] at hrole
    have hstuck : exec SerialMutex.twoIds 4 1 .go c.shared p = none :=
      exec_eq_none_of_asleep hrole hw
    refine ⟨c, p, hc, hp, hstuck, hnone, ?_⟩
    rcases (array_never_stuck hc hp).1 with ⟨u, q, r, hq, -, he⟩ | ⟨read, b, v, -, u, g, hg, -, hne⟩
    · -- the other thread is outside, and this one sleeps
      rcases Fin.exists_fin_two.1 ⟨u, rfl⟩ with rfl | rfl
      · rw [hnone] at hq
        cases hq
      · obtain rfl : p = q := Option.some.inj (hp.symm.trans hq)
        rw [hstuck] at he
        cases he
    · exact ⟨u, g, hg, hne⟩

end AtomicArray

end Crossync
