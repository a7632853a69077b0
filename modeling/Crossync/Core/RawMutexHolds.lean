import Crossync.Core.RawMutexExclusion

/-!
# What a caller of `RawMutex` holds

Code that uses the lock has to know, at each of its own program points, how many acquisitions its
thread owns. Inside a lock operation this depends on one thing only: whether the access that
acquires or gives back has happened yet. `phase` reads that off the lock's program point, and
`exec_holds` says once what an access does to the ownership record and to the phase, so that users
of the lock never unfold its code.

The operations covered are the ones that such users call: `lock_shared`, `try_lock_exclusive` and
the two releases. Program points of the other operations are in phase `other`.

## What a user writes

A program point of a user that is inside a call of the lock carries the lock's program point `p`.
What the thread owns there is what it owned before the call, plus one if `phase p` is past the
acquisition. So the user's invariant has one clause for all its program points inside a call, and
its step is `exec_holds`.

Code that uses the lock through guards, such as `RwLock`, takes the same interface and adds that a
guard is a hold.
-/

open Interleave

namespace Crossync

namespace RawMutex

/-- Where a lock operation stands with respect to its acquisition or release. -/
inductive Phase where
  /-- Inside `lock_shared`, the acquisition still to come. -/
  | acquire
  /-- Before the exchange of `try_lock_exclusive`. -/
  | attempt
  /-- Inside `unlock_shared` or `unlock_exclusive`, the release still to come. -/
  | releaseShared
  | releaseExclusive
  /-- After a release, waking the waiters. -/
  | wake
  | other
  deriving DecidableEq

/-- The phase of a program point. -/
def phase : Pc → Phase
  | .sharedFastLoad true | .sharedFastCas true _ _ | .lockSharedLoad _ | .lockSharedCas _ _ _
  | .lockSharedMark _ _ | .lockSharedKey _ | .lockSharedCheck _ _ | .lockSharedWait _ _
  | .lockSharedParked _ => .acquire
  | .tryLockExclusive => .attempt
  | .unlockShared => .releaseShared
  | .unlockExclusiveFast | .unlockExclusiveLoad | .unlockExclusiveCas _ => .releaseExclusive
  | .bumpWriters | .wakeWriters | .bumpReaders | .wakeReaders => .wake
  | _ => .other

variable {ι : Type*} [DecidableEq ι] {adaptive : ℕ}

/-- Shared acquisitions a call in this phase still has to give back. -/
def Phase.pins : Phase → ℕ
  | .releaseShared => 1
  | _ => 0

/-- Exclusive acquisitions a call in this phase still has to give back. -/
def Phase.seals : Phase → ℕ
  | .releaseExclusive => 1
  | _ => 0

/-- **What an access does to the ownership record**, with the outcome that goes with it. -/
inductive HoldStep (t : ι) (p : Pc) (s s' : Store ι) (o : Outcome Pc Ret) : Prop where
  | stay (p' : Pc) (ho : o = .goto p') (hp : phase p' = phase p) (hs : s'.shared = s.shared)
      (hx : s'.exclusive = s.exclusive)
  | gain (hp : phase p = .acquire) (ho : o = .ret .unit)
      (hs : s'.shared = Function.update s.shared t (s.shared t + 1))
      (hx : s'.exclusive = s.exclusive)
  | won (hp : phase p = .attempt) (ho : o = .ret (.bool true)) (hs : s'.shared = s.shared)
      (hx : s'.exclusive = Function.update s.exclusive t (s.exclusive t + 1))
  | lost (hp : phase p = .attempt) (ho : o = .ret (.bool false)) (hs : s' = s)
  | dropShared (hp : phase p = .releaseShared)
      (ho : o = .ret .unit ∨ ∃ p', o = .goto p' ∧ phase p' = .wake)
      (hs : s'.shared = Function.update s.shared t (s.shared t - 1))
      (hx : s'.exclusive = s.exclusive)
  | dropExclusive (hp : phase p = .releaseExclusive)
      (ho : o = .ret .unit ∨ ∃ p', o = .goto p' ∧ phase p' = .wake) (hs : s'.shared = s.shared)
      (hx : s'.exclusive = Function.update s.exclusive t (s.exclusive t - 1))
  | woke (hp : phase p = .wake) (ho : o = .ret .unit) (hs : s'.shared = s.shared)
      (hx : s'.exclusive = s.exclusive)

omit [DecidableEq ι] in
/-- A release owns what it is about to give back. -/
theorem Knows.pins_le {t : ι} {s : Store ι} {p : Pc} (h : Knows t s p) :
    (phase p).pins ≤ s.shared t ∧ (phase p).seals ≤ s.exclusive t := by
  cases p with
  | unlockShared => exact ⟨h, Nat.zero_le _⟩
  | unlockExclusiveFast | unlockExclusiveLoad | unlockExclusiveCas => exact ⟨Nat.zero_le _, h⟩
  | sharedFastLoad block | sharedFastCas block =>
    cases block <;> exact ⟨Nat.zero_le _, Nat.zero_le _⟩
  | _ => exact ⟨Nat.zero_le _, Nat.zero_le _⟩

namespace HoldStep

variable {t : ι} {p p' : Pc} {s s' : Store ι}

/-- Nothing of another thread moves. -/
theorem other {u : ι} {o : Outcome Pc Ret} (h : HoldStep t p s s' o) (hu : u ≠ t) :
    s'.shared u = s.shared u ∧ s'.exclusive u = s.exclusive u := by
  cases h with
  | lost hp ho hs => exact ⟨hs ▸ rfl, hs ▸ rfl⟩
  | stay _ _ _ hs hx | gain _ _ hs hx | won _ _ hs hx | dropShared _ _ hs hx
  | dropExclusive _ _ hs hx | woke _ _ hs hx =>
    rw [hs, hx]
    simp [hu]

/-- An access after which the operation goes on: the phase is kept, or a release took effect. -/
theorem of_goto (h : HoldStep t p s s' (.goto p')) (hk : Knows t s p) :
    s'.shared t + (phase p).pins = s.shared t + (phase p').pins ∧
      s'.exclusive t + (phase p).seals = s.exclusive t + (phase p').seals ∧
      (phase p' = phase p ∨
        (phase p = .releaseShared ∨ phase p = .releaseExclusive) ∧ phase p' = .wake) := by
  have hle := hk.pins_le
  cases h with
  | stay q ho hp hs hx =>
    cases ho
    exact ⟨by rw [hs, hp], by rw [hx, hp], Or.inl hp⟩
  | dropShared hp ho hs hx =>
    obtain ho | ⟨q, ho, hq⟩ := ho
    · cases ho
    · cases ho
      rw [hp] at hle
      refine ⟨?_, ?_, Or.inr ⟨Or.inl hp, hq⟩⟩
      · rw [hs, Function.update_self, hp, hq]
        exact Nat.sub_add_cancel hle.1
      · rw [hx, hp, hq]
        rfl
  | dropExclusive hp ho hs hx =>
    obtain ho | ⟨q, ho, hq⟩ := ho
    · cases ho
    · cases ho
      rw [hp] at hle
      refine ⟨?_, ?_, Or.inr ⟨Or.inr hp, hq⟩⟩
      · rw [hs, hp, hq]
        rfl
      · rw [hx, Function.update_self, hp, hq]
        exact Nat.sub_add_cancel hle.2
  | gain _ ho | won _ ho | lost _ ho | woke _ ho => cases ho

/-- What an operation that returns has given or taken. -/
def Given (t : ι) (ph : Phase) (s s' : Store ι) (e : Ret) : Prop :=
  match ph with
  | .acquire => s'.shared t = s.shared t + 1 ∧ s'.exclusive t = s.exclusive t
  | .attempt =>
    (e = .bool true ∧ s'.shared t = s.shared t ∧ s'.exclusive t = s.exclusive t + 1) ∨
      (e = .bool false ∧ s'.shared t = s.shared t ∧ s'.exclusive t = s.exclusive t)
  | _ => s'.shared t + ph.pins = s.shared t ∧ s'.exclusive t + ph.seals = s.exclusive t

/-- An access with which the operation returns. -/
theorem of_ret {e : Ret} (h : HoldStep t p s s' (.ret e)) (hk : Knows t s p) :
    Given t (phase p) s s' e := by
  have hle := hk.pins_le
  cases h with
  | stay q ho => cases ho
  | gain hp ho hs hx =>
    rw [hp]
    exact ⟨by rw [hs, Function.update_self], by rw [hx]⟩
  | won hp ho hs hx =>
    cases ho
    rw [hp]
    exact Or.inl ⟨rfl, by rw [hs], by rw [hx, Function.update_self]⟩
  | lost hp ho hs =>
    cases ho
    rw [hp, hs]
    exact Or.inr ⟨rfl, rfl, rfl⟩
  | dropShared hp ho hs hx =>
    rw [hp] at hle ⊢
    exact ⟨by rw [hs, Function.update_self]; exact Nat.sub_add_cancel hle.1, by rw [hx]; rfl⟩
  | dropExclusive hp ho hs hx =>
    rw [hp] at hle ⊢
    exact ⟨by rw [hs]; rfl, by rw [hx, Function.update_self]; exact Nat.sub_add_cancel hle.2⟩
  | woke hp ho hs hx =>
    rw [hp]
    exact ⟨by rw [hs]; rfl, by rw [hx]; rfl⟩

end HoldStep

theorem phase_lockSharedLoop (b : Backoff) (state : Word) :
    phase (lockSharedLoop b state) = .acquire := by
  unfold lockSharedLoop
  split
  · rfl
  · split
    · split <;> rfl
    · rfl

theorem unlockExclusiveWake_phase (state : Word) :
    unlockExclusiveWake state = .ret .unit ∨
      ∃ p', unlockExclusiveWake state = .goto p' ∧ phase p' = .wake := by
  unfold unlockExclusiveWake
  dsimp only
  split
  · exact Or.inr ⟨_, rfl, rfl⟩
  · split
    · exact Or.inr ⟨_, rfl, rfl⟩
    · exact Or.inl rfl

variable [Fintype ι]

/-- **One access, for the users of the lock.** -/
theorem exec_holds {t : ι} {ch : Choice ι} {s s' : Store ι} {p : Pc} {o : Outcome Pc Ret}
    (hp : phase p ≠ .other) (h : exec adaptive t ch s p = some (s', o)) : HoldStep t p s s' o := by
  cases p with
  | sharedFastLoad block =>
    obtain rfl : block = true := by
      cases block
      · exact absurd rfl hp
      · rfl
    simp only [exec] at h
    split at h
    · cases h
      exact .stay _ rfl rfl rfl rfl
    · cases h
      exact .stay _ rfl rfl rfl rfl
  | sharedFastCas block state newState =>
    obtain rfl : block = true := by
      cases block
      · exact absurd rfl hp
      · rfl
    simp only [exec] at h
    split at h
    · cases h
      exact .gain rfl rfl rfl rfl
    · cases h
      exact .stay _ rfl rfl rfl rfl
  | lockSharedLoad b =>
    cases h
    exact .stay _ rfl (phase_lockSharedLoop _ _) rfl rfl
  | lockSharedCas b state newState =>
    simp only [exec] at h
    split at h
    · cases h
      exact .gain rfl rfl rfl rfl
    · cases h
      exact .stay _ rfl rfl rfl rfl
  | lockSharedMark b state =>
    simp only [exec] at h
    split at h <;> cases h <;> exact .stay _ rfl rfl rfl rfl
  | lockSharedKey b =>
    cases h
    exact .stay _ rfl rfl rfl rfl
  | lockSharedCheck b key =>
    simp only [exec] at h
    split at h <;> cases h <;> exact .stay _ rfl rfl rfl rfl
  | lockSharedWait b key =>
    simp only [exec] at h
    split at h <;> cases h <;> exact .stay _ rfl rfl rfl rfl
  | lockSharedParked b =>
    simp only [exec] at h
    split at h
    · cases h
      exact .stay _ rfl rfl rfl rfl
    · cases h
  | tryLockExclusive =>
    simp only [exec] at h
    split at h
    · cases h
      exact .won rfl rfl rfl rfl
    · cases h
      exact .lost rfl rfl rfl
  | unlockShared =>
    simp only [exec, Option.some.injEq, Prod.mk.injEq] at h
    obtain ⟨rfl, rfl⟩ := h
    refine .dropShared rfl ?_ rfl rfl
    split
    · exact Or.inr ⟨_, rfl, rfl⟩
    · exact Or.inl rfl
  | unlockExclusiveFast =>
    simp only [exec] at h
    split at h
    · cases h
      exact .dropExclusive rfl (Or.inl rfl) rfl rfl
    · cases h
      exact .stay _ rfl rfl rfl rfl
  | unlockExclusiveLoad =>
    cases h
    exact .stay _ rfl rfl rfl rfl
  | unlockExclusiveCas state =>
    simp only [exec] at h
    split at h
    · cases h
      exact .dropExclusive rfl (unlockExclusiveWake_phase _) rfl rfl
    · cases h
      exact .stay _ rfl rfl rfl rfl
  | bumpWriters | bumpReaders =>
    cases h
    exact .stay _ rfl rfl rfl rfl
  | wakeWriters | wakeReaders =>
    cases h
    exact .woke rfl rfl rfl rfl
  | _ => exact absurd rfl hp

open Word in
/-- **Writers that only try never park**: none of these operations sets the writers-parked flag. -/
theorem exec_unparked {t : ι} {ch : Choice ι} {s s' : Store ι} {p : Pc} {o : Outcome Pc Ret}
    (hacc : Accounts s) (hk : Knows t s p) (hp : phase p ≠ .other) (hw : wp s.state = false)
    (h : exec adaptive t ch s p = some (s', o)) : wp s'.state = false := by
  have hadmit : ∀ {w}, admitShared s.state = some w → wp w = false := by
    intro w hadm
    obtain ⟨hlt, -, rfl⟩ := admitShared_eq_some_iff.1 hadm
    rw [(count_add_oneReader (by omega)).2.1]
    exact hw
  cases p with
  | sharedFastLoad | lockSharedCheck | lockSharedWait =>
    simp only [exec] at h
    split at h <;> cases h <;> exact hw
  | sharedFastCas block state newState =>
    simp only [exec] at h
    split at h
    · rename_i w hcas
      obtain ⟨rfl, rfl⟩ := cas_eq_ok.1 hcas
      cases h
      exact hadmit hk
    · cases h
      exact hw
  | lockSharedCas b state newState =>
    simp only [exec] at h
    split at h
    · rename_i w hcas
      obtain ⟨rfl, rfl⟩ := casWeak_eq_ok hcas
      cases h
      exact hadmit hk
    · cases h
      exact hw
  | lockSharedMark b state =>
    simp only [exec] at h
    split at h
    · rename_i w hcas
      obtain ⟨rfl, rfl⟩ := casWeak_eq_ok hcas
      cases h
      simp [hw]
    · cases h
      exact hw
  | lockSharedParked b =>
    simp only [exec] at h
    split at h
    · cases h
      exact hw
    · cases h
  | tryLockExclusive =>
    simp only [exec] at h
    split at h
    · rename_i w hcas
      obtain ⟨-, rfl⟩ := cas_eq_ok.1 hcas
      cases h
      exact wp_oneWriter
    · cases h
      exact hw
  | unlockShared =>
    simp only [exec, Option.some.injEq, Prod.mk.injEq] at h
    obtain ⟨rfl, -⟩ := h
    exact (count_sub_oneReader (hacc.count_of_shared hk).1).2.1.trans hw
  | unlockExclusiveFast =>
    simp only [exec] at h
    split at h
    · rename_i w hcas
      obtain ⟨-, rfl⟩ := cas_eq_ok.1 hcas
      cases h
      exact wp_unlocked
    · cases h
      exact hw
  | unlockExclusiveCas state =>
    simp only [exec] at h
    split at h
    · rename_i w hcas
      obtain ⟨rfl, rfl⟩ := casWeak_eq_ok hcas
      cases h
      show wp (unlockExclusiveNext s.state) = false
      unfold unlockExclusiveNext
      dsimp only
      split_ifs
      · simp [hw]
      · exact wp_unlocked
    · cases h
      exact hw
  | lockSharedLoad | lockSharedKey | unlockExclusiveLoad | bumpWriters | wakeWriters | bumpReaders
  | wakeReaders =>
    cases h
    exact hw
  | _ => exact absurd rfl hp

/-- Without parked writers a shared release is one access. -/
theorem exec_unlockShared {t : ι} {ch : Choice ι} {p : Pc} {s s' : Store ι} {o : Outcome Pc Ret}
    (hp : phase p = .releaseShared) (hw : Word.wp s.state = false)
    (h : exec adaptive t ch s p = some (s', o)) : o = .ret .unit := by
  have hp' : p = .unlockShared := by
    cases p with
    | unlockShared => rfl
    | sharedFastLoad b => cases b <;> cases hp
    | sharedFastCas b _ _ => cases b <;> cases hp
    | _ => cases hp
  subst hp'
  simp only [exec, Option.some.injEq, Prod.mk.injEq] at h
  obtain ⟨-, rfl⟩ := h
  rw [if_neg]
  rintro ⟨-, h⟩
  exact h (Word.and_writersParked_eq_zero_iff.2 hw)

/-- **Only a parked reader waits**: every other access of these operations can be performed at
once. -/
theorem exec_eq_none {t : ι} {s : Store ι} {p : Pc} (hp : phase p ≠ .other)
    (h : exec adaptive t .go s p = none) :
    (∃ b, p = .lockSharedParked b) ∧ t ∈ s.readersFutex.waiters := by
  cases p with
  | lockSharedParked b =>
    refine ⟨⟨b, rfl⟩, ?_⟩
    simp only [exec] at h
    split at h
    · cases h
    · rename_i hf
      unfold Futex.resume at hf
      split_ifs at hf with hw
      exact hw
  | sharedFastLoad | sharedFastCas | lockSharedCas | lockSharedMark | lockSharedWait
  | tryLockExclusive
    | unlockExclusiveFast | unlockExclusiveCas =>
    simp only [exec] at h
    split at h <;> cases h
  | lockSharedCheck b key =>
    simp only [exec] at h
    split_ifs at h
  | lockSharedLoad | lockSharedKey | unlockShared | unlockExclusiveLoad | bumpWriters | wakeWriters
  | bumpReaders
    | wakeReaders => cases h
  | _ => exact absurd rfl hp

end RawMutex

end Crossync
