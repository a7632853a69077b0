import Crossync.Core.SerialExact

/-!
# What a caller of `SerialMutex` holds

The counterpart for the owner-tagged lock of what `RawMutexHolds` says about the reader-writer lock:
`phase` tells whether the access that acquires or releases has happened yet, and `exec_holds` what
one access does to the record of live guards. The record of one kind of guard is `Store.record
read`.

## For whom

The slots of `AtomicArray` and of the map are protected by this lock, and their guards are handed to
callers and dropped anywhere. The interface is the one of `Core.RawMutexHolds` with a record that
tells the acquirer from the holder. When an acquisition takes effect and when it panics is part of
it, since `Atomic` makes its verdict of a call back out of the two.
-/

open Interleave

namespace Crossync

namespace SerialMutex

/-- Where a lock operation stands with respect to its acquisition or release. -/
inductive Phase (ι : Type*) where
  /-- Inside `lock`, the acquisition still to come. -/
  | acquire (read : Bool)
  /-- Before the exchange of `try_write_guard`. -/
  | attempt
  /-- Inside a release of a guard that `acquirer` acquired, the release still to come. -/
  | release (read : Bool) (acquirer : ι)
  /-- After a release, waking the waiters. -/
  | wake
  deriving DecidableEq

/-- The phase of a program point. -/
def phase {ι : Type*} : Pc ι → Phase ι
  | .lockFast read | .slowSequence read _ | .slowLoad read _ _ | .slowCas read _ _ _
  | .slowRegister read _ _ _ | .slowWait read _ _ | .slowParked read _ => .acquire read
  | .tryWriteGuard => .attempt
  | .unlockReadFast a | .unlockReadCas a _ => .release true a
  | .unlockWrite a => .release false a
  | .notifyBump | .notifyWake => .wake

variable {ι : Type*} [DecidableEq ι]

/-- The live guards of one kind, by acquiring thread and by holding thread. -/
def Store.record (s : Store ι) (read : Bool) : ι → ι → ℕ := if read then s.reads else s.writes

/-- The record of one kind moves at one acquirer and one holder, the other kind does not. -/
structure Moves (s s' : Store ι) (read : Bool) (a h : ι) (n : ℕ) : Prop where
  this : s'.record read = setShare (s.record read) a h n
  other : s'.record (!read) = s.record (!read)

/-- No record moves. -/
structure Keeps (s s' : Store ι) : Prop where
  reads : s'.reads = s.reads
  writes : s'.writes = s.writes

omit [DecidableEq ι] in
theorem Keeps.record {s s' : Store ι} (h : Keeps s s') (read : Bool) :
    s'.record read = s.record read := by
  cases read
  · exact h.writes
  · exact h.reads

/-- **What an access does to the record of live guards**, with the outcome that goes with it. -/
inductive HoldStep (ids : OwnerIds ι) (t : ι) (p : Pc ι) (s s' : Store ι)
    (o : Outcome (Pc ι) Ret) : Prop where
  | stay (p' : Pc ι) (ho : o = .goto p') (hp : phase p' = phase p) (hk : Keeps s s')
  | gain (read : Bool) (hp : phase p = .acquire read) (ho : o = .ret (.token (ids.id t)))
      (hm : Moves s s' read t t (s.record read t t + 1))
  | refused (read : Bool) (hp : phase p = .acquire read)
      (ho : o = .ret .conflict ∨ o = .ret .overflow) (hs : s' = s)
  | won (hp : phase p = .attempt) (ho : o = .ret (.acquired true))
      (hm : Moves s s' false t t (s.record false t t + 1))
  | lost (hp : phase p = .attempt) (ho : o = .ret (.acquired false)) (hs : s' = s)
  | drop (read : Bool) (a : ι) (hp : phase p = .release read a)
      (ho : o = .ret .unit ∨ ∃ p', o = .goto p' ∧ phase p' = .wake)
      (hm : Moves s s' read a t (s.record read a t - 1))
  | broken (read : Bool) (a : ι) (hp : phase p = .release read a) (ho : o = .ret .inconsistent)
  | woke (hp : phase p = .wake) (ho : o = .ret .unit) (hk : Keeps s s')

variable {ids : OwnerIds ι} {adaptive : ℕ}

/-- The record of a kind after a move. -/
theorem Moves.record_eq {s s' : Store ι} {read : Bool} {a h : ι} {n : ℕ}
    (hm : Moves s s' read a h n) (r : Bool) (b u : ι) :
    s'.record r b u = if r = read ∧ b = a ∧ u = h then n else s.record r b u := by
  by_cases hr : r = read
  · subst hr
    rw [hm.this]
    by_cases hb : b = a
    · subst hb
      by_cases hu : u = h
      · subst hu
        simp [setShare]
      · simp [setShare, hu]
    · rw [setShare_of_ne _ _ _ hb]
      simp [hb]
  · have : r = !read := by
      cases r <;> cases read <;> simp_all
    subst this
    rw [hm.other]
    simp [hr]

/-- Nothing that another thread holds moves. -/
theorem HoldStep.other {t u : ι} {p : Pc ι} {s s' : Store ι} {o : Outcome (Pc ι) Ret}
    (h : HoldStep ids t p s s' o) (ho : o ≠ .ret .inconsistent) (hu : u ≠ t) (read : Bool) (a : ι) :
    s'.record read a u = s.record read a u := by
  cases h with
  | stay _ _ _ hk | woke _ _ hk => rw [hk.record]
  | gain _ _ _ hm | won _ _ hm | drop _ _ _ _ hm => rw [hm.record_eq, if_neg (by simp [hu])]
  | refused _ _ _ hs | lost _ _ hs => rw [hs]
  | broken _ _ _ hbroken => exact absurd hbroken ho

theorem moves_gain (s : Store ι) (t : ι) (read : Bool) (w : SerialWord.Word) :
    Moves s (gain t read s w) read t t (s.record read t t + 1) := by
  cases read
  · exact ⟨rfl, rfl⟩
  · exact ⟨rfl, rfl⟩

omit [DecidableEq ι] in
/-- The test of `lock_slow` keeps asking, or panics. -/
theorem slowLoop_phase (t : ι) (read : Bool) (b : Backoff) (sequence : ℕ)
    (state : SerialWord.Word) :
    (∃ p', slowLoop ids t read b sequence state = .goto p' ∧ phase p' = .acquire read) ∨
      slowLoop ids t read b sequence state = .ret .conflict ∨
      slowLoop ids t read b sequence state = .ret .overflow := by
  unfold slowLoop
  split_ifs
  · exact Or.inl ⟨_, rfl, rfl⟩
  · exact Or.inl ⟨_, rfl, rfl⟩
  · exact Or.inr (Or.inr rfl)
  · exact Or.inr (Or.inl rfl)
  · exact Or.inl ⟨_, rfl, rfl⟩
  · exact Or.inl ⟨_, rfl, rfl⟩

omit [DecidableEq ι] in
/-- The check of `unlock_read` goes on to its exchange, or panics. -/
theorem unlockReadLoop_phase (a : ι) (state : SerialWord.Word) :
    (∃ p', unlockReadLoop a state = .goto p' ∧ phase p' = .release true a) ∨
      unlockReadLoop a state = .ret .inconsistent := by
  unfold unlockReadLoop
  split_ifs
  · exact Or.inl ⟨_, rfl, rfl⟩
  · exact Or.inr rfl

theorem holdStep_unlockReadLoop {t : ι} {p : Pc ι} {s : Store ι} (a : ι)
    (hp : phase p = .release true a) (state : SerialWord.Word) :
    HoldStep ids t p s s (unlockReadLoop a state) := by
  obtain ⟨p', ho, hp'⟩ | ho := unlockReadLoop_phase a state
  · exact .stay p' ho (hp'.trans hp.symm) ⟨rfl, rfl⟩
  · exact .broken true a hp ho

/-- **One access, for the users of the lock.** -/
theorem exec_holds {t : ι} {ch : Choice ι} {s s' : Store ι} {p : Pc ι} {o : Outcome (Pc ι) Ret}
    (h : exec ids adaptive t ch s p = some (s', o)) : HoldStep ids t p s s' o := by
  cases p with
  | lockFast read =>
    simp only [exec] at h
    split at h
    · cases h
      exact .gain read rfl rfl (moves_gain s t read _)
    · cases h
      exact .stay _ rfl rfl ⟨rfl, rfl⟩
  | slowSequence read b =>
    cases h
    exact .stay _ rfl rfl ⟨rfl, rfl⟩
  | slowLoad read b sequence =>
    simp only [exec, Option.some.injEq, Prod.mk.injEq] at h
    obtain ⟨rfl, rfl⟩ := h
    obtain ⟨p', ho, hp'⟩ | ho := @slowLoop_phase _ ids t read b sequence s.state
    · exact .stay p' ho hp' ⟨rfl, rfl⟩
    · exact .refused read rfl ho rfl
  | slowCas read b state next =>
    simp only [exec] at h
    split at h
    · cases h
      exact .gain read rfl rfl (moves_gain s t read _)
    · cases h
      exact .stay _ rfl rfl ⟨rfl, rfl⟩
  | slowRegister read b sequence state =>
    simp only [exec] at h
    split at h <;> cases h <;> exact .stay _ rfl rfl ⟨rfl, rfl⟩
  | slowWait read b sequence =>
    simp only [exec] at h
    split at h <;> cases h <;> exact .stay _ rfl rfl ⟨rfl, rfl⟩
  | slowParked read b =>
    simp only [exec] at h
    split at h
    · cases h
      exact .stay _ rfl rfl ⟨rfl, rfl⟩
    · cases h
  | tryWriteGuard =>
    simp only [exec] at h
    split at h
    · cases h
      exact .won rfl rfl ⟨rfl, rfl⟩
    · cases h
      exact .lost rfl rfl rfl
  | unlockReadFast a =>
    simp only [exec] at h
    split at h
    · cases h
      exact .drop true a rfl (Or.inl rfl) ⟨rfl, rfl⟩
    · simp only [Option.some.injEq, Prod.mk.injEq] at h
      obtain ⟨rfl, rfl⟩ := h
      exact holdStep_unlockReadLoop a rfl _
  | unlockReadCas a state =>
    simp only [exec] at h
    split at h
    · simp only [Option.some.injEq, Prod.mk.injEq] at h
      obtain ⟨rfl, rfl⟩ := h
      refine .drop true a rfl ?_ ⟨rfl, rfl⟩
      split_ifs
      · exact Or.inr ⟨_, rfl, rfl⟩
      · exact Or.inl rfl
    · simp only [Option.some.injEq, Prod.mk.injEq] at h
      obtain ⟨rfl, rfl⟩ := h
      exact holdStep_unlockReadLoop a rfl _
  | unlockWrite a =>
    simp only [exec, Option.some.injEq, Prod.mk.injEq] at h
    obtain ⟨rfl, rfl⟩ := h
    by_cases hflag : s.state &&& SerialWord.writeFlag = 0
    · rw [if_pos hflag]
      exact .broken false a rfl rfl
    · rw [if_neg hflag]
      refine .drop false a rfl ?_ ⟨rfl, rfl⟩
      split_ifs
      · exact Or.inr ⟨_, rfl, rfl⟩
      · exact Or.inl rfl
  | notifyBump =>
    cases h
    exact .stay _ rfl rfl ⟨rfl, rfl⟩
  | notifyWake =>
    cases h
    exact .woke rfl rfl ⟨rfl, rfl⟩

/-- **When an acquisition takes effect**: the lock is free, or the caller reads already and asks to
read, and the count has room. -/
theorem exec_token [Fintype ι] {t : ι} {ch : Choice ι} {s s' : Store ι} {p : Pc ι} {read : Bool}
    {x : BitVec 32} (hk : Knows ids t s p) (hp : phase p = .acquire read)
    (h : exec ids adaptive t ch s p = some (s', .ret (.token x))) :
    s.state = 0 ∨ (read = true ∧ SerialWord.own s.state = (ids.id t).toNat ∧
      SerialWord.writing s.state = false ∧ SerialWord.readers s.state ≠ 2 ^ 30 - 1) := by
  cases p with
  | lockFast r =>
    simp only [exec] at h
    split at h
    · rename_i w hw
      exact Or.inl (cas_eq_ok.1 hw).1
    · cases h
  | slowCas r b state next =>
    simp only [exec] at h
    split at h
    · rename_i w hw
      obtain ⟨rfl, -⟩ := casWeak_eq_ok hw
      cases hp
      rcases hk with ⟨hz, -⟩ | ⟨hr, hown, hwr, hmax, -⟩
      · exact Or.inl hz
      · exact Or.inr ⟨hr, hown, hwr, hmax⟩
    · cases h
  | slowLoad r b sequence =>
    simp only [exec, Option.some.injEq, Prod.mk.injEq] at h
    obtain ⟨p', ho, -⟩ | ho | ho := @slowLoop_phase _ ids t r b sequence s.state
    all_goals
      rw [ho] at h
      cases h.2
  | slowSequence => cases h
  | slowRegister | slowWait | slowParked =>
    simp only [exec] at h
    split at h <;> cases h
  | _ => cases hp

/-- **When an acquisition panics**: the caller has a guard already, and does not both read and ask
to read with room in the count. -/
theorem exec_refused {t : ι} {ch : Choice ι} {s s' : Store ι} {p : Pc ι} {read : Bool} {e : Ret}
    (hp : phase p = .acquire read) (he : e = .conflict ∨ e = .overflow)
    (h : exec ids adaptive t ch s p = some (s', .ret e)) :
    s' = s ∧ SerialWord.own s.state = (ids.id t).toNat ∧
      ¬ (read = true ∧ SerialWord.writing s.state = false ∧
        SerialWord.readers s.state ≠ 2 ^ 30 - 1) := by
  cases p with
  | slowLoad r b sequence =>
    cases hp
    simp only [exec, Option.some.injEq, Prod.mk.injEq] at h
    obtain ⟨hs, ho⟩ := h
    unfold slowLoop at ho
    split_ifs at ho with hz hown hread hcount
    · -- the count is full
      refine ⟨hs.symm, SerialWord.and_ownerMask_eq_iff.1 hown, fun hc ↦ hc.2.2 ?_⟩
      exact SerialWord.and_countMask_eq_countMask_iff.1 (not_not.1 hcount)
    · refine ⟨hs.symm, SerialWord.and_ownerMask_eq_iff.1 hown, fun hc ↦ hread ⟨hc.1, ?_⟩⟩
      exact SerialWord.and_writeFlag_eq_zero_iff.2 hc.2.1
  | lockFast | slowCas =>
    simp only [exec] at h
    split at h
    · cases h
      rcases he with he | he <;> cases he
    · cases h
  | slowSequence => cases h
  | slowRegister | slowWait | slowParked =>
    simp only [exec] at h
    split at h <;> cases h
  | _ => cases hp

/-- **Only a sleeper waits**: every other access can be performed at once. -/
theorem exec_eq_none {t : ι} {ch : Choice ι} {s : Store ι} {p : Pc ι}
    (h : exec ids adaptive t ch s p = none) :
    (∃ read b, p = .slowParked read b) ∧ t ∈ s.wake.waiters := by
  cases p with
  | slowParked read b =>
    refine ⟨⟨read, b, rfl⟩, ?_⟩
    simp only [exec] at h
    split at h
    · cases h
    · rename_i hf
      unfold Futex.resume at hf
      split at hf
      · cases hf
      · split_ifs at hf with hw
        exact hw
  | slowSequence | slowLoad | unlockWrite | notifyBump | notifyWake => cases h
  | lockFast | slowCas | slowRegister | slowWait | tryWriteGuard | unlockReadFast | unlockReadCas =>
    simp only [exec] at h
    split at h <;> cases h

/-- A guard handed to another thread: one unit of its record changes holders. -/
theorem enter_send {t u a : ι} {read : Bool} {s s' : Store ι} {o : Outcome (Pc ι) Ret}
    (h : enter t (if read then .sendRead a u else .sendWrite a u) s = some (s', o)) :
    0 < s.record read a t ∧ u ≠ t ∧ ∀ r b v, s'.record r b v =
      if r = read ∧ b = a then transfer (s.record read a) t u v else s.record r b v := by
  have hupd : ∀ (f : ι → ι → ℕ) b v, Function.update f a (transfer (f a) t u) b v =
      if b = a then transfer (f a) t u v else f b v := by
    intro f b v
    by_cases hb : b = a
    · subst hb
      simp
    · simp [hb]
  cases read with
  | true =>
    simp only [if_true, enter] at h
    split_ifs at h with hpos
    cases h
    refine ⟨hpos.1, hpos.2, fun r b v ↦ ?_⟩
    cases r
    · rfl
    · refine (hupd s.reads b v).trans ?_
      simp [Store.record]
  | false =>
    simp only [Bool.false_eq_true, if_false, enter] at h
    split_ifs at h with hpos
    cases h
    refine ⟨hpos.1, hpos.2, fun r b v ↦ ?_⟩
    cases r
    · refine (hupd s.writes b v).trans ?_
      simp [Store.record]
    · rfl

/-- Somebody has the lock while the word carries the waiter flag. -/
theorem Exact.held [Fintype ι] {s : Store ι} (hE : Exact ids s)
    (hq : SerialWord.waiting s.state = true) :
    ∃ read a u, 0 < s.record read a u := by
  by_contra hnone
  have hzero : ∀ read a u, s.record read a u = 0 := fun read a u ↦
    Nat.eq_zero_of_not_pos fun hpos ↦ hnone ⟨read, a, u, hpos⟩
  have hr : liveReads s = 0 := tally_eq_zero_iff.2 fun a ↦ tally_eq_zero_iff.2 fun u ↦
    hzero true a u
  have hx : liveWrites s = 0 :=
    tally_eq_zero_iff.2 fun a ↦ tally_eq_zero_iff.2 fun u ↦ hzero false a u
  rw [hE.decodes.zero_iff.2 ⟨hr, hx⟩, SerialWord.waiting_zero] at hq
  cases hq

omit [DecidableEq ι] in
/-- A thread without guards on the lock has none on its record. -/
theorem NoGuards.record [Fintype ι] {s : Store ι} {t : ι} (h : NoGuards s t) (read : Bool) (u : ι) :
    s.record read t u = 0 := by
  cases read
  · exact tally_eq_zero_iff.1 h.2 u
  · exact tally_eq_zero_iff.1 h.1 u

end SerialMutex

end Crossync
