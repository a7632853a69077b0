import Crossync.Core.RawMutex

/-!
# Exclusion and exact accounting of `RawMutex`

Exclusion is not proved of the program points but of the word. The invariant is `Accounts`: the
count field is the number of shared acquisitions, or it is the writer pattern while exactly one
acquisition is exclusive and none is shared. Two holders that exclude each other would need two
values of the field at once.

## The three steps of the argument

1. `WordStep` lists the effects an access can have on the word together with the tallies, and
   `exec_word` sorts every access of the code into the list. What the flags do is not part of it.
2. `Knows` is what a thread relies on between two accesses: a release has its acquisition until the
   access that gives it back. No step of another thread takes it away (`Foreign`).
3. Each effect keeps `Accounts`, by the arithmetic of the count field in `Core.StateWord`.

The panics of the source are outcomes here. That a release on a lock that is not held fails its
assertion, and that a release by a holder does not, is read off `Accounts` at the access that checks
it.
-/

open Interleave

namespace Crossync

namespace RawMutex

open Word

variable {ι : Type*} [Fintype ι] [DecidableEq ι] {adaptive : ℕ}

/-! ### What one access does to the word

Every access of the code has one of a few effects on the word and the tallies. This is the only
place where the program points are gone through; what follows argues about the effects. -/

/-- **What one access can do to the word and to the ownership record**, with the outcome that goes
with it. Everything else an access does happens to the futexes or to the thread's locals. -/
inductive WordStep (t : ι) (s s' : Store ι) (o : Outcome Pc Ret) : Prop where
  | same (hw : s'.state = s.state) (hs : s'.shared = s.shared) (he : s'.exclusive = s.exclusive)
  | markWriters (hheld : 0 < count s.state) (hw : s'.state = s.state ||| writersParked)
      (hs : s'.shared = s.shared) (he : s'.exclusive = s.exclusive)
  | markReaders (hw : s'.state = s.state ||| readersParked)
      (hs : s'.shared = s.shared) (he : s'.exclusive = s.exclusive)
  | gainShared (w : Word) (hw : admitShared s.state = some w) (hs : s' = s.gainShared t w)
  | gainExclusive (hfree : count s.state = 0)
      (hs : s' = s.gainExclusive t ((s.state &&& readersParked) ||| oneWriter))
  | dropExclusive (hown : 0 < s.exclusive t)
      (hs : s' = s.dropExclusive t (unlockExclusiveNext s.state))
      (ho : o = unlockExclusiveWake s.state)
  | dropShared (hown : 0 < s.shared t) (hs : s' = s.dropShared t (s.state - oneReader))
      (ho : o = if readersCount s.state = 1 ∧ s.state &&& writersParked ≠ 0 then
        .goto .bumpWriters else .ret .unit)
  | dropAll (hcount : count s.state ≠ writerCount) (hown : ∀ u, u ≠ t → s.shared u = 0)
      (hs : s' = { s with
        state := s.state - oneReader * BitVec.ofNat 64 (count s.state)
        shared := Function.update s.shared t 0 })
      (ho : o = if s.state &&& writersParked ≠ 0 then .goto .bumpWriters else .ret .unit)
  | downgrade (hown : 0 < s.exclusive t)
      (hs : s' = (s.dropExclusive t ((s.state &&& ~~~oneWriter) + oneReader)).gainShared t
        ((s.state &&& ~~~oneWriter) + oneReader))
      (ho : o = if s.state &&& readersParked ≠ 0 then .goto .bumpReaders else .ret .unit)

/-- What a thread knows at a program point: a snapshot it is about to exchange passed the test that
led there, and a release still owns what it is about to give back. -/
def Knows (t : ι) (s : Store ι) : Pc → Prop
  | .lockExclusiveCas state => count state = 0
  | .lockExclusiveMark state => 0 < count state
  | .sharedFastCas _ state newState => admitShared state = some newState
  | .tryLockSharedCas state newState => admitShared state = some newState
  | .lockSharedCas _ state newState => admitShared state = some newState
  | .unlockExclusiveFast | .unlockExclusiveLoad | .unlockExclusiveCas _ => 0 < s.exclusive t
  | .downgradeLoad | .downgradeCas _ => 0 < s.exclusive t
  | .unlockShared => 0 < s.shared t
  | .unlockAllSharedCas state => count state ≠ writerCount
  | _ => True

/-- **The word step lemma**: every access does one of these things to the word. -/
theorem exec_word {t : ι} {ch : Choice ι} {s s' : Store ι} {p : Pc} {o : Outcome Pc Ret}
    (hk : Knows t s p) (h : exec adaptive t ch s p = some (s', o)) : WordStep t s s' o := by
  cases p with
  | lockExclusiveFast =>
    simp only [exec] at h
    split at h
    · rename_i w hw
      obtain ⟨hu, rfl⟩ := cas_eq_ok.1 hw
      cases h
      refine .gainExclusive (by rw [hu]; rfl) ?_
      rw [hu]
      rfl
    · cases h
      exact .same rfl rfl rfl
  | lockExclusiveCas state =>
    simp only [exec] at h
    split at h
    · rename_i w hw
      obtain ⟨hu, rfl⟩ := casWeak_eq_ok hw
      subst hu
      cases h
      exact .gainExclusive hk rfl
    · cases h
      exact .same rfl rfl rfl
  | lockExclusiveMark state =>
    simp only [exec] at h
    split at h
    · rename_i w hw
      obtain ⟨hu, rfl⟩ := casWeak_eq_ok hw
      subst hu
      cases h
      exact .markWriters hk rfl rfl rfl
    · cases h
      exact .same rfl rfl rfl
  | tryLockExclusive =>
    simp only [exec] at h
    split at h
    · rename_i w hw
      obtain ⟨hu, rfl⟩ := cas_eq_ok.1 hw
      cases h
      refine .gainExclusive (by rw [hu]; rfl) ?_
      rw [hu]
      rfl
    · cases h
      exact .same rfl rfl rfl
  | unlockExclusiveFast =>
    simp only [exec] at h
    split at h
    · rename_i w hw
      obtain ⟨hu, rfl⟩ := cas_eq_ok.1 hw
      cases h
      refine .dropExclusive hk ?_ ?_
      · rw [hu]
        rfl
      · rw [hu]
        rfl
    · cases h
      exact .same rfl rfl rfl
  | unlockExclusiveCas state =>
    simp only [exec] at h
    split at h
    · rename_i w hw
      obtain ⟨hu, rfl⟩ := casWeak_eq_ok hw
      subst hu
      cases h
      exact .dropExclusive hk rfl rfl
    · cases h
      exact .same rfl rfl rfl
  | sharedFastCas block state newState =>
    simp only [exec] at h
    split at h
    · rename_i w hw
      obtain ⟨hu, rfl⟩ := cas_eq_ok.1 hw
      subst hu
      cases h
      exact .gainShared _ hk rfl
    · cases h
      exact .same rfl rfl rfl
  | tryLockSharedCas state newState | lockSharedCas b state newState =>
    simp only [exec] at h
    split at h
    · rename_i w hw
      obtain ⟨hu, rfl⟩ := casWeak_eq_ok hw
      subst hu
      cases h
      exact .gainShared _ hk rfl
    · cases h
      exact .same rfl rfl rfl
  | lockSharedMark b state =>
    simp only [exec] at h
    split at h
    · rename_i w hw
      obtain ⟨hu, rfl⟩ := casWeak_eq_ok hw
      subst hu
      cases h
      exact .markReaders rfl rfl rfl
    · cases h
      exact .same rfl rfl rfl
  | unlockShared =>
    simp only [exec] at h
    cases h
    exact .dropShared hk rfl rfl
  | unlockAllSharedCas state =>
    simp only [exec] at h
    split at h
    · rename_i w hw
      obtain ⟨hu, rfl⟩ := cas_eq_ok.1 hw
      subst hu
      split at h
      · rename_i hown
        have hcount := readersCount_eq hk
        obtain ⟨hzero, -, -⟩ := count_sub_readers s.state
        cases h
        refine .dropAll hk hown (by rw [hcount]) ?_
        rw [hcount, readersCount_eq (by rw [hzero]; decide), hzero]
        simp
      · cases h
    · cases h
      exact .same rfl rfl rfl
  | downgradeCas state =>
    simp only [exec] at h
    split at h
    · rename_i w hw
      obtain ⟨hu, rfl⟩ := cas_eq_ok.1 hw
      subst hu
      cases h
      exact .downgrade hk rfl rfl
    · cases h
      exact .same rfl rfl rfl
  | lockExclusiveLoad | lockExclusiveKey | lockExclusiveCheck | lockExclusiveWait
  | lockExclusiveParked | unlockExclusiveLoad | sharedFastLoad | tryLockSharedLoad
  | lockSharedLoad | lockSharedKey | lockSharedCheck | lockSharedWait | lockSharedParked
  | unlockAllSharedLoad | downgradeLoad | bumpWriters | wakeWriters | bumpReaders | wakeReaders =>
    simp only [exec] at h
    repeat' split at h
    all_goals
      cases h
      try exact .same rfl rfl rfl

/-! ### What a thread knows survives

A thread relies on the holds it has itself, and no step of another thread takes them away. -/

omit [Fintype ι] [DecidableEq ι] in
/-- The knowledge of a thread depends on the store only through what the thread owns, and other
threads can only add to that. -/
theorem Knows.mono {t : ι} {s s' : Store ι} {p : Pc} (h : Knows t s p)
    (hs : s.shared t ≤ s'.shared t) (he : s.exclusive t ≤ s'.exclusive t) : Knows t s' p := by
  cases p <;> first
    | exact h
    | exact Nat.lt_of_lt_of_le h he
    | exact Nat.lt_of_lt_of_le h hs

omit [Fintype ι] in
/-- A step of `t` takes nothing away from another thread. -/
theorem WordStep.shares_le {t u : ι} {s s' : Store ι} {o : Outcome Pc Ret}
    (h : WordStep t s s' o) (hu : u ≠ t) :
    s.shared u ≤ s'.shared u ∧ s.exclusive u ≤ s'.exclusive u := by
  cases h with
  | same hw hs he => exact ⟨hs ▸ le_rfl, he ▸ le_rfl⟩
  | markWriters hheld hw hs he => exact ⟨hs ▸ le_rfl, he ▸ le_rfl⟩
  | markReaders hw hs he => exact ⟨hs ▸ le_rfl, he ▸ le_rfl⟩
  | gainShared w hw hs | gainExclusive hfree hs | dropExclusive hown hs ho
  | dropShared hown hs ho | dropAll hcount hown hs ho | downgrade hown hs ho =>
    subst hs
    simp [Store.gainShared, Store.gainExclusive, Store.dropExclusive, Store.dropShared, hu]

omit [Fintype ι] [DecidableEq ι] in
theorem knows_lockExclusiveLoop (t : ι) (s : Store ι) (state : Word) :
    Knows t s (lockExclusiveLoop state) := by
  unfold lockExclusiveLoop
  split_ifs with h₁ h₂
  · exact and_oneWriter_eq_zero_iff.1 h₁
  · exact Nat.pos_of_ne_zero fun h ↦ h₁ (and_oneWriter_eq_zero_iff.2 h)
  · trivial

omit [Fintype ι] [DecidableEq ι] in
theorem knows_tryLockSharedLoop (t : ι) (s : Store ι) (state : Word) :
    ∀ p, (tryLockSharedLoop state).pc = some p → Knows t s p := by
  intro p hp
  unfold tryLockSharedLoop at hp
  split at hp
  · cases hp
    assumption
  · cases hp

omit [Fintype ι] [DecidableEq ι] in
theorem knows_lockSharedLoop (t : ι) (s : Store ι) (b : Backoff) (state : Word) :
    Knows t s (lockSharedLoop b state) := by
  unfold lockSharedLoop
  split
  · assumption
  · split_ifs <;> trivial

omit [Fintype ι] [DecidableEq ι] in
/-- What follows a failed fast path relies on nothing. -/
theorem knows_sharedFastFailed (t : ι) (s : Store ι) (block : Bool) :
    Knows t s (sharedFastFailed adaptive block) := by
  unfold sharedFastFailed
  split_ifs <;> trivial

/-- Whom an exclusive release wakes: parked writers first, else parked readers. -/
theorem unlockExclusiveWake_eq (state : Word) :
    unlockExclusiveWake state =
      if wp state then .goto .bumpWriters
      else if rp state then .goto .bumpReaders else .ret .unit := by
  have hw : (state &&& (readersParked ||| writersParked)) &&& writersParked = 0 ↔
      wp state = false := by
    rw [and_writersParked_eq_zero_iff]
    simp
  have hr : (state &&& (readersParked ||| writersParked)) &&& readersParked = 0 ↔
      rp state = false := by
    rw [and_readersParked_eq_zero_iff]
    simp
  simp only [unlockExclusiveWake, ne_eq, hw, hr]
  cases wp state <;> cases rp state <;> simp

/-- The word an exclusive release leaves: no holder; the flags survive only for a parked writer. -/
theorem unlockExclusiveNext_fields (state : Word) :
    count (unlockExclusiveNext state) = 0 ∧ wp (unlockExclusiveNext state) = wp state ∧
      rp (unlockExclusiveNext state) = (wp state && rp state) := by
  have hw : (state &&& (readersParked ||| writersParked)) &&& writersParked = 0 ↔
      wp state = false := by
    rw [and_writersParked_eq_zero_iff]
    simp
  simp only [unlockExclusiveNext, ne_eq, hw]
  cases h : wp state <;> simp [h]

omit [Fintype ι] [DecidableEq ι] in
/-- The release goes on with what it read from the word. -/
theorem knows_unlockExclusiveWake (t : ι) (s : Store ι) (state : Word) :
    ∀ p, (unlockExclusiveWake state).pc = some p → Knows t s p := by
  intro p hp
  rw [unlockExclusiveWake_eq] at hp
  split_ifs at hp <;> cases hp <;> trivial

/-- A thread that performs an access knows what its next program point asks for. -/
theorem exec_knows {t : ι} {ch : Choice ι} {s s' : Store ι} {p p' : Pc} {o : Outcome Pc Ret}
    (hk : Knows t s p) (h : exec adaptive t ch s p = some (s', o)) (hp' : o.pc = some p') :
    Knows t s' p' := by
  cases p with
  | lockExclusiveLoad | lockExclusiveCas | lockExclusiveMark =>
    simp only [exec] at h
    repeat' split at h
    all_goals cases h
    all_goals cases hp'
    all_goals first
      | exact knows_lockExclusiveLoop _ _ _
      | trivial
  | unlockExclusiveFast | unlockExclusiveLoad =>
    simp only [exec] at h
    repeat' split at h
    all_goals cases h
    all_goals cases hp'
    all_goals exact hk
  | unlockExclusiveCas =>
    simp only [exec] at h
    split at h
    · cases h
      exact knows_unlockExclusiveWake _ _ _ _ hp'
    · cases h
      cases hp'
      exact hk
  | tryLockSharedLoad | tryLockSharedCas =>
    simp only [exec] at h
    repeat' split at h
    all_goals cases h
    all_goals first
      | exact knows_tryLockSharedLoop _ _ _ _ hp'
      | cases hp'
  | lockSharedLoad | lockSharedCas | lockSharedMark =>
    simp only [exec] at h
    repeat' split at h
    all_goals cases h
    all_goals cases hp'
    all_goals first
      | exact knows_lockSharedLoop _ _ _ _
      | trivial
  | sharedFastLoad | sharedFastCas =>
    simp only [exec] at h
    repeat' split at h
    all_goals cases h
    all_goals cases hp'
    all_goals first
      | exact knows_sharedFastFailed _ _ _
      | assumption
  | unlockAllSharedLoad =>
    simp only [exec] at h
    split_ifs at h with hz
    · cases h
      cases hp'
    · cases h
      cases hp'
      exact fun hc ↦ hz (readersCount_eq_zero_of_writer hc)
  | downgradeLoad | downgradeCas =>
    simp only [exec] at h
    repeat' split at h
    all_goals cases h
    all_goals cases hp'
    all_goals first
      | exact hk
      | trivial
  | lockExclusiveFast | lockExclusiveKey | lockExclusiveCheck | lockExclusiveWait
  | lockExclusiveParked | tryLockExclusive | lockSharedKey | lockSharedCheck | lockSharedWait
  | lockSharedParked | unlockShared | unlockAllSharedCas | bumpWriters | wakeWriters | bumpReaders
  | wakeReaders =>
    simp only [exec] at h
    repeat' split at h
    all_goals cases h
    all_goals cases hp'
    all_goals trivial

/-! ### How each effect moves the account

The count field of the word equals the number of shares, or is the writer pattern while one thread
holds the lock exclusively. One lemma for each effect. -/

/-- **The word counts the acquisitions.** Either one exclusive acquisition is out, the count field
holds the writer pattern and nothing is shared; or none is, and the count field is the number of
shared acquisitions, below the writer pattern. -/
def Accounts (s : Store ι) : Prop :=
  (tally s.exclusive = 1 ∧ tally s.shared = 0 ∧ count s.state = writerCount) ∨
  (tally s.exclusive = 0 ∧ tally s.shared = count s.state ∧ count s.state < writerCount)

omit [DecidableEq ι] in
/-- A held shared acquisition is counted. -/
theorem Accounts.count_of_shared {s : Store ι} (h : Accounts s) {t : ι} (ht : 0 < s.shared t) :
    0 < count s.state ∧ count s.state < writerCount := by
  have hle := le_tally s.shared t
  unfold Accounts at h
  omega

omit [DecidableEq ι] in
/-- A word with the same count field has the same account. -/
theorem Accounts.of_count_eq {s s' : Store ι} (h : Accounts s)
    (hw : count s'.state = count s.state) (hs : s'.shared = s.shared)
    (he : s'.exclusive = s.exclusive) : Accounts s' := by
  unfold Accounts at *
  rw [hw, hs, he]
  exact h

/-- Admitting a reader keeps the account: the word has room for it and no writer. -/
theorem Accounts.gainShared {s : Store ι} (h : Accounts s) (t : ι) {w : Word}
    (hw : admitShared s.state = some w) : Accounts (s.gainShared t w) := by
  obtain ⟨hlt, -, rfl⟩ := admitShared_eq_some_iff.1 hw
  obtain ⟨hc, -, -⟩ := count_add_oneReader (s := s.state) (by omega)
  have ht := tally_update s.shared t (s.shared t + 1)
  unfold Accounts Store.gainShared at *
  dsimp only
  omega

/-- Admitting a writer to a word without holders keeps the account. -/
theorem Accounts.gainExclusive {s : Store ι} (h : Accounts s) (t : ι) {w : Word}
    (hfree : count s.state = 0) (hw : count w = writerCount) : Accounts (s.gainExclusive t w) := by
  have ht := tally_update s.exclusive t (s.exclusive t + 1)
  have hpos : 0 < writerCount := by decide
  unfold Accounts Store.gainExclusive at *
  dsimp only
  omega

/-- The release of the writer keeps the account. -/
theorem Accounts.dropExclusive {s : Store ι} (h : Accounts s) {t : ι} (ht : 0 < s.exclusive t)
    {w : Word} (hw : count w = 0) : Accounts (s.dropExclusive t w) := by
  have hu := tally_update s.exclusive t (s.exclusive t - 1)
  have hle := le_tally s.exclusive t
  have hpos : 0 < writerCount := by decide
  unfold Accounts Store.dropExclusive at *
  dsimp only
  omega

/-- The release of one reader keeps the account. -/
theorem Accounts.dropShared {s : Store ι} (h : Accounts s) {t : ι} (ht : 0 < s.shared t) :
    Accounts (s.dropShared t (s.state - oneReader)) := by
  obtain ⟨hpos, -⟩ := h.count_of_shared ht
  obtain ⟨hc, -, -⟩ := count_sub_oneReader hpos
  have hu := tally_update s.shared t (s.shared t - 1)
  have hle := le_tally s.shared t
  unfold Accounts Store.dropShared at *
  dsimp only
  omega

/-- `unlock_all_shared` keeps the account when no other thread has a share. -/
theorem Accounts.dropAll {s : Store ι} (h : Accounts s) {t : ι}
    (hcount : count s.state ≠ writerCount) (hown : ∀ u, u ≠ t → s.shared u = 0) {w : Word}
    (hw : count w = 0) :
    Accounts { s with state := w, shared := Function.update s.shared t 0 } := by
  have hu := tally_update s.shared t 0
  have ht := tally_eq_of_forall_ne hown
  have hpos : 0 < writerCount := by decide
  unfold Accounts at *
  dsimp only
  omega

/-- A downgrade keeps the account: the writer becomes one reader. -/
theorem Accounts.downgrade {s : Store ι} (h : Accounts s) {t : ι} (ht : 0 < s.exclusive t)
    {w : Word} (hw : count w = 1) : Accounts ((s.dropExclusive t w).gainShared t w) := by
  have hu := tally_update s.exclusive t (s.exclusive t - 1)
  have hs := tally_update s.shared t (s.shared t + 1)
  have hle := le_tally s.exclusive t
  have hpos : 1 < writerCount := by decide
  unfold Accounts Store.gainShared Store.dropExclusive at *
  dsimp only
  omega

/-- Every access keeps the account. -/
theorem Accounts.step {t : ι} {s s' : Store ι} {o : Outcome Pc Ret} (h : Accounts s)
    (hw : WordStep t s s' o) : Accounts s' := by
  cases hw with
  | same hw hs he => exact h.of_count_eq (by rw [hw]) hs he
  | markWriters hheld hw hs he => exact h.of_count_eq (by rw [hw, count_or_writersParked]) hs he
  | markReaders hw hs he => exact h.of_count_eq (by rw [hw, count_or_readersParked]) hs he
  | gainShared w hw hs => exact hs ▸ h.gainShared t hw
  | gainExclusive hfree hs =>
    exact hs ▸ h.gainExclusive t hfree (count_and_readersParked_or_oneWriter _)
  | dropExclusive hown hs ho =>
    exact hs ▸ h.dropExclusive hown (unlockExclusiveNext_fields _).1
  | dropShared hown hs ho => exact hs ▸ h.dropShared hown
  | dropAll hcount hown hs ho => exact hs ▸ h.dropAll hcount hown (count_sub_readers _).1
  | downgrade hown hs ho => exact hs ▸ h.downgrade hown (count_downgrade _).1

/-- Starting a call, or handing a guard to another thread, changes no word and no total. -/
theorem enter_spec {t : ι} {op : Op ι} {s s' : Store ι} {o : Outcome Pc Ret}
    (h : enter t op s = some (s', o)) :
    s'.state = s.state ∧ s'.readersFutex = s.readersFutex ∧ s'.writersFutex = s.writersFutex ∧
      tally s'.shared = tally s.shared ∧ tally s'.exclusive = tally s.exclusive ∧
      (∀ p, o.pc = some p → s' = s ∧ Knows t s p) ∧
      ∀ u, u ≠ t → s.shared u ≤ s'.shared u ∧ s.exclusive u ≤ s'.exclusive u := by
  cases op with
  | sendShared u =>
    simp only [enter] at h
    split_ifs at h with hu
    cases h
    refine ⟨rfl, rfl, rfl, tally_transfer hu.1 hu.2, rfl, by simp, fun v hv ↦ ⟨?_, le_rfl⟩⟩
    exact le_transfer s.shared hv
  | sendExclusive u =>
    simp only [enter] at h
    split_ifs at h with hu
    cases h
    refine ⟨rfl, rfl, rfl, rfl, tally_transfer hu.1 hu.2, by simp, fun v hv ↦ ⟨le_rfl, ?_⟩⟩
    exact le_transfer s.exclusive hv
  | _ =>
    simp only [enter] at h
    repeat' split at h
    all_goals cases h
    all_goals refine ⟨rfl, rfl, rfl, rfl, rfl, ?_, fun v _ ↦ ⟨le_rfl, le_rfl⟩⟩
    all_goals
      intro p hp
      cases hp
      refine ⟨rfl, ?_⟩
      trivial

omit [DecidableEq ι] in
/-- A new lock has nobody to account for. -/
theorem accounts_new : Accounts (.new : Store ι) :=
  Or.inr ⟨tally_zero, tally_zero.trans count_unlocked.symm,
    (by decide : count unlocked < writerCount)⟩

/-- **The account and every thread's knowledge hold in every reachable configuration.** -/
theorem reach_accounts {ok : Config ι (Store ι) Pc → Label ι (Op ι) → Prop}
    {c : Config ι (Store ι) Pc} (h : Reach (rawMutex adaptive) ok init c) :
    Accounts c.shared ∧ ∀ t p, c.pcs t = some p → Knows t c.shared p := by
  refine h.invariant_local (G := Accounts) (L := Knows) ?_ (fun t p hp ↦ by cases hp) ?_ ?_
  · exact accounts_new
  · intro t op s s' o hacc he
    obtain ⟨hw, -, -, hs, hx, hp, hother⟩ := enter_spec he
    refine ⟨?_, fun p hpc ↦ ?_, fun u q hut hq ↦ hq.mono (hother u hut).1 (hother u hut).2⟩
    · unfold Accounts at *
      rw [hw, hs, hx]
      exact hacc
    · obtain ⟨rfl, hk⟩ := hp p hpc
      exact hk
  · intro t ch s p s' o hacc hk he
    have hstep := exec_word hk he
    exact ⟨hacc.step hstep, fun p' hp' ↦ exec_knows hk he hp', fun u q hut hq ↦
      hq.mono (hstep.shares_le hut).1 (hstep.shares_le hut).2⟩

/-! ### The record follows the calls

The tallies are a ghost of the model. A call that reports a hold has put it on record, a release has
taken it off, and a call that reports none has left the record alone. -/

/-- What a call does to the record of the acquisitions. -/
inductive Duty where
  | acquire (shared : Bool)
  | release (shared : Bool)
  | releaseAll
  | downgrade
  deriving DecidableEq

/-- The duty that a call at a program point still has to do; after it the call only wakes others. -/
def duty : Pc → Option Duty
  | .lockExclusiveFast | .lockExclusiveLoad | .lockExclusiveCas _ | .lockExclusiveMark _
  | .lockExclusiveKey | .lockExclusiveCheck _ | .lockExclusiveWait _ | .lockExclusiveParked
  | .tryLockExclusive => some (.acquire false)
  | .sharedFastLoad _ | .sharedFastCas _ _ _ | .tryLockSharedLoad | .tryLockSharedCas _ _
  | .lockSharedLoad _ | .lockSharedCas _ _ _ | .lockSharedMark _ _ | .lockSharedKey _
  | .lockSharedCheck _ _ | .lockSharedWait _ _ | .lockSharedParked _ => some (.acquire true)
  | .unlockShared => some (.release true)
  | .unlockExclusiveFast | .unlockExclusiveLoad | .unlockExclusiveCas _ => some (.release false)
  | .unlockAllSharedLoad | .unlockAllSharedCas _ => some .releaseAll
  | .downgradeLoad | .downgradeCas _ => some .downgrade
  | .bumpWriters | .wakeWriters | .bumpReaders | .wakeReaders => none

/-- The shared and the exclusive acquisitions after a duty of thread `t`. -/
def Duty.effect (t : ι) (k : Duty) (_ : Outcome Pc Ret) (l : (ι → ℕ) × (ι → ℕ)) :
    (ι → ℕ) × (ι → ℕ) :=
  match k with
  | .acquire true => (Function.update l.1 t (l.1 t + 1), l.2)
  | .acquire false => (l.1, Function.update l.2 t (l.2 t + 1))
  | .release true => (Function.update l.1 t (l.1 t - 1), l.2)
  | .release false => (l.1, Function.update l.2 t (l.2 t - 1))
  | .releaseAll => (Function.update l.1 t 0, l.2)
  | .downgrade => (Function.update l.1 t (l.1 t + 1), Function.update l.2 t (l.2 t - 1))

/-- Only a `try` that returns `false` leaves its duty undone. -/
def Duty.Reports (_ : Duty) (r : Ret) : Prop := r ≠ .bool false

/-- The acquisitions outstanding. -/
def Store.holdings (s : Store ι) : (ι → ℕ) × (ι → ℕ) := (s.shared, s.exclusive)

theorem duty_lockExclusiveLoop (state : Word) :
    duty (lockExclusiveLoop state) = some (.acquire false) := by
  unfold lockExclusiveLoop
  split_ifs <;> rfl

theorem duty_lockSharedLoop (b : Backoff) (state : Word) :
    duty (lockSharedLoop b state) = some (.acquire true) := by
  unfold lockSharedLoop
  repeat' split
  all_goals rfl

/-- What follows a failed fast path is to end with a share. -/
theorem duty_sharedFastFailed (block : Bool) :
    duty (sharedFastFailed adaptive block) = some (.acquire true) := by
  cases block <;> rfl

/-- **The record follows the calls.** The only fact it needs is that a word without readers means
that the caller of `unlock_all_shared` has none. -/
theorem exec_follows {t : ι} {ch : Choice ι} {s s' : Store ι} {p : Pc} {o : Outcome Pc Ret}
    (hzero : readersCount s.state = 0 → s.shared t = 0)
    (he : exec adaptive t ch s p = some (s', o)) :
    Follows duty (Duty.effect t) Duty.Reports p s.holdings s'.holdings o := by
  have hloop : ∀ state, p = .tryLockSharedLoad ∨ (∃ a b, p = .tryLockSharedCas a b) →
      Follows duty (Duty.effect t) Duty.Reports p s.holdings s.holdings
        (tryLockSharedLoop state) := by
    intro state hp
    have hduty : duty p = some (.acquire true) := by rcases hp with rfl | ⟨a, b, rfl⟩ <;> rfl
    unfold tryLockSharedLoop
    split
    · exact .stay hduty.symm
    · exact .refused hduty fun hr ↦ hr rfl
  cases p with
  | lockExclusiveLoad =>
    cases he
    exact .stay (duty_lockExclusiveLoop _)
  | lockExclusiveFast =>
    simp only [exec] at he
    split at he <;> cases he
    · exact .finish rfl (by simp [Duty.Reports]) rfl
    · exact .stay rfl
  | lockExclusiveCas state =>
    simp only [exec] at he
    split at he <;> cases he
    · exact .finish rfl (by simp [Duty.Reports]) rfl
    · exact .stay (duty_lockExclusiveLoop _)
  | lockExclusiveMark state =>
    simp only [exec] at he
    split at he <;> cases he
    · exact .stay rfl
    · exact .stay (duty_lockExclusiveLoop _)
  | tryLockExclusive =>
    simp only [exec] at he
    split at he <;> cases he
    · exact .finish rfl (by simp [Duty.Reports]) rfl
    · exact .refused rfl fun hr ↦ hr rfl
  | sharedFastLoad block =>
    simp only [exec] at he
    split at he <;> cases he
    · exact .stay rfl
    · exact .stay (duty_sharedFastFailed block)
  | sharedFastCas block state newState =>
    simp only [exec] at he
    split at he <;> cases he
    · exact .finish rfl (by cases block <;> simp [Duty.Reports, sharedDone]) rfl
    · exact .stay (duty_sharedFastFailed block)
  | tryLockSharedLoad =>
    cases he
    exact hloop _ (Or.inl rfl)
  | tryLockSharedCas state newState =>
    simp only [exec] at he
    split at he <;> cases he
    · exact .finish rfl (by simp [Duty.Reports]) rfl
    · exact hloop _ (Or.inr ⟨_, _, rfl⟩)
  | lockSharedLoad b =>
    cases he
    exact .stay (duty_lockSharedLoop b _)
  | lockSharedCas b state newState =>
    simp only [exec] at he
    split at he <;> cases he
    · exact .finish rfl (by simp [Duty.Reports]) rfl
    · exact .stay rfl
  | unlockExclusiveFast =>
    simp only [exec] at he
    split at he <;> cases he
    · exact .finish rfl (by simp [Duty.Reports]) rfl
    · exact .stay rfl
  | unlockExclusiveCas state =>
    simp only [exec] at he
    split at he <;> cases he
    · unfold unlockExclusiveWake
      dsimp only
      split_ifs
      · exact .proceed rfl rfl rfl
      · exact .proceed rfl rfl rfl
      · exact .finish rfl (by simp [Duty.Reports]) rfl
    · exact .stay rfl
  | unlockShared =>
    cases he
    split_ifs
    · exact .proceed rfl rfl rfl
    · exact .finish rfl (by simp [Duty.Reports]) rfl
  | unlockAllSharedLoad =>
    simp only [exec] at he
    split_ifs at he with h <;> cases he
    · refine .finish (k := .releaseAll) rfl (by simp [Duty.Reports]) ?_
      rw [Duty.effect, Store.holdings, ← hzero h, Function.update_eq_self]
    · exact .stay rfl
  | unlockAllSharedCas state =>
    simp only [exec] at he
    split at he
    · split_ifs at he <;> cases he
      · exact .proceed rfl rfl rfl
      · exact .finish rfl (by simp [Duty.Reports]) rfl
    · cases he
      exact .stay rfl
  | downgradeCas state =>
    simp only [exec] at he
    split at he <;> cases he
    · split_ifs
      · exact .proceed rfl rfl rfl
      · exact .finish rfl (by simp [Duty.Reports]) rfl
    · exact .stay rfl
  | wakeWriters | wakeReaders =>
    cases he
    exact .over rfl
  | _ =>
    simp only [exec] at he
    repeat' split at he
    all_goals cases he
    all_goals exact .stay rfl

/-- **Mutual exclusion with exact accounting.** In every reachable configuration the word shows a
writer exactly when one exclusive acquisition is outstanding, and then none is shared; otherwise the
reader count is the number of shared acquisitions outstanding, however many there are. What is
outstanding is what the calls say: an acquisition is recorded by the access at which its call
returns having succeeded, and taken off the record by the one access of a release that gives it
back. -/
theorem exclusion_and_accounting {c : Config ι (Store ι) Pc}
    (h : Reach (rawMutex adaptive) Always init c) :
    (isWriterLocked c.shared.state = true ↔ tally c.shared.exclusive = 1) ∧
    (isWriterLocked c.shared.state = true → tally c.shared.shared = 0) ∧
    (isWriterLocked c.shared.state = false →
      tally c.shared.exclusive = 0 ∧ readersCount c.shared.state = tally c.shared.shared) ∧
    (∀ t ch p s' o, c.pcs t = some p → exec adaptive t ch c.shared p = some (s', o) →
      Follows duty (Duty.effect t) Duty.Reports p c.shared.holdings s'.holdings o) := by
  obtain ⟨hacc, -⟩ := reach_accounts h
  have hzero : readersCount c.shared.state = 0 → tally c.shared.shared = 0 := by
    intro hr
    rcases hacc with ⟨-, hs, -⟩ | ⟨-, hs, hc⟩
    · exact hs
    · rwa [hs, ← readersCount_eq (by omega)]
  refine ⟨?_, ?_, ?_, fun t ch p s' o _ he ↦
    exec_follows (fun hr ↦ tally_eq_zero_iff.1 (hzero hr) t) he⟩
  · rcases hacc with ⟨he, hs, hc⟩ | ⟨he, hs, hc⟩
    · simp [isWriterLocked_iff.2 hc, he]
    · have hw : ¬ isWriterLocked c.shared.state = true := fun hw ↦ by
        rw [isWriterLocked_iff] at hw
        omega
      simp [hw, he]
  · intro hw
    rw [isWriterLocked_iff] at hw
    rcases hacc with ⟨-, hs, -⟩ | ⟨-, -, hc⟩ <;> omega
  · intro hw
    have hne : count c.shared.state ≠ writerCount := fun hc ↦ by
      rw [isWriterLocked_iff.2 hc] at hw
      cases hw
    rcases hacc with ⟨-, -, hc⟩ | ⟨he, hs, -⟩
    · exact absurd hc hne
    · exact ⟨he, by rw [readersCount_eq hne, hs]⟩

/-- Two readers hold the lock. -/
theorem exclusion_and_accounting_two_readers :
    ∃ c, Reach (rawMutex 4) Always (init : Config (Fin 2) (Store (Fin 2)) Pc) c ∧
      tally c.shared.shared = 2 ∧ tally c.shared.exclusive = 0 := by
  obtain ⟨c, hc, ht⟩ := Reach.exists_of_replay (rawMutex 4) Always
    (init : Config (Fin 2) (Store (Fin 2)) Pc)
    [.call 0 .lockShared, .call 1 .tryLockShared, .exec 0 .go, .exec 0 .go, .exec 1 .go,
      .exec 1 .go]
    (fun c ↦ decide (isWriterLocked c.shared.state = false ∧ readersCount c.shared.state = 2))
    (by decide)
  obtain ⟨hw, hr⟩ := of_decide_eq_true ht
  obtain ⟨he, hs⟩ := (exclusion_and_accounting hc).2.2.1 hw
  exact ⟨c, hc, by omega, he⟩

end RawMutex

end Crossync
