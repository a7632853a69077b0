import Crossync.Interleave.Solo
import Crossync.Core.RawMutexParking

/-!
# `RawMutex` and its parked flags

When nobody holds the lock and nobody is inside a call, the word should be `UNLOCKED`: a parked flag
that is left behind makes every later `try_lock_exclusive` fail. The two flags have different
guarantors.

* `WRITERS_PARKED` is set and cleared on the slow path of `lock_exclusive` alone: it is set by a
  thread that stays there until it acquires, and every acquisition there clears it. So the flag
  always has a thread on that path (`Queued`).
* `READERS_PARKED` is set by a reader that could not be admitted, and what clears it is the
  exclusive release. So it needs a writer, in the lock or queued (`Covered`).

## The two ways to lose the writer

`downgrade` keeps `READERS_PARKED` in the word although it wakes the readers and the writer is gone,
where the exclusive release in its place clears it. And a reader that is refused because the count
field is full sets the flag with no writer in sight. `Abandons` is the guard: the step is one of
these two. In every run without such a step the flags always have their guarantors, and the word of
a lock at rest is clean (`rests_clean`).

## What the results say

* `rests_clean` is about every run in which no step abandons the flag. It is the form in which a
  user of the lock can rely on the flags: the condition speaks of two concrete accesses.
* `rests_with_flag` shows that the condition is needed, with a run that a program can produce by
  locking, downgrading and unlocking.

The writers' flag needs no condition. What the results about it say is used by
`Core.RawMutexWriters`.
-/

open Interleave

namespace Crossync

namespace RawMutex

open Word

variable {ι : Type*} [Fintype ι] [DecidableEq ι] {adaptive : ℕ}

/-- `is_locked`. -/
def isLocked (s : Store ι) : Bool := s.state != unlocked

/-- On the slow path of `lock_exclusive`. -/
def queueing : Option Pc → Bool
  | some .lockExclusiveLoad | some (.lockExclusiveCas _) | some (.lockExclusiveMark _) => true
  | some .lockExclusiveKey | some (.lockExclusiveCheck _) => true
  | some (.lockExclusiveWait _) | some .lockExclusiveParked => true
  | _ => false

/-- The readers-parked flag has a writer to clear it. -/
def Covered (state : Word) : Prop :=
  rp state = true → count state = writerCount ∨ wp state = true

/-- The access sets or keeps the readers-parked flag with no writer left to clear it. -/
def abandons (s : Store ι) : Option Pc → Bool
  | some (.downgradeCas state) => s.state == state && rp state && !wp state
  | some (.lockSharedMark _ state) => s.state == state && !isWriterLocked state && !wp state
  | _ => false

/-- The step is an access that abandons the readers-parked flag. -/
def Abandons (c : Config ι (Store ι) Pc) : Label ι (Op ι) → Prop
  | .call _ _ => False
  | .exec t _ => abandons c.shared (c.pcs t) = true

instance (c : Config ι (Store ι) Pc) (l : Label ι (Op ι)) : Decidable (Abandons c l) :=
  match l with
  | .call _ _ => isFalse id
  | .exec t _ => inferInstanceAs (Decidable (abandons c.shared (c.pcs t) = true))

/-- No step abandons the readers-parked flag. -/
def KeepsCover (c : Config ι (Store ι) Pc) (l : Label ι (Op ι)) : Prop := ¬ Abandons c l

instance (c : Config ι (Store ι) Pc) (l : Label ι (Op ι)) : Decidable (KeepsCover c l) :=
  inferInstanceAs (Decidable (¬ _))

/-! ### What an access does to the flags

The effects again, this time on the two flags. -/

theorem queueing_lockExclusiveLoop (state : Word) :
    queueing (some (lockExclusiveLoop state)) = true := by
  unfold lockExclusiveLoop
  split_ifs <;> rfl

/-- What is asked of an access: a writers-parked flag it leaves has a thread on the slow path, or
had another one before; and a covered readers-parked flag stays covered. -/
structure FlagStep (p : Pc) (s s' : Store ι) (o : Outcome Pc Ret) : Prop where
  queued : wp s'.state = true →
    queueing o.pc = true ∨ wp s.state = true ∧ queueing (some p) = false
  covered : Covered s.state → Covered s'.state

namespace FlagStep

variable {p : Pc} {s s' : Store ι} {o : Outcome Pc Ret}

omit [Fintype ι] [DecidableEq ι] in
/-- An access that leaves the word alone. -/
theorem same (hw : s'.state = s.state) (hq : queueing (some p) = true → queueing o.pc = true) :
    FlagStep p s s' o where
  queued h := by
    rw [hw] at h
    cases hp : queueing (some p) with
    | true => exact Or.inl (hq hp)
    | false => exact Or.inr ⟨h, rfl⟩
  covered h := by
    rw [hw]
    exact h

omit [Fintype ι] [DecidableEq ι] in
/-- An access that leaves a word without a queued writer, and with a holder or no flag. -/
theorem clear (hw : wp s'.state = false)
    (hr : rp s'.state = true → count s'.state = writerCount ∨ (Covered s.state → False)) :
    FlagStep p s s' o where
  queued h := by
    rw [hw] at h
    cases h
  covered h hrp := by
    rcases hr hrp with hc | hn
    · exact Or.inl hc
    · exact absurd h hn

omit [Fintype ι] [DecidableEq ι] in
/-- An access that keeps both flags, with no writer in the lock before. -/
theorem keep (hp : queueing (some p) = false) (hw : wp s'.state = wp s.state)
    (hr : rp s'.state = rp s.state) (hc : count s.state ≠ writerCount) : FlagStep p s s' o where
  queued h := Or.inr ⟨hw ▸ h, hp⟩
  covered h hrp := by
    rw [hr] at hrp
    rcases h hrp with hc' | hw'
    · exact absurd hc' hc
    · rw [hw]
      exact Or.inr hw'

end FlagStep

omit [Fintype ι] in
/-- An admitted reader keeps both flags. -/
theorem flagStep_gainShared {t : ι} {p : Pc} {s : Store ι} {w : Word} {o : Outcome Pc Ret}
    (hp : queueing (some p) = false) (hw : admitShared s.state = some w) :
    FlagStep p s (s.gainShared t w) o := by
  obtain ⟨hlt, -, rfl⟩ := admitShared_eq_some_iff.1 hw
  obtain ⟨-, hw', hr'⟩ := count_add_oneReader (s := s.state) (by omega)
  exact .keep hp hw' hr' (by omega)

omit [Fintype ι] in
/-- An acquisition of the free word, on the fast path. -/
theorem flagStep_acquire {t : ι} {p : Pc} {s : Store ι} {o : Outcome Pc Ret} :
    FlagStep p s (s.gainExclusive t oneWriter) o := by
  refine .clear wp_oneWriter fun hr ↦ ?_
  have hr' : rp oneWriter = true := hr
  rw [rp_oneWriter] at hr'
  cases hr'

theorem exec_flags {t : ι} {ch : Choice ι} {s s' : Store ι} {p : Pc} {o : Outcome Pc Ret}
    (hacc : Accounts s) (hk : Knows t s p) (hok : abandons s (some p) = false)
    (h : exec adaptive t ch s p = some (s', o)) : FlagStep p s s' o := by
  cases p with
  | lockExclusiveFast | tryLockExclusive =>
    simp only [exec] at h
    split at h
    · rename_i w hw
      obtain ⟨-, rfl⟩ := cas_eq_ok.1 hw
      cases h
      exact flagStep_acquire
    · cases h
      exact .same rfl (fun hq ↦ by cases hq)
  | lockExclusiveCas state =>
    simp only [exec] at h
    split at h
    · rename_i w hw
      obtain ⟨hu, rfl⟩ := casWeak_eq_ok hw
      cases h
      refine .clear ?_ fun _ ↦ Or.inl (count_and_readersParked_or_oneWriter _)
      simp [Store.gainExclusive]
    · cases h
      exact .same rfl fun _ ↦ queueing_lockExclusiveLoop _
  | lockExclusiveMark state =>
    simp only [exec] at h
    split at h
    · rename_i w hw
      obtain ⟨hu, rfl⟩ := casWeak_eq_ok hw
      cases h
      exact ⟨fun _ ↦ Or.inl rfl, fun _ _ ↦ Or.inr (by simp)⟩
    · cases h
      exact .same rfl fun _ ↦ queueing_lockExclusiveLoop _
  | lockExclusiveLoad =>
    cases h
    exact .same rfl fun _ ↦ queueing_lockExclusiveLoop _
  | lockExclusiveKey =>
    cases h
    exact .same rfl fun _ ↦ rfl
  | lockExclusiveCheck | lockExclusiveWait | lockExclusiveParked =>
    simp only [exec] at h
    split at h
    all_goals
      cases h
      try exact .same rfl fun _ ↦ rfl
  | unlockExclusiveFast =>
    simp only [exec] at h
    split at h
    · rename_i w hw
      obtain ⟨-, rfl⟩ := cas_eq_ok.1 hw
      cases h
      exact .clear wp_unlocked (fun hr ↦ absurd hr (by simp [Store.dropExclusive]))
    · cases h
      exact .same rfl (fun hq ↦ by cases hq)
  | unlockExclusiveCas state =>
    simp only [exec] at h
    split at h
    · rename_i w hw
      obtain ⟨hu, rfl⟩ := casWeak_eq_ok hw
      subst hu
      cases h
      -- the flags survive together, and only for a queued writer
      obtain ⟨-, hw', hr'⟩ := unlockExclusiveNext_fields s.state
      refine ⟨fun hwp ↦ Or.inr ⟨hw'.symm.trans hwp, rfl⟩, fun _ hrp ↦ Or.inr ?_⟩
      have hboth : (wp s.state && rp s.state) = true := hr'.symm.trans hrp
      exact hw'.trans (Bool.and_eq_true_iff.1 hboth).1
    · cases h
      exact .same rfl (fun hq ↦ by cases hq)
  | sharedFastCas block state newState =>
    simp only [exec] at h
    split at h
    · rename_i w hw
      obtain ⟨rfl, rfl⟩ := cas_eq_ok.1 hw
      cases h
      exact flagStep_gainShared rfl hk
    · cases h
      exact .same rfl (fun hq ↦ by cases hq)
  | tryLockSharedCas state newState | lockSharedCas b state newState =>
    simp only [exec] at h
    split at h
    · rename_i w hw
      obtain ⟨rfl, rfl⟩ := casWeak_eq_ok hw
      cases h
      exact flagStep_gainShared rfl hk
    · cases h
      exact .same rfl (fun hq ↦ by cases hq)
  | lockSharedMark b state =>
    simp only [exec] at h
    split at h
    · rename_i w hw
      obtain ⟨rfl, rfl⟩ := casWeak_eq_ok hw
      cases h
      have hcov : isWriterLocked s.state = true ∨ wp s.state = true := by
        cases hi : isWriterLocked s.state <;> cases hv : wp s.state <;>
          simp [abandons, hi, hv] at hok ⊢
      refine ⟨fun hwp ↦ Or.inr ⟨?_, rfl⟩, fun _ _ ↦ ?_⟩
      · simpa using hwp
      · rw [count_or_readersParked, wp_or, wp_readersParked, Bool.or_false, ← isWriterLocked_iff]
        exact hcov
    · cases h
      exact .same rfl (fun hq ↦ by cases hq)
  | unlockShared =>
    cases h
    obtain ⟨hpos, hlt⟩ := hacc.count_of_shared hk
    obtain ⟨-, hw', hr'⟩ := count_sub_oneReader hpos
    exact .keep rfl hw' hr' (by omega)
  | unlockAllSharedCas state =>
    simp only [exec] at h
    split at h
    · rename_i w hw
      obtain ⟨rfl, rfl⟩ := cas_eq_ok.1 hw
      split at h
      · cases h
        obtain ⟨-, hw', hr'⟩ := count_sub_readers s.state
        rw [← readersCount_eq hk] at hw' hr'
        exact .keep rfl hw' hr' hk
      · cases h
    · cases h
      exact .same rfl (fun hq ↦ by cases hq)
  | downgradeCas state =>
    simp only [exec] at h
    split at h
    · rename_i w hw
      obtain ⟨rfl, rfl⟩ := cas_eq_ok.1 hw
      cases h
      obtain ⟨-, hw', hr'⟩ := count_downgrade s.state
      refine ⟨fun hwp ↦ Or.inr ⟨hw'.symm.trans hwp, rfl⟩, fun _ hrp ↦ Or.inr ?_⟩
      have hrp' : rp s.state = true := hr'.symm.trans hrp
      have hwp : wp s.state = true := by
        simpa [abandons, hrp'] using hok
      exact hw'.trans hwp
    · cases h
      exact .same rfl (fun hq ↦ by cases hq)
  | unlockExclusiveLoad | sharedFastLoad | tryLockSharedLoad | lockSharedLoad | lockSharedKey
  | lockSharedCheck | lockSharedWait | lockSharedParked | unlockAllSharedLoad | downgradeLoad
  | bumpWriters | wakeWriters | bumpReaders | wakeReaders =>
    simp only [exec] at h
    repeat' split at h
    all_goals
      cases h
      try exact .same rfl (fun hq ↦ by cases hq)

/-! ### Runs

A flag in the word has a thread behind it. -/

/-- A writers-parked flag has a thread on the slow path of `lock_exclusive`. -/
def Queued (c : Config ι (Store ι) Pc) : Prop :=
  wp c.shared.state = true → ∃ t, queueing (c.pcs t) = true

/-- **The flags have their guarantors** along every run that abandons none. -/
theorem reach_flags {c : Config ι (Store ι) Pc} (h : Reach (rawMutex adaptive) KeepsCover init c) :
    Queued c ∧ Covered c.shared.state := by
  refine h.invariant (I := fun c ↦ Queued c ∧ Covered c.shared.state) ?_ ?_ ?_
  · exact ⟨fun hw ↦ absurd hw (by simp [init, Store.new]),
      fun hr ↦ absurd hr (by simp [init, Store.new])⟩
  · rintro c t op ⟨s', o⟩ - ⟨hq, hcov⟩ - hpc he
    obtain ⟨hw, -⟩ := enter_spec he
    refine ⟨fun hwp ↦ ?_, ?_⟩
    · rw [Config.put_shared, hw] at hwp
      obtain ⟨u, hu⟩ := hq hwp
      have hut : u ≠ t := by
        rintro rfl
        rw [hpc] at hu
        cases hu
      exact ⟨u, by rwa [Config.put_pcs_of_ne _ _ hut]⟩
    · rw [Config.put_shared, hw]
      exact hcov
  · rintro c t ch p ⟨s', o⟩ hc ⟨hq, hcov⟩ hok hpc he
    obtain ⟨hacc, hk⟩ := reach_accounts hc
    have hok' : abandons c.shared (some p) = false := by
      rw [← hpc]
      exact Bool.eq_false_iff.2 hok
    have hstep := exec_flags hacc (hk t p hpc) hok' he
    refine ⟨fun hwp ↦ ?_, hstep.covered hcov⟩
    rcases hstep.queued hwp with ho | ⟨hw, hp⟩
    · exact ⟨t, by rwa [Config.put_pcs_self]⟩
    · obtain ⟨u, hu⟩ := hq hw
      have hut : u ≠ t := by
        rintro rfl
        rw [hpc, hp] at hu
        cases hu
      exact ⟨u, by rwa [Config.put_pcs_of_ne _ _ hut]⟩

/-- Nobody holds an acquisition and nobody is inside a call. -/
def AtRest (c : Config ι (Store ι) Pc) : Prop :=
  c.Quiet ∧ tally c.shared.shared = 0 ∧ tally c.shared.exclusive = 0

instance (c : Config ι (Store ι) Pc) : Decidable (AtRest c) :=
  inferInstanceAs (Decidable ((∀ t, c.pcs t = none) ∧ _ ∧ _))

/-- `try_lock_exclusive` takes a clean word. -/
theorem tryLockExclusive_unlocked {s : Store ι} (hs : s.state = unlocked) (t : ι) :
    (rawMutex adaptive).Returns t 1 (fun _ r ↦ r = .bool true) (s, .goto .tryLockExclusive) := by
  refine .step fun ch ↦ ⟨(s.gainExclusive t oneWriter, .ret (.bool true)), ?_, .ret rfl⟩
  simp only [rawMutex, exec, hs, cas, if_pos]

/-- `try_lock_shared` takes a clean word. -/
theorem tryLockShared_unlocked {s : Store ι} (hs : s.state = unlocked) (t : ι) :
    (rawMutex adaptive).Returns t 2 (fun _ r ↦ r = .bool true)
      (s, .goto (.sharedFastLoad false)) := by
  have hadm : admitShared s.state = some (s.state + oneReader) := by
    rw [hs]
    decide
  refine .step fun ch ↦ ⟨(s, .goto (.sharedFastCas false s.state (s.state + oneReader))), ?_, ?_⟩
  · simp only [rawMutex, exec, hadm]
  · refine .step fun ch ↦ ⟨(s.gainShared t (s.state + oneReader), .ret (.bool true)), ?_, .ret rfl⟩
    simp only [rawMutex, exec, cas, if_pos, sharedDone]
    rfl

/-- The lock is clean: the word is `UNLOCKED`, `is_locked` says no, and a try of either kind, run
alone, succeeds. -/
def Clean (adaptive : ℕ) (s : Store ι) : Prop :=
  s.state = unlocked ∧ isLocked s = false ∧
    ∀ t, (∃ x, enter t .tryLockExclusive s = some x ∧
        (rawMutex adaptive).Returns t 1 (fun _ r ↦ r = .bool true) x) ∧
      ∃ x, enter t .tryLockShared s = some x ∧
        (rawMutex adaptive).Returns t 2 (fun _ r ↦ r = .bool true) x

/-- **A lock at rest is clean**, in every run in which no step abandons the readers-parked flag. -/
theorem rests_clean {c : Config ι (Store ι) Pc} (h : Reach (rawMutex adaptive) KeepsCover init c)
    (hrest : AtRest c) : Clean adaptive c.shared := by
  obtain ⟨hq, hcov⟩ := reach_flags h
  obtain ⟨hquiet, hshared, hexcl⟩ := hrest
  have hcount : count c.shared.state = 0 := by
    rcases (reach_accounts h).1 with ⟨he, -, -⟩ | ⟨-, hs, -⟩ <;> omega
  have hwp : wp c.shared.state = false := by
    rw [Bool.eq_false_iff]
    intro hw
    obtain ⟨t, ht⟩ := hq hw
    rw [hquiet t] at ht
    cases ht
  have hrp : rp c.shared.state = false := by
    rw [Bool.eq_false_iff]
    intro hr
    rcases hcov hr with hc | hw
    · rw [hcount] at hc
      exact absurd hc (by decide)
    · rw [hwp] at hw
      cases hw
  have hs : c.shared.state = unlocked := eq_unlocked_iff.2 ⟨hcount, hwp, hrp⟩
  refine ⟨hs, ?_, fun t ↦ ⟨⟨_, rfl, tryLockExclusive_unlocked hs t⟩,
    ⟨_, rfl, tryLockShared_unlocked hs t⟩⟩⟩
  rw [isLocked, hs]
  rfl

/-! ### A flag left behind

Thread `1` parks behind the writer `0`, which downgrades and releases its shared acquisition. The
woken reader takes and releases its own. Nobody is left, and the readers-parked flag still is. -/

/-- The schedule that leaves the flag, with `w` the writer and `r` the reader. -/
def abandoningSchedule {ι : Type*} (w r : ι) : List (Label ι (Op ι)) :=
  .call w .tryLockExclusive :: steps w 1 ++
  -- the reader runs its backoff out, marks and sleeps
  .call r .lockShared :: steps r 19 ++
  -- load, exchange, bump, wake
  .call w .downgrade :: steps w 4 ++
  .call w .unlockShared :: steps w 1 ++
  -- resume, load, acquire
  steps r 3 ++
  .call r .unlockShared :: steps r 1

/-- **A lock at rest can carry a flag**, and `try_lock_exclusive` then fails. -/
theorem rests_with_flag :
    ∃ c, Reach (rawMutex 4) Always (init : Config (Fin 2) (Store (Fin 2)) Pc) c ∧ AtRest c ∧
      c.shared.state = readersParked ∧ isLocked c.shared = true ∧
      ((rawMutex 4).solo 0 [.go] (c.shared, .goto .tryLockExclusive)).map Prod.snd =
        some (.bool false) ∧
      ¬ Clean 4 c.shared := by
  obtain ⟨c, hc, ht⟩ := Reach.exists_of_replay (rawMutex 4) Always
    (init : Config (Fin 2) (Store (Fin 2)) Pc) (abandoningSchedule 0 1)
    (fun c ↦ decide (AtRest c ∧ c.shared.state = readersParked ∧ isLocked c.shared = true ∧
      ((rawMutex 4).solo 0 [.go] (c.shared, .goto .tryLockExclusive)).map Prod.snd =
        some (.bool false))) (by decide)
  obtain ⟨hrest, hs, hl, htry⟩ := of_decide_eq_true ht
  refine ⟨c, hc, hrest, hs, hl, htry, fun hclean ↦ ?_⟩
  exact absurd (hs.symm.trans hclean.1) (by decide)

/-- A run with a parked reader and an exclusive release in place of the downgrade. -/
theorem rests_clean_released :
    ∃ c, Reach (rawMutex 4) KeepsCover (init : Config (Fin 2) (Store (Fin 2)) Pc) c ∧
      c.shared.readersFutex.value = 1 ∧ Clean 4 c.shared := by
  obtain ⟨c, hc, ht⟩ := Reach.exists_of_replay (rawMutex 4) KeepsCover
    (init : Config (Fin 2) (Store (Fin 2)) Pc)
    (.call 0 .tryLockExclusive :: steps 0 1 ++ .call 1 .lockShared :: steps 1 19 ++
      .call 0 .unlockExclusive :: steps 0 5 ++ steps 1 3 ++ .call 1 .unlockShared :: steps 1 1)
    (fun c ↦ decide (AtRest c ∧ c.shared.readersFutex.value = 1)) (by decide)
  obtain ⟨hrest, hv⟩ := of_decide_eq_true ht
  exact ⟨c, hc, hv, rests_clean hc hrest⟩

end RawMutex

end Crossync
