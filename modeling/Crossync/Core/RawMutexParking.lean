import Crossync.Interleave.Parking
import Crossync.Core.RawMutexExclusion

/-!
# Parking in `RawMutex`

The two futexes of the lock are two instances of the pattern in `Interleave.Parking`. For each of
them a program point has a role (`writerRole`, `readerRole`), a word has or has not a cover, and
every access is one of the steps of the pattern. A call that is on one futex is silent on the other.

## Why only the writers are safe without a condition

The cover of a parked writer is the writers-parked flag in a held word. It is set by the thread that
is about to sleep and cleared by the acquisition of a writer alone, and whoever releases a word that
carries it bumps and wakes.

The cover of a parked reader is the readers-parked flag. An exclusive release clears it, and bumps;
a reader that set the flag before that release and reads the sequence word after it is keyed on the
new value with no flag behind it. Its recheck looks for a writer and not for its own flag.
`FlagSurvives` is the condition that this does not happen, `no_stranded_reader` is what holds under
it, and the last section has the schedule that it excludes.
-/

open Interleave

namespace Crossync

namespace RawMutex

open Word

variable {ι : Type*} [Fintype ι] [DecidableEq ι] {adaptive : ℕ}

/-! ### Roles on the two futexes

Which program points are about which futex. -/

/-- What a thread owes or expects of `writers_futex`. -/
def writerRole : Option Pc → Role
  | some (.lockExclusiveCheck key) => .keyed key
  | some (.lockExclusiveWait key) => .armed key
  | some .lockExclusiveParked => .asleep
  | some .bumpWriters => .bump
  | some .wakeWriters => .wake
  | _ => .out

/-- What a thread owes or expects of `readers_futex`. -/
def readerRole : Option Pc → Role
  | some (.lockSharedCheck _ key) => .keyed key
  | some (.lockSharedWait _ key) => .armed key
  | some (.lockSharedParked _) => .asleep
  | some .bumpReaders => .bump
  | some .wakeReaders => .wake
  | _ => .out

/-- Neither futex is concerned. -/
def Silent (q : Option Pc) : Prop := writerRole q = .out ∧ readerRole q = .out

theorem silent_lockExclusiveLoop (state : Word) : Silent (some (lockExclusiveLoop state)) := by
  unfold lockExclusiveLoop
  split_ifs <;> exact ⟨rfl, rfl⟩

theorem silent_tryLockSharedLoop (state : Word) : Silent (tryLockSharedLoop state).pc := by
  unfold tryLockSharedLoop
  split <;> exact ⟨rfl, rfl⟩

theorem silent_lockSharedLoop (b : Backoff) (state : Word) :
    Silent (some (lockSharedLoop b state)) := by
  unfold lockSharedLoop
  split
  · exact ⟨rfl, rfl⟩
  · split_ifs <;> exact ⟨rfl, rfl⟩

theorem silent_sharedFastFailed (block : Bool) :
    Silent (some (sharedFastFailed adaptive block)) := by
  unfold sharedFastFailed
  split_ifs <;> exact ⟨rfl, rfl⟩

/-- A release ends silently or owes one of the two bumps. -/
def Releases (o : Outcome Pc Ret) : Prop :=
  Silent o.pc ∨ o = .goto .bumpWriters ∨ o = .goto .bumpReaders

theorem releases_unlockExclusiveWake (state : Word) : Releases (unlockExclusiveWake state) := by
  rw [unlockExclusiveWake_eq]
  split_ifs
  · exact Or.inr (Or.inl rfl)
  · exact Or.inr (Or.inr rfl)
  · exact Or.inl ⟨rfl, rfl⟩

/-- **Accesses away from the futexes.** Outside the wait loops and the wakes an access leaves both
futexes alone, and its thread ends silent or owing a bump. -/
theorem exec_silent {t : ι} {ch : Choice ι} {s s' : Store ι} {p : Pc} {o : Outcome Pc Ret}
    (hp : Silent (some p)) (hkw : p ≠ .lockExclusiveKey) (hkr : ∀ b, p ≠ .lockSharedKey b)
    (h : exec adaptive t ch s p = some (s', o)) :
    s'.writersFutex = s.writersFutex ∧ s'.readersFutex = s.readersFutex ∧ Releases o := by
  cases p with
  | lockExclusiveLoad | lockExclusiveCas | lockExclusiveMark =>
    simp only [exec] at h
    repeat' split at h
    all_goals cases h
    all_goals first
      | exact ⟨rfl, rfl, Or.inl (silent_lockExclusiveLoop _)⟩
      | exact ⟨rfl, rfl, Or.inl ⟨rfl, rfl⟩⟩
  | tryLockSharedLoad | tryLockSharedCas =>
    simp only [exec] at h
    repeat' split at h
    all_goals cases h
    all_goals first
      | exact ⟨rfl, rfl, Or.inl (silent_tryLockSharedLoop _)⟩
      | exact ⟨rfl, rfl, Or.inl ⟨rfl, rfl⟩⟩
  | lockSharedLoad | lockSharedCas | lockSharedMark =>
    simp only [exec] at h
    repeat' split at h
    all_goals cases h
    all_goals first
      | exact ⟨rfl, rfl, Or.inl (silent_lockSharedLoop _ _)⟩
      | exact ⟨rfl, rfl, Or.inl ⟨rfl, rfl⟩⟩
  | sharedFastLoad | sharedFastCas =>
    simp only [exec] at h
    repeat' split at h
    all_goals cases h
    all_goals first
      | exact ⟨rfl, rfl, Or.inl (silent_sharedFastFailed _)⟩
      | exact ⟨rfl, rfl, Or.inl ⟨rfl, rfl⟩⟩
  | unlockExclusiveCas =>
    simp only [exec] at h
    split at h
    · cases h
      exact ⟨rfl, rfl, releases_unlockExclusiveWake _⟩
    · cases h
      exact ⟨rfl, rfl, Or.inl ⟨rfl, rfl⟩⟩
  | unlockShared | unlockAllSharedLoad | unlockAllSharedCas | downgradeLoad | downgradeCas
  | lockExclusiveFast | tryLockExclusive | unlockExclusiveFast | unlockExclusiveLoad =>
    simp only [exec] at h
    repeat' split at h
    all_goals cases h
    all_goals first
      | exact ⟨rfl, rfl, Or.inl ⟨rfl, rfl⟩⟩
      | exact ⟨rfl, rfl, Or.inr (Or.inl rfl)⟩
      | exact ⟨rfl, rfl, Or.inr (Or.inr rfl)⟩
  | lockExclusiveKey => exact absurd rfl hkw
  | lockSharedKey b => exact absurd rfl (hkr b)
  | lockExclusiveCheck | lockExclusiveWait | lockExclusiveParked | bumpWriters | wakeWriters =>
    exact absurd hp.1 (by simp [writerRole])
  | lockSharedCheck | lockSharedWait | lockSharedParked | bumpReaders | wakeReaders =>
    exact absurd hp.2 (by simp [readerRole])

/-! ### Writers

A writer that is about to sleep has put its flag into the word it examined. -/

/-- The cover of a parked writer: the lock is held and the flag tells its holder to wake. -/
def WriterQueued (s : Store ι) : Prop := 0 < count s.state ∧ wp s.state = true

/-- A release that frees a lock with queued writers leaves its thread about to bump. -/
theorem writerQueued_step {t : ι} {s s' : Store ι} {o : Outcome Pc Ret} (hacc : Accounts s)
    (hw : WordStep t s s' o) (hq : WriterQueued s) :
    WriterQueued s' ∨ o = .goto .bumpWriters := by
  obtain ⟨hpos, hwp⟩ := hq
  cases hw with
  | same hw hs he => exact Or.inl ⟨hw ▸ hpos, hw ▸ hwp⟩
  | markWriters hheld hw hs he => exact Or.inl ⟨by rw [hw]; simpa using hpos, by rw [hw]; simp⟩
  | markReaders hw hs he => exact Or.inl ⟨by rw [hw]; simpa using hpos, by rw [hw]; simp [hwp]⟩
  | gainShared w hw hs =>
    -- readers are not admitted past a parked writer
    rw [(admitShared_eq_some_iff.1 hw).2.1] at hwp
    cases hwp
  | gainExclusive hfree hs => omega
  | dropExclusive hown hs ho =>
    right
    rw [ho, unlockExclusiveWake_eq, if_pos hwp]
  | dropShared hown hs ho =>
    obtain ⟨hc, hw', -⟩ := count_sub_oneReader hpos
    have hlt := (hacc.count_of_shared hown).2
    by_cases hone : count s.state = 1
    · right
      have hne : ¬ s.state &&& writersParked = 0 := by
        rw [and_writersParked_eq_zero_iff, hwp]
        simp
      rw [ho, if_pos ⟨by rw [readersCount_eq (by omega), hone], hne⟩]
    · left
      subst hs
      exact ⟨show 0 < count (s.state - oneReader) by omega, hw'.trans hwp⟩
  | dropAll hcount hown hs ho =>
    right
    have hne : ¬ s.state &&& writersParked = 0 := by
      rw [and_writersParked_eq_zero_iff, hwp]
      simp
    rw [ho, if_pos hne]
  | downgrade hown hs ho =>
    obtain ⟨hc, hw', -⟩ := count_downgrade s.state
    left
    subst hs
    exact ⟨show 0 < count ((s.state &&& ~~~oneWriter) + oneReader) by omega, hw'.trans hwp⟩

/-- Every access fits the parking pattern on `writers_futex`. -/
theorem exec_parkWriters {t : ι} {ch : Choice ι} {s s' : Store ι} {p : Pc} {o : Outcome Pc Ret}
    (hacc : Accounts s) (hk : Knows t s p) (h : exec adaptive t ch s p = some (s', o)) :
    Park t s.writersFutex s'.writersFutex (WriterQueued s) (WriterQueued s')
      (writerRole (some p)) (writerRole o.pc) := by
  have hcov := writerQueued_step hacc (exec_word hk h)
  cases p with
  | lockExclusiveKey =>
    simp only [exec] at h
    cases h
    exact .key rfl id trivial rfl
  | lockExclusiveCheck key =>
    simp only [exec] at h
    split_ifs at h with hs
    · cases h
      exact .idle rfl Or.inl trivial (Or.inl rfl)
    · cases h
      rw [not_or, and_oneWriter_eq_zero_iff, and_writersParked_eq_zero_iff] at hs
      exact .arm key rfl ⟨Nat.pos_of_ne_zero hs.1, by simpa using hs.2⟩ rfl rfl
  | lockExclusiveWait key =>
    simp only [exec] at h
    split at h
    · rename_i f hf
      obtain ⟨hv, rfl⟩ := Futex.wait_eq_some hf
      cases h
      exact .sleep key hv rfl id rfl rfl
    · cases h
      exact .idle rfl Or.inl trivial (Or.inl rfl)
  | lockExclusiveParked =>
    simp only [exec] at h
    split at h
    · rename_i f hf
      obtain ⟨hv, hw⟩ := Futex.resume_eq_some hf
      cases h
      exact .resume hv hw id rfl rfl
    · cases h
  | bumpWriters =>
    simp only [exec] at h
    cases h
    exact .bump rfl rfl id rfl rfl
  | wakeWriters =>
    simp only [exec] at h
    cases h
    exact .wake rfl rfl id rfl rfl
  | lockSharedKey | lockSharedCheck | lockSharedWait | lockSharedParked | bumpReaders
  | wakeReaders =>
    simp only [exec] at h
    repeat' split at h
    all_goals cases h
    all_goals exact .idle rfl (fun hq ↦ Or.inl hq) trivial (Or.inl rfl)
  | _ =>
    obtain ⟨hf, -, hr⟩ := exec_silent ⟨rfl, rfl⟩ (by simp) (by simp) h
    refine .idle hf (fun hq ↦ ?_) trivial ?_
    · rcases hcov hq with hq | rfl
      · exact Or.inl hq
      · exact Or.inr rfl
    · rcases hr with hr | rfl | rfl
      · exact Or.inl hr.1
      · exact Or.inr (Or.inl rfl)
      · exact Or.inl rfl

/-! ### Readers

A reader that is about to sleep has its flag in a held word, as long as the flag survives to the
recheck. -/

/-- A release that takes the readers-parked flag away leaves its thread about to bump. -/
theorem readersFlag_step {t : ι} {s s' : Store ι} {o : Outcome Pc Ret} (hacc : Accounts s)
    (hw : WordStep t s s' o) (hr : rp s.state = true) :
    rp s'.state = true ∨ o = .goto .bumpReaders := by
  cases hw with
  | same hw hs he => exact Or.inl (hw ▸ hr)
  | markWriters hheld hw hs he => exact Or.inl (by rw [hw]; simp [hr])
  | markReaders hw hs he => exact Or.inl (by rw [hw]; simp)
  | gainShared w hw hs =>
    obtain ⟨hlt, -, rfl⟩ := admitShared_eq_some_iff.1 hw
    left
    subst hs
    exact (count_add_oneReader (s := s.state) (by omega)).2.2.trans hr
  | gainExclusive hfree hs =>
    left
    subst hs
    simp [Store.gainExclusive, hr]
  | dropExclusive hown hs ho =>
    by_cases hwp : wp s.state = true
    · left
      subst hs
      exact (unlockExclusiveNext_fields s.state).2.2.trans (by rw [hwp, hr]; rfl)
    · right
      rw [ho, unlockExclusiveWake_eq, if_neg hwp, if_pos hr]
  | dropShared hown hs ho =>
    left
    subst hs
    exact (count_sub_oneReader (hacc.count_of_shared hown).1).2.2.trans hr
  | dropAll hcount hown hs ho =>
    left
    subst hs
    exact (count_sub_readers s.state).2.2.trans hr
  | downgrade hown hs ho =>
    left
    subst hs
    exact (count_downgrade s.state).2.2.trans hr

/-- Every access fits the parking pattern on `readers_futex`, for any cover that is found when a
reader arms and that is only lost against a bump. -/
theorem exec_parkReaders {t : ι} {ch : Choice ι} {s s' : Store ι} {p : Pc} {o : Outcome Pc Ret}
    {cov : Store ι → Prop} (hcov : cov s → cov s' ∨ o = .goto .bumpReaders)
    (harm : ∀ b key, p = .lockSharedCheck b key → o = .goto (.lockSharedWait b key) → cov s')
    (h : exec adaptive t ch s p = some (s', o)) :
    Park t s.readersFutex s'.readersFutex (cov s) (cov s')
      (readerRole (some p)) (readerRole o.pc) := by
  cases p with
  | lockSharedKey b =>
    simp only [exec] at h
    cases h
    exact .key rfl id trivial rfl
  | lockSharedCheck b key =>
    simp only [exec] at h
    split_ifs at h with hs
    · cases h
      exact .idle rfl Or.inl trivial (Or.inl rfl)
    · cases h
      exact .arm key rfl (harm b key rfl rfl) rfl rfl
  | lockSharedWait b key =>
    simp only [exec] at h
    split at h
    · rename_i f hf
      obtain ⟨hv, rfl⟩ := Futex.wait_eq_some hf
      cases h
      exact .sleep key hv rfl (fun hc ↦ (hcov hc).resolve_right (by simp)) rfl rfl
    · cases h
      exact .idle rfl Or.inl trivial (Or.inl rfl)
  | lockSharedParked b =>
    simp only [exec] at h
    split at h
    · rename_i f hf
      obtain ⟨hv, hw⟩ := Futex.resume_eq_some hf
      cases h
      exact .resume hv hw (fun hc ↦ (hcov hc).resolve_right (by simp)) rfl rfl
    · cases h
  | bumpReaders =>
    simp only [exec] at h
    cases h
    exact .bump rfl rfl (fun hc ↦ (hcov hc).resolve_right (by simp)) rfl rfl
  | wakeReaders =>
    simp only [exec] at h
    cases h
    exact .wake rfl rfl (fun hc ↦ (hcov hc).resolve_right (by simp)) rfl rfl
  | lockExclusiveKey | lockExclusiveCheck | lockExclusiveWait | lockExclusiveParked | bumpWriters
  | wakeWriters =>
    simp only [exec] at h
    repeat' split at h
    all_goals cases h
    all_goals refine .idle rfl (fun hc ↦ ?_) trivial (Or.inl rfl)
    all_goals exact Or.inl ((hcov hc).resolve_right (by simp))
  | _ =>
    obtain ⟨-, hf, hr⟩ := exec_silent ⟨rfl, rfl⟩ (by simp) (by simp) h
    refine .idle hf (fun hc ↦ ?_) trivial ?_
    · rcases hcov hc with hc | rfl
      · exact Or.inl hc
      · exact Or.inr rfl
    · rcases hr with hr | rfl | rfl
      · exact Or.inl hr.2
      · exact Or.inl rfl
      · exact Or.inr (Or.inl rfl)

/-! ### Runs

The parking invariants along a run, and what they say about a configuration in which nobody moves.
-/

omit [Fintype ι] in
theorem enter_silent {t : ι} {op : Op ι} {s s' : Store ι} {o : Outcome Pc Ret}
    (h : enter t op s = some (s', o)) : Silent o.pc := by
  cases op with
  | _ =>
    simp only [enter] at h
    repeat' split at h
    all_goals cases h
    all_goals exact ⟨rfl, rfl⟩

section Runs

variable {ok : Config ι (Store ι) Pc → Label ι (Op ι) → Prop} {c : Config ι (Store ι) Pc}

/-- No wakeup on `writers_futex` is lost, in any run. -/
theorem lot_writers (h : Reach (rawMutex adaptive) ok init c) :
    Lot c.shared.writersFutex (WriterQueued c.shared) fun t ↦ writerRole (c.pcs t) := by
  refine h.invariant (I := fun c ↦
    Lot c.shared.writersFutex (WriterQueued c.shared) fun t ↦ writerRole (c.pcs t)) ?_ ?_ ?_
  · exact Lot.new 0 _
  · rintro c t op ⟨s', o⟩ - hlot - hpc he
    obtain ⟨hw, -, hf, -⟩ := enter_spec he
    rw [Config.comp_put_pcs]
    refine hlot.step (.idle hf (fun hq ↦ Or.inl ?_) (by rw [hpc]; trivial)
      (Or.inl (enter_silent he).1))
    unfold WriterQueued at *
    rwa [Config.put_shared, hw]
  · rintro c t ch p ⟨s', o⟩ hc hlot - hpc he
    obtain ⟨hacc, hk⟩ := reach_accounts hc
    rw [Config.comp_put_pcs]
    refine hlot.step ?_
    rw [hpc]
    exact exec_parkWriters hacc (hk t p hpc) he

/-- The parking invariant on `readers_futex` for a cover that is found at every arming step. -/
theorem lot_readers (cov : Store ι → Prop)
    (henter : ∀ s s' : Store ι, s'.state = s.state → cov s → cov s')
    (hcov : ∀ (t : ι) (s s' : Store ι) (o : Outcome Pc Ret), Accounts s → WordStep t s s' o →
      cov s → cov s' ∨ o = .goto .bumpReaders)
    (harm : ∀ c t ch b key, ok c (.exec t ch) → c.pcs t = some (.lockSharedCheck b key) →
      exec adaptive t ch c.shared (.lockSharedCheck b key) =
        some (c.shared, .goto (.lockSharedWait b key)) → cov c.shared)
    (h : Reach (rawMutex adaptive) ok init c) :
    Lot c.shared.readersFutex (cov c.shared) fun t ↦ readerRole (c.pcs t) := by
  refine h.invariant (I := fun c ↦
    Lot c.shared.readersFutex (cov c.shared) fun t ↦ readerRole (c.pcs t)) ?_ ?_ ?_
  · exact Lot.new 0 _
  · rintro c t op ⟨s', o⟩ - hlot - hpc he
    obtain ⟨hw, hf, -⟩ := enter_spec he
    rw [Config.comp_put_pcs]
    exact hlot.step (.idle hf (fun hq ↦ Or.inl (henter _ _ hw hq)) (by rw [hpc]; trivial)
      (Or.inl (enter_silent he).2))
  · rintro c t ch p ⟨s', o⟩ hc hlot hok hpc he
    obtain ⟨hacc, hk⟩ := reach_accounts hc
    rw [Config.comp_put_pcs]
    refine hlot.step ?_
    rw [hpc]
    refine exec_parkReaders (hcov t _ _ o hacc (exec_word (hk t p hpc) he)) ?_ he
    rintro b key rfl rfl
    have hs : s' = c.shared := by
      simp only [rawMutex, exec] at he
      split_ifs at he
      · cases he
      · cases he
        rfl
    subst hs
    exact harm c t ch b key hok hpc he

/-- Blocked in `futex_wait` on one of the two futexes. -/
def Blocked (c : Config ι (Store ι) Pc) (t : ι) : Prop :=
  t ∈ c.shared.readersFutex.waiters ∨ t ∈ c.shared.writersFutex.waiters

instance (c : Config ι (Store ι) Pc) (t : ι) : Decidable (Blocked c t) :=
  inferInstanceAs (Decidable (_ ∨ _))

/-- Every thread but `t` is outside all calls or blocked itself. -/
def NobodyElseRuns (c : Config ι (Store ι) Pc) (t : ι) : Prop :=
  ∀ u, u ≠ t → c.pcs u = none ∨ Blocked c u

instance (c : Config ι (Store ι) Pc) (t : ι) : Decidable (NobodyElseRuns c t) :=
  inferInstanceAs (Decidable (∀ _, _))

/-- The sleepers of both futexes are inside their sleeping calls. -/
theorem asleep_of_blocked (h : Reach (rawMutex adaptive) ok init c) {t : ι} (ht : Blocked c t) :
    readerRole (c.pcs t) = .asleep ∨ writerRole (c.pcs t) = .asleep := by
  have hr := lot_readers (fun _ ↦ True) (fun _ _ _ _ ↦ trivial)
    (fun _ _ _ _ _ _ _ ↦ Or.inl trivial) (fun _ _ _ _ _ _ _ _ ↦ trivial) h
  rcases ht with ht | ht
  · exact Or.inl (hr.asleep t ht)
  · exact Or.inr ((lot_writers h).asleep t ht)

/-- A thread that owes one of the futexes a bump or a wake is running. -/
theorem runs_of_debt (h : Reach (rawMutex adaptive) ok init c) {u : ι} {p : Pc}
    (hu : c.pcs u = some p)
    (hp : p = .bumpReaders ∨ p = .wakeReaders ∨ p = .bumpWriters ∨ p = .wakeWriters) :
    ¬ (c.pcs u = none ∨ Blocked c u) := by
  rintro (hn | hb)
  · rw [hu] at hn
    cases hn
  · have := asleep_of_blocked h hb
    rw [hu] at this
    rcases hp with rfl | rfl | rfl | rfl <;> simp [readerRole, writerRole] at this

theorem writerRole_eq_bump {q : Option Pc} (h : writerRole q = .bump) : q = some .bumpWriters := by
  unfold writerRole at h
  split at h <;> first
    | rfl
    | cases h

theorem writerRole_eq_wake {q : Option Pc} (h : writerRole q = .wake) : q = some .wakeWriters := by
  unfold writerRole at h
  split at h <;> first
    | rfl
    | cases h

theorem readerRole_eq_bump {q : Option Pc} (h : readerRole q = .bump) : q = some .bumpReaders := by
  unfold readerRole at h
  split at h <;> first
    | rfl
    | cases h

theorem readerRole_eq_wake {q : Option Pc} (h : readerRole q = .wake) : q = some .wakeReaders := by
  unfold readerRole at h
  split at h <;> first
    | rfl
    | cases h

/-- The lock is free, nobody else runs, and a writer sleeps. -/
def StrandedWriter (c : Config ι (Store ι) Pc) : Prop :=
  isWriterLocked c.shared.state = false ∧ readersCount c.shared.state = 0 ∧
    ∃ t ∈ c.shared.writersFutex.waiters, NobodyElseRuns c t

/-- **No parked writer is stranded.** While a writer sleeps, the lock is held with the flag that
makes its release wake writers, or a release is in flight that still has to bump or to wake
`writers_futex`; so the lock is never free with a writer asleep and nobody else running. -/
theorem parked_writer_covered (h : Reach (rawMutex adaptive) Always init c) :
    (∀ t ∈ c.shared.writersFutex.waiters,
      ((isWriterLocked c.shared.state = true ∨ 0 < readersCount c.shared.state) ∧
        c.shared.state &&& writersParked ≠ 0) ∨
      ∃ u, u ≠ t ∧ (c.pcs u = some .bumpWriters ∨ c.pcs u = some .wakeWriters)) ∧
    ¬ StrandedWriter c := by
  have hlot := lot_writers h
  have hcovered : ∀ t ∈ c.shared.writersFutex.waiters,
      ((isWriterLocked c.shared.state = true ∨ 0 < readersCount c.shared.state) ∧
        c.shared.state &&& writersParked ≠ 0) ∨
      ∃ u, u ≠ t ∧ (c.pcs u = some .bumpWriters ∨ c.pcs u = some .wakeWriters) := by
    intro t ht
    have hne : ∀ u, writerRole (c.pcs u) ≠ .asleep → u ≠ t := by
      rintro u hu rfl
      exact hu (hlot.asleep u ht)
    rcases hlot.covered ⟨t, ht⟩ with ⟨u, hu⟩ | ⟨u, hu⟩ | ⟨hpos, hwp⟩
    · exact Or.inr ⟨u, hne u (by rw [hu]; simp), Or.inr (writerRole_eq_wake hu)⟩
    · exact Or.inr ⟨u, hne u (by rw [hu]; simp), Or.inl (writerRole_eq_bump hu)⟩
    · refine Or.inl ⟨?_, fun hz ↦ ?_⟩
      · by_cases hw : count c.shared.state = writerCount
        · exact Or.inl (isWriterLocked_iff.2 hw)
        · exact Or.inr (by rwa [readersCount_eq hw])
      · rw [and_writersParked_eq_zero_iff.1 hz] at hwp
        cases hwp
  refine ⟨hcovered, ?_⟩
  rintro ⟨hnw, hnr, t, ht, hothers⟩
  rcases hcovered t ht with ⟨hheld, -⟩ | ⟨u, hut, hu⟩
  · rcases hheld with hw | hr
    · rw [hnw] at hw
      cases hw
    · omega
  · rcases hu with hu | hu
    · exact runs_of_debt h hu (by simp) (hothers u hut)
    · exact runs_of_debt h hu (by simp) (hothers u hut)

/-! ### The reader's recheck

The step at which a reader may go to sleep without its flag. -/

/-- The word is unlocked, nobody else runs, and a reader sleeps. -/
def StrandedReader (c : Config ι (Store ι) Pc) : Prop :=
  c.shared.state = unlocked ∧ ∃ t ∈ c.shared.readersFutex.waiters, NobodyElseRuns c t

instance (c : Config ι (Store ι) Pc) : Decidable (StrandedReader c) :=
  inferInstanceAs (Decidable (_ ∧ ∃ _, _ ∧ _))

/-- The thread is at the recheck of `state` that precedes a reader's `futex_wait`. -/
def atRecheck : Option Pc → Bool
  | some (.lockSharedCheck _ _) => true
  | _ => false

/-- The condition under which parked readers are safe: the recheck of `state` that precedes a
reader's `futex_wait` does not find the lock writer-held or writer-queued **with the readers-parked
flag gone**. The writers' wait loop tests its own flag at the same place; the readers' does not. -/
def FlagSurvives (c : Config ι (Store ι) Pc) : Label ι (Op ι) → Prop
  | .call _ _ => True
  | .exec t _ => atRecheck (c.pcs t) = true →
      isWriterLocked c.shared.state = true ∨ c.shared.state &&& writersParked ≠ 0 →
        c.shared.state &&& readersParked ≠ 0

instance (c : Config ι (Store ι) Pc) (l : Label ι (Op ι)) : Decidable (FlagSurvives c l) :=
  match l with
  | .call _ _ => isTrue trivial
  | .exec _ _ => inferInstanceAs (Decidable (_ → _ → _))

/-- **Parked readers are safe while the flag survives to the recheck.** -/
theorem no_stranded_reader (h : Reach (rawMutex adaptive) FlagSurvives init c) :
    ¬ StrandedReader c := by
  have hlot := lot_readers (fun s ↦ rp s.state = true)
    (fun s s' hw hr ↦ by rw [hw]; exact hr)
    (fun t s s' o hacc hw hr ↦ readersFlag_step hacc hw hr) ?_ h
  · rintro ⟨hu, t, ht, hothers⟩
    have hne : ∀ u, readerRole (c.pcs u) ≠ .asleep → u ≠ t := by
      rintro u hu rfl
      exact hu (hlot.asleep u ht)
    rcases hlot.covered ⟨t, ht⟩ with ⟨u, hw⟩ | ⟨u, hb⟩ | hr
    · exact runs_of_debt h (readerRole_eq_wake hw) (by simp)
        (hothers u (hne u (by rw [hw]; simp)))
    · exact runs_of_debt h (readerRole_eq_bump hb) (by simp)
        (hothers u (hne u (by rw [hb]; simp)))
    · rw [hu] at hr
      cases hr
  · intro c t ch b key hok hpc he
    have hflag := hok (by rw [hpc]; rfl)
    have hblocked : isWriterLocked c.shared.state = true ∨
        c.shared.state &&& writersParked ≠ 0 := by
      simp only [exec] at he
      split_ifs at he with hs
      · cases he
      · rw [not_and_or, not_not] at hs
        rcases hs with hs | hs
        · exact Or.inl (by simpa [isWriterLocked] using hs)
        · exact Or.inr hs
    have hr := hflag hblocked
    rwa [ne_eq, and_readersParked_eq_zero_iff, Bool.not_eq_false] at hr

end Runs

/-! ### Readers behind a writer

Where writers only ever try the lock, none of them parks, and the writer that a parked reader waits
for wakes it. -/

section Behind

variable {t : ι} {ch : Choice ι} {s s' : Store ι} {p : Pc} {o : Outcome Pc Ret}

/-- The cover of a reader parked behind a writer: the writer has the lock, and the flag tells it to
wake. -/
def ReaderQueued (s : Store ι) : Prop := count s.state = writerCount ∧ rp s.state = true

omit [DecidableEq ι] in
/-- Somebody has the lock exclusively then. -/
theorem ReaderQueued.held (hq : ReaderQueued s) (hacc : Accounts s) : ∃ u, 0 < s.exclusive u := by
  by_contra hnone
  have hzero : tally s.exclusive = 0 :=
    tally_eq_zero_iff.2 fun u ↦ Nat.eq_zero_of_not_pos fun hpos ↦ hnone ⟨u, hpos⟩
  have hcount := hq.1
  rcases hacc with ⟨hone, -, -⟩ | ⟨-, -, hlt⟩
  · omega
  · omega

/-- A writer that gives the lock up with no other writer parked leaves its thread about to bump. -/
theorem readerQueued_step (hacc : Accounts s) (hwp : wp s.state = false) (hw : WordStep t s s' o)
    (hq : ReaderQueued s) : ReaderQueued s' ∨ o = .goto .bumpReaders := by
  obtain ⟨hcount, hrp⟩ := hq
  cases hw with
  | same hw hs he => exact Or.inl ⟨hw ▸ hcount, hw ▸ hrp⟩
  | markWriters hheld hw hs he =>
    exact Or.inl ⟨by rw [hw]; simpa using hcount, by rw [hw]; simp [hrp]⟩
  | markReaders hw hs he => exact Or.inl ⟨by rw [hw]; simpa using hcount, by rw [hw]; simp⟩
  | gainShared w hw hs =>
    have hlt := (admitShared_eq_some_iff.1 hw).1
    omega
  | gainExclusive hfree hs =>
    rw [hcount] at hfree
    exact absurd hfree (by decide)
  | dropExclusive hown hs ho =>
    right
    rw [ho, unlockExclusiveWake_eq, if_neg (by simp [hwp]), if_pos hrp]
  | dropShared hown hs ho =>
    have hlt := (hacc.count_of_shared hown).2
    omega
  | dropAll hne hown hs ho => exact absurd hcount hne
  | downgrade hown hs ho =>
    right
    have hne : ¬ s.state &&& readersParked = 0 := by
      rw [and_readersParked_eq_zero_iff, hrp]
      simp
    rw [ho, if_pos hne]

/-- Every access fits the parking pattern with that cover, as long as the recheck before a reader
sleeps does not miss the flag. -/
theorem exec_parkBehind (hacc : Accounts s) (hk : Knows t s p) (hwp : wp s.state = false)
    (hflag : atRecheck (some p) = true → isWriterLocked s.state = true →
      s.state &&& readersParked ≠ 0)
    (h : exec adaptive t ch s p = some (s', o)) :
    Park t s.readersFutex s'.readersFutex (ReaderQueued s) (ReaderQueued s') (readerRole (some p))
      (readerRole o.pc) := by
  refine exec_parkReaders (readerQueued_step hacc hwp (exec_word hk h)) ?_ h
  rintro b key rfl rfl
  simp only [exec] at h
  split_ifs at h with hs
  · cases h
  · cases h
    rw [not_and_or, not_not, and_writersParked_eq_zero_iff, hwp] at hs
    have hlocked : isWriterLocked s.state = true := by
      rcases hs with hs | hs
      · simpa [isWriterLocked] using hs
      · exact absurd rfl hs
    have hrp := hflag rfl hlocked
    rw [ne_eq, and_readersParked_eq_zero_iff, Bool.not_eq_false] at hrp
    exact ⟨isWriterLocked_iff.1 hlocked, hrp⟩

end Behind

/-! ### A schedule that strands a reader

Thread `0` reads, threads `1` and `2` write. The reader sets the readers-parked flag under writer
`1`, whose release clears the flag and bumps and wakes before the reader has loaded its key. Writer
`2` then takes the clean word through the fast path; the reader loads the new key, finds a writer,
and sleeps with no flag set, so the fast release of writer `2` wakes nobody. -/

/-- `n` further accesses of thread `t`. -/
def steps {ι : Type*} (t : ι) (n : ℕ) : List (Label ι (Op ι)) := List.replicate n (.exec t .go)

/-- The schedule up to the recheck of the reader `r` under the second writer `w'`. -/
def strandingSchedule {ι : Type*} (r w w' : ι) : List (Label ι (Op ι)) :=
  .call w .tryLockExclusive :: steps w 1 ++
  -- fast path, fourteen rounds of the slow loop until the backoff is spent, then the mark
  .call r .lockShared :: steps r 16 ++
  -- fast path fails on the flag; load, release, bump, wake
  .call w .unlockExclusive :: steps w 5 ++
  .call w' .tryLockExclusive :: steps w' 1 ++
  -- key, recheck, sleep
  steps r 3 ++
  .call w' .unlockExclusive :: steps w' 1

/-- Only the blocking and non-blocking acquisitions and the two releases are called. -/
def LocksAndUnlocks {ι : Type*} (_ : Config ι (Store ι) Pc) : Label ι (Op ι) → Prop
  | .call _ .lockShared | .call _ .tryLockShared | .call _ .unlockShared => True
  | .call _ .lockExclusive | .call _ .tryLockExclusive | .call _ .unlockExclusive => True
  | .call _ _ => False
  | .exec _ _ => True

instance {ι : Type*} (c : Config ι (Store ι) Pc) (l : Label ι (Op ι)) :
    Decidable (LocksAndUnlocks c l) := by
  unfold LocksAndUnlocks
  split <;> infer_instance

/-- **A reader can be stranded**: three threads, locking and unlocking only. -/
theorem stranded_reader_reachable :
    ∃ c, Reach (rawMutex 4) LocksAndUnlocks (init : Config (Fin 3) (Store (Fin 3)) Pc) c ∧
      StrandedReader c := by
  obtain ⟨c, hc, ht⟩ := Reach.exists_of_replay (rawMutex 4) LocksAndUnlocks
    (init : Config (Fin 3) (Store (Fin 3)) Pc) (strandingSchedule 0 1 2)
    (fun c ↦ decide (StrandedReader c)) (by decide)
  exact ⟨c, hc, of_decide_eq_true ht⟩

/-- A run in which the flag survives and a reader does sleep. -/
theorem no_stranded_reader_parked :
    ∃ c, Reach (rawMutex 4) FlagSurvives (init : Config (Fin 2) (Store (Fin 2)) Pc) c ∧
      0 ∈ c.shared.readersFutex.waiters ∧ ¬ StrandedReader c := by
  obtain ⟨c, hc, ht⟩ := Reach.exists_of_replay (rawMutex 4) FlagSurvives
    (init : Config (Fin 2) (Store (Fin 2)) Pc)
    (.call 1 .tryLockExclusive :: steps 1 1 ++ .call 0 .lockShared :: steps 0 19)
    (fun c ↦ decide (0 ∈ c.shared.readersFutex.waiters)) (by decide)
  exact ⟨c, hc, of_decide_eq_true ht, no_stranded_reader hc⟩

/-- A run in which a writer sleeps behind a reader. -/
theorem parked_writer_covered_parked :
    ∃ c, Reach (rawMutex 4) Always (init : Config (Fin 2) (Store (Fin 2)) Pc) c ∧
      0 ∈ c.shared.writersFutex.waiters ∧ ¬ StrandedWriter c := by
  obtain ⟨c, hc, ht⟩ := Reach.exists_of_replay (rawMutex 4) Always
    (init : Config (Fin 2) (Store (Fin 2)) Pc)
    (.call 1 .lockShared :: steps 1 2 ++ .call 0 .lockExclusive :: steps 0 6)
    (fun c ↦ decide (0 ∈ c.shared.writersFutex.waiters)) (by decide)
  exact ⟨c, hc, of_decide_eq_true ht, (parked_writer_covered hc).2⟩

end RawMutex

end Crossync
