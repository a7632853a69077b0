import Crossync.Core.RawMutexClean

/-!
# Parked writers of a `RawMutex` come first

`WRITERS_PARKED` is the only thing that keeps a stream of readers from starving a writer: a reader
is admitted only by a word without the flag. The flag goes through the masks of every other path of
the lock, and **only the acquisition of a writer takes it away**: an exclusive release installs the
flags it found, a shared release and a bulk release subtract above them, and a downgrade keeps them.

So from a word with the flag on, no shared acquisition takes effect before an exclusive one does
(`parked_writer_first`). And the flag is not a dead letter that would shut readers out for good: as
long as it is set, some thread is on the slow path of `lock_exclusive`. Unlike the readers' flag,
this needs no condition on the run.

## What is not claimed

That the writer which queued first acquires first, or that it acquires at all: the order among the
writers is the scheduler's and the futex's. The claim is about readers, who cannot overtake, and
about the flag, which has an owner for as long as it is set.
-/

open Interleave

namespace Crossync

namespace RawMutex

open Word

variable {ι : Type*} [Fintype ι] [DecidableEq ι] {adaptive : ℕ}

/-- The step is an exclusive acquisition that takes effect. -/
def takesExclusive (adaptive : ℕ) (c : Config ι (Store ι) Pc) : Label ι (Op ι) → Bool
  | .call _ _ => false
  | .exec t ch =>
    match (c.pcs t).bind (exec adaptive t ch c.shared) with
    | some (s', _) => decide (c.shared.exclusive t < s'.exclusive t)
    | none => false

/-- The step is a shared acquisition that takes effect: the thread gets a share, and not in exchange
for an exclusive one. -/
def takesShared (adaptive : ℕ) (c : Config ι (Store ι) Pc) : Label ι (Op ι) → Bool
  | .call _ _ => false
  | .exec t ch =>
    match (c.pcs t).bind (exec adaptive t ch c.shared) with
    | some (s', _) =>
      decide (c.shared.shared t < s'.shared t ∧ c.shared.exclusive t ≤ s'.exclusive t)
    | none => false

/-- No step is an exclusive acquisition. -/
def NoWriter (adaptive : ℕ) (c : Config ι (Store ι) Pc) (l : Label ι (Op ι)) : Prop :=
  takesExclusive adaptive c l = false

instance (c : Config ι (Store ι) Pc) (l : Label ι (Op ι)) : Decidable (NoWriter adaptive c l) :=
  inferInstanceAs (Decidable (_ = _))

section Steps

variable {t : ι} {ch : Choice ι} {s s' : Store ι} {p : Pc} {o : Outcome Pc Ret}

/-- **What an access does to a word with the flag**: it admits no reader, and keeps the flag unless
a writer takes the lock. -/
theorem WordStep.flag (h : WordStep t s s' o) (hacc : Accounts s) (hwp : wp s.state = true) :
    (s.exclusive t < s'.exclusive t ∨ wp s'.state = true) ∧
      ¬ (s.shared t < s'.shared t ∧ s.exclusive t ≤ s'.exclusive t) := by
  cases h with
  | same hw hs he =>
    refine ⟨Or.inr (by rw [hw, hwp]), ?_⟩
    rw [hs]
    omega
  | markWriters _ hw hs he | markReaders hw hs he =>
    refine ⟨Or.inr (by rw [hw, wp_or, hwp]; rfl), ?_⟩
    rw [hs]
    omega
  | gainShared w hw hs =>
    -- a reader is admitted only by a word without the flag
    obtain ⟨-, hfree, -⟩ := admitShared_eq_some_iff.1 hw
    rw [hwp] at hfree
    cases hfree
  | gainExclusive hfree hs =>
    rw [hs]
    simp [Store.gainExclusive]
  | dropExclusive hown hs ho =>
    obtain ⟨-, hw, -⟩ := unlockExclusiveNext_fields s.state
    refine ⟨Or.inr ?_, ?_⟩
    · rw [hs]
      exact hw.trans hwp
    · rw [hs]
      simp [Store.dropExclusive]
  | dropShared hown hs ho =>
    obtain ⟨-, hw, -⟩ := count_sub_oneReader (hacc.count_of_shared hown).1
    refine ⟨Or.inr ?_, ?_⟩
    · rw [hs]
      exact hw.trans hwp
    · rw [hs]
      simp [Store.dropShared]
  | dropAll hcount hown hs ho =>
    obtain ⟨-, hw, -⟩ := count_sub_readers s.state
    refine ⟨Or.inr ?_, ?_⟩
    · rw [hs]
      exact hw.trans hwp
    · rw [hs]
      simp
  | downgrade hown hs ho =>
    obtain ⟨-, hw, -⟩ := count_downgrade s.state
    refine ⟨Or.inr ?_, ?_⟩
    · rw [hs]
      exact hw.trans hwp
    · rw [hs]
      simp only [Store.gainShared, Store.dropExclusive, Function.update_self]
      omega

/-- Where an exclusive acquisition takes effect. -/
theorem exec_takes (h : exec adaptive t ch s p = some (s', o))
    (hlt : s.exclusive t < s'.exclusive t) :
    p = .lockExclusiveFast ∨ p = .tryLockExclusive ∨ ∃ state, p = .lockExclusiveCas state := by
  cases p with
  | lockExclusiveFast => exact Or.inl rfl
  | tryLockExclusive => exact Or.inr (Or.inl rfl)
  | lockExclusiveCas state => exact Or.inr (Or.inr ⟨state, rfl⟩)
  | _ =>
    simp only [exec] at h
    repeat' split at h
    all_goals
      cases h
      try first
        | exact absurd hlt (lt_irrefl _)
        | simp only [Store.gainShared, Store.dropExclusive, Function.update_self] at hlt
          omega

/-- A writers-parked flag has its thread on the slow path, on every access. -/
theorem exec_queued (hacc : Accounts s) (hk : Knows t s p)
    (h : exec adaptive t ch s p = some (s', o)) (hwp : wp s'.state = true) :
    queueing o.pc = true ∨ wp s.state = true ∧ queueing (some p) = false := by
  cases hok : abandons s (some p) with
  | false => exact (exec_flags hacc hk hok h).queued hwp
  | true =>
    -- the two accesses that abandon the readers' flag keep the writers'
    cases p with
    | downgradeCas state =>
      simp only [exec] at h
      split at h
      · rename_i w hw
        obtain ⟨rfl, rfl⟩ := cas_eq_ok.1 hw
        cases h
        exact Or.inr ⟨(count_downgrade s.state).2.1.symm.trans hwp, rfl⟩
      · cases h
        exact Or.inr ⟨hwp, rfl⟩
    | lockSharedMark b state =>
      simp only [exec] at h
      split at h
      · rename_i w hw
        obtain ⟨rfl, rfl⟩ := casWeak_eq_ok hw
        cases h
        refine Or.inr ⟨?_, rfl⟩
        simpa using hwp
      · cases h
        exact Or.inr ⟨hwp, rfl⟩
    | _ => cases hok

end Steps

section Runs

variable {ok : Config ι (Store ι) Pc → Label ι (Op ι) → Prop} {c c' : Config ι (Store ι) Pc}

/-- **While the flag is set, a thread is on the slow path of `lock_exclusive`**, in every run. -/
theorem reach_queued (h : Reach (rawMutex adaptive) ok init c) : Queued c := by
  refine h.invariant (I := Queued) (fun hw ↦ absurd hw (by simp [init, Store.new])) ?_ ?_
  · rintro c t op ⟨s', o⟩ - hq - hpc he hwp
    obtain ⟨hw, -⟩ := enter_spec he
    rw [Config.put_shared, hw] at hwp
    obtain ⟨u, hu⟩ := hq hwp
    have hut : u ≠ t := by
      rintro rfl
      rw [hpc] at hu
      cases hu
    exact ⟨u, by rwa [Config.put_pcs_of_ne _ _ hut]⟩
  · rintro c t ch p ⟨s', o⟩ hc hq - hpc he hwp
    obtain ⟨hacc, hk⟩ := reach_accounts hc
    rcases exec_queued hacc (hk t p hpc) he hwp with ho | ⟨hw, hp⟩
    · exact ⟨t, by rwa [Config.put_pcs_self]⟩
    · obtain ⟨u, hu⟩ := hq hw
      have hut : u ≠ t := by
        rintro rfl
        rw [hpc, hp] at hu
        cases hu
      exact ⟨u, by rwa [Config.put_pcs_of_ne _ _ hut]⟩

/-- From a word with the flag on, until a writer takes the lock, the flag stays. -/
theorem flag_stays (hc : Reach (rawMutex adaptive) ok init c) (hwp : wp c.shared.state = true)
    (h : Reach (rawMutex adaptive) (NoWriter adaptive) c c') : wp c'.shared.state = true := by
  refine h.invariant (I := fun c ↦ wp c.shared.state = true) hwp ?_ ?_
  · rintro d t op ⟨s', o⟩ - hd - - he
    rw [Config.put_shared, (enter_spec he).1]
    exact hd
  · rintro d t ch p ⟨s', o⟩ hr hd hok hpc he
    have hreach : Reach (rawMutex adaptive) Always init d :=
      (hc.mono fun _ _ _ ↦ trivial).trans (hr.mono fun _ _ _ ↦ trivial)
    obtain ⟨hacc, hk⟩ := reach_accounts hreach
    rcases (exec_word (hk t p hpc) he).flag hacc hd with ⟨hlt | hw, -⟩
    · have he' : exec adaptive t ch d.shared p = some (s', o) := he
      simp only [NoWriter, takesExclusive, hpc, Option.bind_some, he',
        decide_eq_false_iff_not] at hok
      exact absurd hlt hok
    · exact hw

/-- **A parked writer comes before every reader that is not in yet.** From every reachable word with
the flag on: some thread is on the slow path of `lock_exclusive`; an access that clears the flag is
the acquisition of such a thread, so no release, downgrade or bulk release is; and until an
exclusive acquisition takes effect the flag stays, and no step is a shared acquisition that takes
effect. -/
theorem parked_writer_first (hc : Reach (rawMutex adaptive) ok init c)
    (hflag : c.shared.state &&& writersParked ≠ 0) :
    (∃ t, queueing (c.pcs t) = true) ∧
    (∀ t ch p s' o, c.pcs t = some p → exec adaptive t ch c.shared p = some (s', o) →
      s'.state &&& writersParked = 0 →
        (∃ state, p = .lockExclusiveCas state) ∧ c.shared.exclusive t < s'.exclusive t) ∧
    ∀ c', Reach (rawMutex adaptive) (NoWriter adaptive) c c' →
      c'.shared.state &&& writersParked ≠ 0 ∧ (∃ t, queueing (c'.pcs t) = true) ∧
      ∀ l, takesShared adaptive c' l = false := by
  have hwp : wp c.shared.state = true := by
    rw [Ne, and_writersParked_eq_zero_iff] at hflag
    simpa using hflag
  refine ⟨reach_queued hc hwp, fun t ch p s' o hpc he hclear ↦ ?_, fun c' hc' ↦ ?_⟩
  · obtain ⟨hacc, hk⟩ := reach_accounts hc
    have hlt : c.shared.exclusive t < s'.exclusive t := by
      rcases (exec_word (hk t p hpc) he).flag hacc hwp with ⟨hlt | hw, -⟩
      · exact hlt
      · rw [and_writersParked_eq_zero_iff, hw] at hclear
        cases hclear
    refine ⟨?_, hlt⟩
    -- the two fast paths take only a word without flags
    have hne : c.shared.state ≠ unlocked := by
      intro heq
      rw [heq] at hwp
      cases hwp
    rcases exec_takes he hlt with rfl | rfl | hp
    · simp only [exec, cas, if_neg hne] at he
      cases he
      exact absurd hlt (lt_irrefl _)
    · simp only [exec, cas, if_neg hne] at he
      cases he
      exact absurd hlt (lt_irrefl _)
    · exact hp
  · have hwp' := flag_stays hc hwp hc'
    have hreach : Reach (rawMutex adaptive) Always init c' :=
      (hc.mono fun _ _ _ ↦ trivial).trans (hc'.mono fun _ _ _ ↦ trivial)
    refine ⟨?_, reach_queued hreach hwp', fun l ↦ ?_⟩
    · rw [Ne, and_writersParked_eq_zero_iff, hwp']
      simp
    · cases l with
      | call t op => rfl
      | exec t ch =>
        cases hpc : c'.pcs t with
        | none => simp [takesShared, hpc]
        | some p =>
          cases he : exec adaptive t ch c'.shared p with
          | none => simp [takesShared, hpc, he]
          | some r =>
            obtain ⟨s', o⟩ := r
            obtain ⟨hacc, hk⟩ := reach_accounts hreach
            simp only [takesShared, hpc, Option.bind_some, he, decide_eq_false_iff_not]
            exact ((exec_word (hk t p hpc) he).flag hacc hwp').2

end Runs

/-- Thread `0` is a reader, thread `1` a writer that has marked the word. A late
reader `2` is refused. -/
theorem parked_writer_first_late :
    ∃ c c' : Config (Fin 3) (Store (Fin 3)) Pc, Reach (rawMutex 4) Always init c ∧
      c.shared.state &&& writersParked ≠ 0 ∧ Reach (rawMutex 4) (NoWriter 4) c c' ∧
      c'.pcs 2 = some (.lockSharedLoad (.new 4)) ∧ ∀ l, takesShared 4 c' l = false := by
  obtain ⟨c, hc, ht⟩ := Reach.exists_of_replay (rawMutex 4) Always
    (init : Config (Fin 3) (Store (Fin 3)) Pc)
    (.call 0 .lockShared :: steps 0 2 ++ .call 1 .lockExclusive :: steps 1 3)
    (fun c ↦ decide (c.shared.state &&& writersParked ≠ 0 ∧
      ((rawMutex 4).replay (NoWriter 4) c (.call 2 .lockShared :: steps 2 1)).any
        (fun c' ↦ decide (c'.pcs 2 = some (.lockSharedLoad (.new 4)))) = true)) (by decide)
  obtain ⟨hflag, hlate⟩ := of_decide_eq_true ht
  obtain ⟨c', hc', hpc⟩ := Reach.exists_of_replay (rawMutex 4) (NoWriter 4) c _ _ hlate
  exact ⟨c, c', hc, hflag, hc', of_decide_eq_true hpc,
    ((parked_writer_first hc hflag).2.2 c' hc').2.2⟩

end RawMutex

end Crossync
