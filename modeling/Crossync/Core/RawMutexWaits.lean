import Crossync.Core.RawMutexClean

/-!
# Who waits for whom in a `RawMutex`

A thread waits inside a call only asleep on one of the two futexes. The writers' futex loses no
wakeup in any run, the readers' futex loses none while the flag survives to the recheck; and while
no step abandons the readers-parked flag, a flagged word has a writer in the lock or on its way.
Together: whoever sleeps, sleeps behind a thread that can go on, or behind an acquisition.

## How the result is used

`held_of_stuck` is for code that calls the lock: if nobody inside a call can go on, somebody owns an
acquisition and is outside. For the lock alone this is the absence of deadlock. For `RwLock` the
acquisition is a guard, and for the map it is a share of a shard or the exclusive section of a
`clear`, whose holder is then followed further.
-/

open Interleave

namespace Crossync

namespace RawMutex

open Word

variable {ι : Type*} [Fintype ι] [DecidableEq ι] {adaptive : ℕ}

/-- **Only a parked thread waits**, apart from an `unlock_all_shared` whose caller may not call
it. -/
theorem waits_of_exec_eq_none {t : ι} {s : Store ι} {p : Pc} (h : exec adaptive t .go s p = none) :
    ((∃ b, p = .lockSharedParked b) ∧ t ∈ s.readersFutex.waiters) ∨
      (p = .lockExclusiveParked ∧ t ∈ s.writersFutex.waiters) ∨ ∃ u, 0 < s.shared u := by
  have hasleep : ∀ f : Futex ι ℕ, f.resume t .go = none → t ∈ f.waiters := by
    intro f hf
    unfold Futex.resume at hf
    split_ifs at hf with hw
    exact hw
  cases p with
  | lockSharedParked b =>
    simp only [exec] at h
    split at h
    · cases h
    · rename_i hf
      exact Or.inl ⟨⟨b, rfl⟩, hasleep _ hf⟩
  | lockExclusiveParked =>
    simp only [exec] at h
    split at h
    · cases h
    · rename_i hf
      exact Or.inr (Or.inl ⟨rfl, hasleep _ hf⟩)
  | unlockAllSharedCas state =>
    simp only [exec] at h
    split at h
    · split_ifs at h with hown
      obtain ⟨u, hu⟩ := not_forall.1 hown
      exact Or.inr (Or.inr ⟨u, Nat.pos_of_ne_zero fun hz ↦ hu fun _ ↦ hz⟩)
    · cases h
  | lockExclusiveLoad | lockExclusiveKey | unlockExclusiveLoad | tryLockSharedLoad | lockSharedLoad
    | lockSharedKey | unlockShared | downgradeLoad | bumpWriters | wakeWriters | bumpReaders
    | wakeReaders =>
    cases h
  | lockExclusiveCheck | lockSharedCheck | unlockAllSharedLoad =>
    simp only [exec] at h
    split_ifs at h
  | _ =>
    simp only [exec] at h
    split at h <;> cases h

/-- No recheck misses the readers-parked flag, and no step abandons it. -/
def KeepsFlags (c : Config ι (Store ι) Pc) (l : Label ι (Op ι)) : Prop :=
  FlagSurvives c l ∧ KeepsCover c l

instance (c : Config ι (Store ι) Pc) (l : Label ι (Op ι)) : Decidable (KeepsFlags c l) :=
  inferInstanceAs (Decidable (_ ∧ _))

section Runs

variable {c : Config ι (Store ι) Pc} {t : ι} {p : Pc}

/-- No wakeup on `readers_futex` is lost while the flag survives. -/
theorem lot_flagged {ok : Config ι (Store ι) Pc → Label ι (Op ι) → Prop}
    (hok : ∀ c l, ok c l → FlagSurvives c l) (h : Reach (rawMutex adaptive) ok init c) :
    Lot c.shared.readersFutex (rp c.shared.state = true) fun t ↦ readerRole (c.pcs t) := by
  refine lot_readers (fun s ↦ rp s.state = true) (fun s s' hw hr ↦ by rw [hw]; exact hr)
    (fun t s s' o hacc hw hr ↦ readersFlag_step hacc hw hr) ?_ h
  intro c t ch b key hl hpc he
  have hblocked : isWriterLocked c.shared.state = true ∨ c.shared.state &&& writersParked ≠ 0 := by
    simp only [exec] at he
    split_ifs at he with hs
    · cases he
    · rw [not_and_or, not_not] at hs
      exact hs.imp_left fun hs ↦ by simpa [isWriterLocked] using hs
  have hr := hok _ _ hl (by rw [hpc]; rfl) hblocked
  rwa [ne_eq, and_readersParked_eq_zero_iff, Bool.not_eq_false] at hr

/-- **What stays when nobody can go on**: an acquisition that has to be given back. -/
theorem held_of_stuck (h : Reach (rawMutex adaptive) KeepsFlags init c) (hpc : c.pcs t = some p)
    (hnone : ∀ u q, c.pcs u = some q → exec adaptive u .go c.shared q = none) :
    ∃ u, 0 < c.shared.shared u + c.shared.exclusive u := by
  by_contra hheld
  have hzero : ∀ u, c.shared.shared u = 0 ∧ c.shared.exclusive u = 0 := fun u ↦
    Nat.add_eq_zero_iff.1 (Nat.eq_zero_of_not_pos fun hpos ↦ hheld ⟨u, hpos⟩)
  have hcount : count c.shared.state = 0 := by
    have hs : tally c.shared.shared = 0 := tally_eq_zero_iff.2 fun u ↦ (hzero u).1
    have hx : tally c.shared.exclusive = 0 := tally_eq_zero_iff.2 fun u ↦ (hzero u).2
    rcases (reach_accounts h).1 with ⟨hone, -, -⟩ | ⟨-, hcount, -⟩ <;> omega
  have hpark : ∀ {u q}, c.pcs u = some q →
    ((∃ b, q = .lockSharedParked b) ∧ u ∈ c.shared.readersFutex.waiters) ∨
      q = .lockExclusiveParked ∧ u ∈ c.shared.writersFutex.waiters := by
    intro u q hq
    rcases waits_of_exec_eq_none (hnone u q hq) with hr | hw | ⟨v, hv⟩
    · exact Or.inl hr
    · exact Or.inr hw
    · exact absurd (hzero v).1 hv.ne'
  have hroles : ∀ u, (readerRole (c.pcs u) = .out ∨ readerRole (c.pcs u) = .asleep) ∧
      (writerRole (c.pcs u) = .out ∨ writerRole (c.pcs u) = .asleep) := by
    intro u
    cases hq : c.pcs u with
    | none => exact ⟨Or.inl rfl, Or.inl rfl⟩
    | some q =>
      rcases hpark hq with ⟨⟨b, rfl⟩, -⟩ | ⟨rfl, -⟩
      · exact ⟨Or.inr rfl, Or.inl rfl⟩
      · exact ⟨Or.inl rfl, Or.inr rfl⟩
  -- no writer sleeps, since the lock is free
  have hwriters : ¬ c.shared.writersFutex.waiters.Nonempty := by
    intro hne
    have hpos := ((lot_writers h).queued (fun u ↦ (hroles u).2) hne).1
    omega
  -- so none is on its way, and no flag keeps a reader asleep
  obtain ⟨hqueued, hcovered⟩ := reach_flags (h.mono fun _ _ hl ↦ hl.2)
  rcases hpark hpc with ⟨-, hw⟩ | ⟨-, hw⟩
  · have hrp := (lot_flagged (fun _ _ hl ↦ hl.1) h).queued (fun u ↦ (hroles u).1) ⟨t, hw⟩
    rcases hcovered hrp with hlocked | hwp
    · rw [hcount] at hlocked
      exact absurd hlocked (by decide)
    · obtain ⟨u, hu⟩ := hqueued hwp
      cases hq : c.pcs u with
      | none =>
        rw [hq] at hu
        cases hu
      | some q =>
        rw [hq] at hu
        rcases hpark hq with ⟨⟨b, rfl⟩, -⟩ | ⟨-, hw'⟩
        · cases hu
        · exact hwriters ⟨u, hw'⟩
  · exact hwriters ⟨t, hw⟩

/-- **No deadlock.** While a thread is inside a call of the lock, some thread inside a call can go
on, or an acquisition is live that has to be given back first. -/
theorem mutex_never_stuck (h : Reach (rawMutex adaptive) KeepsFlags init c)
    (hpc : c.pcs t = some p) :
    (∃ u q r, c.pcs u = some q ∧ exec adaptive u .go c.shared q = some r) ∨
      ∃ u, 0 < c.shared.shared u + c.shared.exclusive u := by
  refine or_iff_not_imp_left.2 fun hgo ↦ held_of_stuck h hpc fun u q hq ↦ ?_
  by_contra hne
  obtain ⟨r, hr⟩ := Option.ne_none_iff_exists'.1 hne
  exact hgo ⟨u, q, r, hq, hr⟩

end Runs

/-- Thread `0` sleeps behind the shared acquisition of thread `1`, which is outside. -/
theorem mutex_never_stuck_behind_reader :
    ∃ c, Reach (rawMutex 4) KeepsFlags (init : Config (Fin 2) (Store (Fin 2)) Pc) c ∧
      0 ∈ c.shared.writersFutex.waiters ∧ c.pcs 1 = none ∧
        ∃ u, 0 < c.shared.shared u + c.shared.exclusive u := by
  obtain ⟨c, hc, ht⟩ := Reach.exists_of_replay (rawMutex 4) KeepsFlags
    (init : Config (Fin 2) (Store (Fin 2)) Pc)
    (.call 1 .lockShared :: steps 1 2 ++ .call 0 .lockExclusive :: steps 0 6)
    (fun c ↦ decide (0 ∈ c.shared.writersFutex.waiters ∧ c.pcs 1 = none ∧
      c.pcs 0 = some .lockExclusiveParked))
    (by decide)
  obtain ⟨hw, hout, hpc⟩ := of_decide_eq_true ht
  refine ⟨c, hc, hw, hout, (mutex_never_stuck hc hpc).resolve_left ?_⟩
  rintro ⟨u, q, r, hq, he⟩
  rcases Fin.exists_fin_two.1 ⟨u, rfl⟩ with rfl | rfl
  · rw [hpc] at hq
    cases hq
    have hresume : c.shared.writersFutex.resume 0 .go = none := if_pos hw
    simp only [exec, hresume] at he
    cases he
  · rw [hout] at hq
    cases hq

end RawMutex

end Crossync
