import Crossync.Interleave.Parking
import Crossync.Core.SerialExact

/-!
# Parking in `SerialMutex`

A waiter snapshots the sequence, loads the word, registers itself by putting the waiter flag into
**the very word it loaded**, and sleeps if the sequence is still the one of the snapshot. The flag
is the cover of the parking pattern: it is only ever put into a held word, it stays while read
guards nest and unnest, and the release that takes it away — a last reader's or a writer's — is
bound to notify. What remains is to sort the accesses of the lock into the steps of the pattern.

## Why there is no gap between the check and the flag

A waiter puts its flag into the word by a compare-exchange from the word it examined. If the lock
was released in between, the compare-exchange fails and the waiter looks again; if it succeeds, the
lock is held and the release to come sees the flag. In this the lock differs from `RawMutex`, whose
readers set the flag and load the sequence in two accesses with a release possible in between.
-/

open Interleave

namespace Crossync

namespace SerialMutex

open SerialWord

variable {ι : Type*} [Fintype ι] [DecidableEq ι] {ids : OwnerIds ι} {adaptive : ℕ}

/-- What a thread owes or expects of `wake`. -/
def role : Option (Pc ι) → Role
  | some (.slowLoad _ _ sequence) => .keyed sequence
  | some (.slowRegister _ _ sequence _) => .keyed sequence
  | some (.slowWait _ _ sequence) => .armed sequence
  | some (.slowParked _ _) => .asleep
  | some .notifyBump => .bump
  | some .notifyWake => .wake
  | _ => .out

/-- The waiter flag is only lost to a release that owes a notification. -/
theorem waiting_step {t : ι} {s s' : Store ι} {o : Outcome (Pc ι) Ret} (hE : Exact ids s)
    (hw : WordStep ids t s s' o) (hq : waiting s.state = true) :
    waiting s'.state = true ∨ o = .goto .notifyBump := by
  have hne : s.state ≠ 0 := by
    intro hz
    rw [hz, waiting_zero] at hq
    cases hq
  cases hw with
  | same hw hr hx => exact Or.inl (hw ▸ hq)
  | register hne hw hr hx =>
    left
    rw [hw]
    exact (fields_or_waitFlag s.state).2.1
  | firstRead hfree hs => exact absurd hfree hne
  | write hfree hs => exact absurd hfree hne
  | nestRead hown hw hmax hs =>
    left
    subst hs
    exact (fields_add_one hmax).2.1.trans hq
  | dropRead a hown hs ho =>
    obtain ⟨-, -, -, hpos, -⟩ := hE.of_reads hown
    by_cases hone : readers s.state = 1
    · right
      rw [ho, if_pos ⟨hone, hq⟩]
    · left
      subst hs
      rw [Store.dropRead, if_neg hone]
      exact (fields_sub_one (by omega)).2.1.trans hq
  | dropWrite a hown hs ho =>
    right
    rw [ho, if_pos hq]

omit [Fintype ι] [DecidableEq ι] in
/-- The slow path acquires, panics, registers with the sequence it has, or starts over. -/
theorem role_slowLoop (t : ι) (read : Bool) (b : Backoff) (sequence : ℕ) (state : SerialWord.Word) :
    role (slowLoop ids t read b sequence state).pc = .out ∨
      role (slowLoop ids t read b sequence state).pc = .keyed sequence := by
  unfold slowLoop
  split_ifs <;> simp [role]

omit [Fintype ι] [DecidableEq ι] in
theorem role_unlockReadLoop (a : ι) (state : SerialWord.Word) :
    role (unlockReadLoop a state).pc = .out := by
  unfold unlockReadLoop
  split_ifs <;> rfl

/-- Every access fits the parking pattern, with the waiter flag as cover. -/
theorem exec_park {t : ι} {ch : Choice ι} {s s' : Store ι} {p : Pc ι} {o : Outcome (Pc ι) Ret}
    (hE : Exact ids s) (hk : Knows ids t s p) (h : exec ids adaptive t ch s p = some (s', o)) :
    Park t s.wake s'.wake (waiting s.state = true) (waiting s'.state = true) (role (some p))
      (role o.pc) := by
  have hcov := waiting_step hE (exec_word hE hk h)
  -- a release keeps the flag or goes on to notify
  have hrelease : s'.wake = s.wake → role (some p) = .out →
      (role o.pc = .out ∨ role o.pc = .bump) →
      Park t s.wake s'.wake (waiting s.state = true) (waiting s'.state = true) (role (some p))
        (role o.pc) := by
    intro hf hr hr'
    refine .idle hf (fun hq ↦ ?_) (by rw [hr]; trivial) (hr'.imp_right Or.inl)
    rcases hcov hq with hq | rfl
    · exact Or.inl hq
    · exact Or.inr rfl
  cases p with
  | slowSequence read b =>
    simp only [exec] at h
    cases h
    exact .key rfl id trivial rfl
  | slowLoad read b sequence =>
    simp only [exec] at h
    cases h
    refine .idle rfl Or.inl trivial ?_
    rcases role_slowLoop t read b sequence s.state with hr | hr
    · exact Or.inl hr
    · exact Or.inr (Or.inr ⟨hr, sequence, rfl⟩)
  | slowRegister read b sequence state =>
    simp only [exec] at h
    split at h
    · rename_i w hw
      obtain ⟨rfl, rfl⟩ := cas_eq_ok.1 hw
      cases h
      exact .arm sequence rfl (fields_or_waitFlag s.state).2.1 rfl rfl
    · cases h
      exact .idle rfl Or.inl trivial (Or.inl rfl)
  | slowWait read b sequence =>
    simp only [exec] at h
    split at h
    · rename_i f hf
      obtain ⟨hv, rfl⟩ := Futex.wait_eq_some hf
      cases h
      exact .sleep sequence hv rfl id rfl rfl
    · cases h
      exact .idle rfl Or.inl trivial (Or.inl rfl)
  | slowParked read b =>
    simp only [exec] at h
    split at h
    · rename_i f hf
      obtain ⟨hv, hw⟩ := Futex.resume_eq_some hf
      cases h
      exact .resume hv hw id rfl rfl
    · cases h
  | notifyBump =>
    simp only [exec] at h
    cases h
    exact .bump rfl rfl id rfl rfl
  | notifyWake =>
    simp only [exec] at h
    cases h
    exact .wake rfl rfl id rfl rfl
  | unlockReadFast a | unlockReadCas a state =>
    simp only [exec] at h
    split at h
    · cases h
      refine hrelease rfl rfl ?_
      try split_ifs
      all_goals simp [role]
    · cases h
      exact hrelease rfl rfl (Or.inl (role_unlockReadLoop _ _))
  | unlockWrite a =>
    simp only [exec] at h
    cases h
    refine hrelease rfl rfl ?_
    split_ifs <;> simp [role]
  | lockFast read | slowCas read b state next =>
    cases read <;>
    · simp only [exec] at h
      split at h
      · cases h
        exact hrelease rfl rfl (Or.inl rfl)
      · cases h
        exact hrelease rfl rfl (Or.inl rfl)
  | tryWriteGuard =>
    simp only [exec] at h
    split at h
    · cases h
      exact hrelease rfl rfl (Or.inl rfl)
    · cases h
      exact hrelease rfl rfl (Or.inl rfl)

omit [Fintype ι] in
theorem role_enter {t : ι} {op : Op ι} {s s' : Store ι} {o : Outcome (Pc ι) Ret}
    (h : enter t op s = some (s', o)) : role o.pc = .out := by
  cases op with
  | _ =>
    simp only [enter] at h
    repeat' split at h
    all_goals cases h
    all_goals rfl

section Runs

variable {ok : Config ι (Store ι) (Pc ι) → Label ι (Op ι) → Prop} {c : Config ι (Store ι) (Pc ι)}

/-- No wakeup on `wake` is lost, in any run. -/
theorem lot_wake (h : Reach (serialMutex ids adaptive) ok init c) :
    Lot c.shared.wake (waiting c.shared.state = true) fun t ↦ role (c.pcs t) := by
  refine h.invariant (I := fun c ↦
    Lot c.shared.wake (waiting c.shared.state = true) fun t ↦ role (c.pcs t)) ?_ ?_ ?_
  · exact Lot.new 0 _
  · rintro c t op ⟨s', o⟩ - hlot - hpc he
    obtain ⟨hw, hf, -⟩ := enter_spec ids he
    rw [Config.comp_put_pcs]
    refine hlot.step (.idle hf (fun hq ↦ Or.inl ?_) (by rw [hpc]; trivial)
      (Or.inl (role_enter he)))
    rwa [Config.put_shared, hw]
  · rintro c t ch p ⟨s', o⟩ hc hlot - hpc he
    obtain ⟨hE, hk⟩ := reach_exact hc
    rw [Config.comp_put_pcs]
    refine hlot.step ?_
    rw [hpc]
    exact exec_park hE (hk t p hpc) he

omit [Fintype ι] [DecidableEq ι] in
theorem role_eq_bump {q : Option (Pc ι)} (h : role q = .bump) : q = some .notifyBump := by
  unfold role at h
  split at h <;> first
    | rfl
    | cases h

omit [Fintype ι] [DecidableEq ι] in
theorem role_eq_wake {q : Option (Pc ι)} (h : role q = .wake) : q = some .notifyWake := by
  unfold role at h
  split at h <;> first
    | rfl
    | cases h

/-- The lock is free, some thread sleeps, and every other thread is outside the lock's calls or
asleep as well. -/
def Stranded (c : Config ι (Store ι) (Pc ι)) : Prop :=
  c.shared.state = 0 ∧
    ∃ t ∈ c.shared.wake.waiters, ∀ u, u ≠ t → c.pcs u = none ∨ u ∈ c.shared.wake.waiters

/-- While a thread sleeps, a guard is live and the word carries the waiter flag, or a notification
is due. -/
theorem asleep_covered (h : Reach (serialMutex ids adaptive) ok init c) {t : ι}
    (ht : t ∈ c.shared.wake.waiters) :
    (0 < liveReads c.shared + liveWrites c.shared ∧ c.shared.state &&& waitFlag ≠ 0) ∨
      ∃ u, c.pcs u = some .notifyBump ∨ c.pcs u = some .notifyWake := by
  rcases (lot_wake h).covered ⟨t, ht⟩ with ⟨u, hu⟩ | ⟨u, hu⟩ | hq
  · exact Or.inr ⟨u, Or.inr (role_eq_wake hu)⟩
  · exact Or.inr ⟨u, Or.inl (role_eq_bump hu)⟩
  · left
    have hflag : c.shared.state &&& waitFlag ≠ 0 := by
      rw [ne_eq, and_waitFlag_eq_zero_iff, hq]
      simp
    refine ⟨Nat.pos_of_ne_zero fun hz ↦ ?_, hflag⟩
    rw [(reach_exact h).1.decodes.zero_iff.2 (by omega), waiting_zero] at hq
    cases hq

/-- A thread that owes a notification is awake. -/
theorem notifier_awake (h : Reach (serialMutex ids adaptive) ok init c) {u : ι}
    (hu : c.pcs u = some .notifyBump ∨ c.pcs u = some .notifyWake) : u ∉ c.shared.wake.waiters := by
  intro hw
  have hrole := (lot_wake h).asleep u hw
  rcases hu with hu | hu <;> simp [hu, role] at hrole

/-- **No wakeup is lost.** While a thread sleeps, a guard is live and the word carries the waiter
flag, or a releasing thread has still to perform its notification; so the lock is never free with a
thread asleep and nobody else running. -/
theorem parked_thread_covered (h : Reach (serialMutex ids adaptive) Always init c) :
    (∀ t ∈ c.shared.wake.waiters,
      (0 < liveReads c.shared + liveWrites c.shared ∧ c.shared.state &&& waitFlag ≠ 0) ∨
      ∃ u, c.pcs u = some .notifyBump ∨ c.pcs u = some .notifyWake) ∧
    ¬ Stranded c := by
  refine ⟨fun t ht ↦ asleep_covered h ht, ?_⟩
  rintro ⟨hfree, t, ht, hothers⟩
  rcases asleep_covered h ht with ⟨-, hq⟩ | ⟨u, hu⟩
  · rw [hfree] at hq
    exact hq (by simp)
  · -- the notifying thread is neither outside nor asleep
    have hnot := notifier_awake h hu
    rcases hothers u (by rintro rfl; exact hnot ht) with hn | hw
    · rcases hu with hu | hu <;> rw [hu] at hn <;> cases hn
    · exact hnot hw

end Runs

/-- A run in which thread `1` sleeps behind a read guard of thread `0`. -/
theorem parked_thread_covered_behind_reader :
    ∃ c, Reach (serialMutex twoIds 4) Always
    (init : Config (Fin 2) (Store (Fin 2)) (Pc (Fin 2))) c ∧
      1 ∈ c.shared.wake.waiters ∧ ¬ Stranded c := by
  obtain ⟨c, hc, ht⟩ := Reach.exists_of_replay (serialMutex twoIds 4) Always
    (init : Config (Fin 2) (Store (Fin 2)) (Pc (Fin 2)))
    (.call 0 .lockRead :: .exec 0 .go :: .call 1 .lockWrite :: List.replicate 31 (.exec 1 .go))
    (fun c ↦ decide (1 ∈ c.shared.wake.waiters)) (by decide)
  exact ⟨c, hc, of_decide_eq_true ht, (parked_thread_covered hc).2⟩

end SerialMutex

end Crossync
