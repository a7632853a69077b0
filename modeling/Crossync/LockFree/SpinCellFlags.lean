import Crossync.LockFree.SpinCell

/-!
# Exclusion and flag hygiene of `SpinCell`

Three facts about the word hold together along every run: its count field counts the live guards
(`Accounts`), a readers-parked flag has a writer that is queued or in the lock (`Covered`), and a
writers-parked flag has a thread inside `lock_exclusive` or a live exclusive guard (`Queued`). What
an access can do to the word is said once, in `Effect`, and each fact is kept by each effect.

## The bound on readers

A slow reader adds itself to any count field that is not the writer pattern. The count it leaves is
below the pattern because fewer than `maxReaders` guards are live before the step: this is the guard
`FewReaders` on runs.

## What is not claimed

The order in which waiting threads get in. The last reader clears the writers' flag and leaves the
word free to whoever comes first, a reader or the writer that set the flag; the flag invariant says
only that a flag in the word has a reason.
-/

open Interleave

namespace Crossync

namespace SpinCell

open Word

variable {ι : Type*} [Fintype ι] [DecidableEq ι] {adaptive : ℕ}

/-- The number of shared guards that has to stay out of reach. -/
def maxReaders : ℕ := 2 ^ 62 - 2

/-- Fewer than `maxReaders` shared guards are live. -/
def FewReaders (c : Config ι (Store ι) Pc) (_ : Label ι (Op ι)) : Prop :=
  tally c.shared.shared < maxReaders

instance (c : Config ι (Store ι) Pc) (l : Label ι (Op ι)) : Decidable (FewReaders c l) :=
  inferInstanceAs (Decidable (_ < _))

/-- Inside `lock_exclusive`. -/
def locking : Option Pc → Bool
  | some .lockExclusiveFast | some .lockExclusiveLoad => true
  | some (.lockExclusiveCas _) | some (.lockExclusiveMark _) => true
  | _ => false

/-! ### What one access does to the word

The accesses, sorted by what they do to the count and to the flags. -/

/-- **What one access can do to the word and to the guards.** -/
inductive Effect (t : ι) (p : Pc) (s s' : Store ι) (o : Outcome Pc Ret) : Prop where
  | same (hs : s' = s) (hq : locking (some p) = true → locking o.pc = true)
  | markWriters (hs : s' = { s with state := s.state ||| writersParked })
      (ho : locking o.pc = true)
  | markReaders (hcov : count s.state = writerCount ∨ wp s.state = true)
      (hs : s' = { s with state := s.state ||| readersParked }) (hp : locking (some p) = false)
  | gainShared (hfree : count s.state ≠ writerCount) (hw : wp s.state = false)
      (hs : s' = s.gainShared t (s.state + oneReader))
  | gainExclusive (hfree : count s.state = 0) (hs : s' = s.gainExclusive t (s.state ||| oneWriter))
  | dropExclusive (hown : 0 < s.exclusive t) (hs : s' = s.dropExclusive t unlocked)
  | dropShared (hown : 0 < s.shared t) (hs : s' = s.dropShared t (s.state - oneReader))
      (hp : locking (some p) = false)
  | clearWriters (hw : s.state = writersParked) (hs : s' = { s with state := unlocked })

/-- What a thread knows at a program point. -/
def Knows (t : ι) (s : Store ι) : Pc → Prop
  | .lockExclusiveCas state => count state = 0
  | .lockSharedFastCas state newState => admitShared state = some newState
  | .lockSharedCas _ state newState =>
    count state ≠ writerCount ∧ wp state = false ∧ newState = state + oneReader
  | .lockSharedMark _ state => count state = writerCount ∨ wp state = true
  | .unlockExclusive => 0 < s.exclusive t
  | .unlockSharedSub => 0 < s.shared t
  | _ => True

omit [Fintype ι] [DecidableEq ι] in
theorem Knows.mono {t : ι} {s s' : Store ι} {p : Pc} (h : Knows t s p)
    (hs : s.shared t ≤ s'.shared t) (he : s.exclusive t ≤ s'.exclusive t) : Knows t s' p := by
  cases p with
  | unlockExclusive => exact Nat.lt_of_lt_of_le h he
  | unlockSharedSub => exact Nat.lt_of_lt_of_le h hs
  | _ => exact h

omit [Fintype ι] [DecidableEq ι] in
theorem lockExclusiveLoop_spec (t : ι) (s : Store ι) (state : Word) :
    locking (some (lockExclusiveLoop state)) = true ∧ Knows t s (lockExclusiveLoop state) := by
  unfold lockExclusiveLoop
  split_ifs with h
  · exact ⟨rfl, and_oneWriter_eq_zero_iff.1 h⟩
  · exact ⟨rfl, trivial⟩
  · exact ⟨rfl, trivial⟩

/-- A word that is not writer-locked takes one more reader without overflow. -/
theorem checkedAdd_eq_some {state w : Word} (h : checkedAdd state oneReader = some w) :
    w = state + oneReader := by
  unfold checkedAdd at h
  split_ifs at h
  exact (Option.some.inj h).symm

omit [Fintype ι] [DecidableEq ι] in
theorem knows_lockSharedLoop (t : ι) (s : Store ι) (b : Backoff) (state : Word) :
    Knows t s (lockSharedLoop b state) := by
  unfold lockSharedLoop
  split_ifs with h
  · split
    · rename_i w hw
      refine ⟨fun hc ↦ ?_, and_writersParked_eq_zero_iff.1 h.2, checkedAdd_eq_some hw⟩
      rw [isWriterLocked_iff.2 hc] at h
      cases h.1
    · trivial
  · trivial
  · -- the loop was left, so the word is writer-locked or has a writer queued
    show count state = writerCount ∨ wp state = true
    rw [and_writersParked_eq_zero_iff] at h
    by_cases hc : count state = writerCount
    · exact Or.inl hc
    · refine Or.inr (by_contra fun hw ↦ h ⟨?_, by simpa using hw⟩)
      rw [Bool.eq_false_iff, ne_eq, isWriterLocked_iff]
      exact hc
  · trivial

omit [Fintype ι] in
theorem exec_effect {t : ι} {ch : Choice ι} {s s' : Store ι} {p : Pc} {o : Outcome Pc Ret}
    (hk : Knows t s p) (h : exec adaptive t ch s p = some (s', o)) :
    Effect t p s s' o ∧ ∀ q, o.pc = some q → Knows t s' q := by
  cases p with
  | lockExclusiveFast =>
    simp only [exec] at h
    split at h
    · rename_i w hw
      obtain ⟨hu, rfl⟩ := cas_eq_ok.1 hw
      cases h
      refine ⟨.gainExclusive (by rw [hu]; rfl) ?_, by simp⟩
      rw [hu]
      rfl
    · cases h
      refine ⟨.same rfl fun _ ↦ rfl, ?_⟩
      rintro q ⟨⟩
      trivial
  | lockExclusiveLoad =>
    cases h
    refine ⟨.same rfl fun _ ↦ (lockExclusiveLoop_spec t s _).1, ?_⟩
    rintro q ⟨⟩
    exact (lockExclusiveLoop_spec t s _).2
  | lockExclusiveCas state =>
    simp only [exec] at h
    split at h
    · rename_i w hw
      obtain ⟨rfl, rfl⟩ := casWeak_eq_ok hw
      cases h
      exact ⟨.gainExclusive hk rfl, by simp⟩
    · cases h
      refine ⟨.same rfl fun _ ↦ (lockExclusiveLoop_spec t s _).1, ?_⟩
      rintro q ⟨⟩
      exact (lockExclusiveLoop_spec t s _).2
  | lockExclusiveMark state =>
    simp only [exec] at h
    split at h
    · rename_i w hw
      obtain ⟨rfl, rfl⟩ := casWeak_eq_ok hw
      cases h
      refine ⟨.markWriters rfl rfl, ?_⟩
      rintro q ⟨⟩
      trivial
    · cases h
      refine ⟨.same rfl fun _ ↦ (lockExclusiveLoop_spec t s _).1, ?_⟩
      rintro q ⟨⟩
      exact (lockExclusiveLoop_spec t s _).2
  | lockSharedFastLoad =>
    simp only [exec] at h
    split at h
    · rename_i w hw
      cases h
      refine ⟨.same rfl (fun hq ↦ by cases hq), ?_⟩
      rintro q ⟨⟩
      exact hw
    · cases h
      refine ⟨.same rfl (fun hq ↦ by cases hq), ?_⟩
      rintro q ⟨⟩
      trivial
  | lockSharedFastCas state newState =>
    simp only [exec] at h
    split at h
    · rename_i w hw
      obtain ⟨rfl, rfl⟩ := cas_eq_ok.1 hw
      cases h
      obtain ⟨hlt, hwp, rfl⟩ := admitShared_eq_some_iff.1 hk
      exact ⟨.gainShared (by omega) hwp rfl, by simp⟩
    · cases h
      refine ⟨.same rfl (fun hq ↦ by cases hq), ?_⟩
      rintro q ⟨⟩
      trivial
  | lockSharedLoad b =>
    cases h
    refine ⟨.same rfl (fun hq ↦ by cases hq), ?_⟩
    rintro q ⟨⟩
    exact knows_lockSharedLoop t s b _
  | lockSharedCas b state newState =>
    simp only [exec] at h
    split at h
    · rename_i w hw
      obtain ⟨rfl, rfl⟩ := casWeak_eq_ok hw
      cases h
      obtain ⟨hc, hwp, rfl⟩ := hk
      exact ⟨.gainShared hc hwp rfl, by simp⟩
    · cases h
      refine ⟨.same rfl (fun hq ↦ by cases hq), ?_⟩
      rintro q ⟨⟩
      trivial
  | lockSharedMark b state =>
    simp only [exec] at h
    split at h
    · rename_i w hw
      obtain ⟨rfl, rfl⟩ := casWeak_eq_ok hw
      cases h
      refine ⟨.markReaders hk rfl rfl, ?_⟩
      rintro q ⟨⟩
      trivial
    · cases h
      refine ⟨.same rfl (fun hq ↦ by cases hq), ?_⟩
      rintro q ⟨⟩
      trivial
  | lockSharedSpin b =>
    simp only [exec] at h
    split_ifs at h
    all_goals
      cases h
      refine ⟨.same rfl (fun hq ↦ by cases hq), ?_⟩
      rintro q ⟨⟩
      trivial
  | unlockExclusive =>
    cases h
    exact ⟨.dropExclusive hk rfl, by simp⟩
  | unlockSharedSub =>
    cases h
    refine ⟨.dropShared hk rfl rfl, fun q hq ↦ ?_⟩
    split_ifs at hq <;> cases hq
    trivial
  | unlockSharedClear =>
    simp only [exec] at h
    split at h
    · rename_i w hw
      obtain ⟨hs, rfl⟩ := cas_eq_ok.1 hw
      cases h
      exact ⟨.clearWriters hs rfl, by simp⟩
    · cases h
      exact ⟨.same rfl (fun hq ↦ by cases hq), by simp⟩

omit [Fintype ι] in
/-- A step of `t` takes no guard from another thread. -/
theorem Effect.shares_le {t u : ι} {p : Pc} {s s' : Store ι} {o : Outcome Pc Ret}
    (h : Effect t p s s' o) (hu : u ≠ t) :
    s.shared u ≤ s'.shared u ∧ s.exclusive u ≤ s'.exclusive u := by
  cases h with
  | same hs | markWriters hs | markReaders _ hs | gainShared _ _ hs | gainExclusive _ hs
  | dropExclusive _ hs | dropShared _ hs | clearWriters _ hs =>
    subst hs
    simp [Store.gainShared, Store.gainExclusive, Store.dropExclusive, Store.dropShared, hu]

/-! ### The three facts

Each is kept by each effect, so the code is not gone through again. -/

/-- **The word counts the live guards**: one exclusive guard, no shared one and the writer pattern;
or no exclusive guard and the count field is the number of shared ones. -/
def Accounts (s : Store ι) : Prop :=
  (tally s.exclusive = 1 ∧ tally s.shared = 0 ∧ count s.state = writerCount) ∨
  (tally s.exclusive = 0 ∧ tally s.shared = count s.state ∧ count s.state < writerCount)

/-- The readers-parked flag has a writer, queued or in the lock. -/
def Covered (s : Store ι) : Prop :=
  rp s.state = true → count s.state = writerCount ∨ wp s.state = true

/-- The writers-parked flag has a thread inside `lock_exclusive`, or an exclusive guard is live. -/
def Queued (c : Config ι (Store ι) Pc) : Prop :=
  wp c.shared.state = true → (∃ t, locking (c.pcs t) = true) ∨ 0 < tally c.shared.exclusive

/-- The word of a slow exclusive acquisition keeps the flags. -/
theorem fields_or_oneWriter {s : Word} (h : count s = 0) :
    count (s ||| oneWriter) = writerCount ∧ wp (s ||| oneWriter) = wp s ∧
      rp (s ||| oneWriter) = rp s := by
  refine ⟨?_, by simp, by simp⟩
  rw [count_or, h, count_oneWriter, Nat.zero_or]

theorem Accounts.step {t : ι} {p : Pc} {s s' : Store ι} {o : Outcome Pc Ret} (h : Accounts s)
    (hfew : tally s.shared < maxReaders) (he : Effect t p s s' o) : Accounts s' := by
  have hpos : 0 < writerCount := by decide
  have hmax : maxReaders + 1 = writerCount := by decide
  cases he with
  | same hs => exact hs ▸ h
  | markWriters hs =>
    subst hs
    unfold Accounts at *
    rw [count_or_writersParked]
    exact h
  | markReaders _ hs =>
    subst hs
    unfold Accounts at *
    rw [count_or_readersParked]
    exact h
  | gainShared hfree _ hs =>
    subst hs
    have hle := count_le s.state
    obtain ⟨hc, -, -⟩ := count_add_oneReader (s := s.state) (by omega)
    have ht := tally_update s.shared t (s.shared t + 1)
    unfold Accounts Store.gainShared at *
    dsimp only
    omega
  | gainExclusive hfree hs =>
    subst hs
    obtain ⟨hc, -, -⟩ := fields_or_oneWriter hfree
    have ht := tally_update s.exclusive t (s.exclusive t + 1)
    unfold Accounts Store.gainExclusive at *
    dsimp only
    omega
  | dropExclusive hown hs =>
    subst hs
    have ht := tally_update s.exclusive t (s.exclusive t - 1)
    have hle := le_tally s.exclusive t
    have hz := count_unlocked
    unfold Accounts Store.dropExclusive at *
    dsimp only
    omega
  | dropShared hown hs =>
    subst hs
    have hle := le_tally s.shared t
    have ht := tally_update s.shared t (s.shared t - 1)
    have hcount : 0 < count s.state := by
      unfold Accounts at h
      omega
    obtain ⟨hc, -, -⟩ := count_sub_oneReader hcount
    unfold Accounts Store.dropShared at *
    dsimp only
    omega
  | clearWriters hw hs =>
    subst hs
    unfold Accounts at *
    rw [hw, count_writersParked] at h
    rw [count_unlocked]
    exact h

theorem Covered.step {t : ι} {p : Pc} {s s' : Store ι} {o : Outcome Pc Ret} (hacc : Accounts s)
    (h : Covered s) (he : Effect t p s s' o) : Covered s' := by
  cases he with
  | same hs => exact hs ▸ h
  | markWriters hs =>
    subst hs
    exact fun _ ↦ Or.inr (by simp)
  | markReaders hcov hs =>
    subst hs
    intro _
    simpa using hcov
  | gainShared hfree hw hs =>
    subst hs
    have hle := count_le s.state
    obtain ⟨-, -, hr'⟩ := count_add_oneReader (s := s.state) (by omega)
    intro hr
    -- no flag was set, since nothing covered one
    rcases h (hr'.symm.trans hr) with hc | hw'
    · exact absurd hc hfree
    · rw [hw] at hw'
      cases hw'
  | gainExclusive hfree hs =>
    subst hs
    exact fun _ ↦ Or.inl (fields_or_oneWriter hfree).1
  | dropExclusive _ hs =>
    subst hs
    intro hr
    exact absurd hr (by simp [Store.dropExclusive])
  | dropShared hown hs =>
    subst hs
    have hle := le_tally s.shared t
    have hcount : 0 < count s.state ∧ count s.state < writerCount := by
      unfold Accounts at hacc
      omega
    obtain ⟨-, hw', hr'⟩ := count_sub_oneReader hcount.1
    intro hr
    rcases h (hr'.symm.trans hr) with hc | hw
    · omega
    · exact Or.inr (hw'.trans hw)
  | clearWriters _ hs =>
    subst hs
    intro hr
    exact absurd hr (by simp)

/-- What an access leaves of the writers-parked flag: its thread stays inside `lock_exclusive` or
now holds the guard, or the flag was there before and somebody else answers for it. -/
theorem Effect.queued {t : ι} {p : Pc} {s s' : Store ι} {o : Outcome Pc Ret} (hacc : Accounts s)
    (he : Effect t p s s' o) (hw : wp s'.state = true) :
    locking o.pc = true ∨ 0 < tally s'.exclusive ∨
      wp s.state = true ∧ locking (some p) = false ∧ s'.exclusive = s.exclusive := by
  cases he with
  | same hs hq =>
    subst hs
    cases hp : locking (some p) with
    | true => exact Or.inl (hq hp)
    | false => exact Or.inr (Or.inr ⟨hw, rfl, rfl⟩)
  | markWriters _ ho => exact Or.inl ho
  | markReaders _ hs hp =>
    subst hs
    refine Or.inr (Or.inr ⟨?_, hp, rfl⟩)
    simpa using hw
  | gainShared hfree hw' hs =>
    subst hs
    have hle := count_le s.state
    obtain ⟨-, hw₂, -⟩ := count_add_oneReader (s := s.state) (by omega)
    have : wp s.state = true := hw₂.symm.trans hw
    rw [hw'] at this
    cases this
  | gainExclusive _ hs =>
    subst hs
    refine Or.inr (Or.inl (Nat.lt_of_lt_of_le ?_ (le_tally _ t)))
    simp [Store.gainExclusive]
  | dropExclusive _ hs =>
    subst hs
    exact absurd hw (by simp [Store.dropExclusive])
  | dropShared hown hs hp =>
    subst hs
    have hle := le_tally s.shared t
    have hcount : 0 < count s.state := by
      unfold Accounts at hacc
      omega
    obtain ⟨-, hw', -⟩ := count_sub_oneReader hcount
    exact Or.inr (Or.inr ⟨hw'.symm.trans hw, hp, rfl⟩)
  | clearWriters _ hs =>
    subst hs
    exact absurd hw (by simp)

/-! ### Runs

The facts together along a run, under the bound on readers. -/

/-- Starting a call, or sending a guard, changes no word and no total. -/
theorem enter_spec {t : ι} {op : Op ι} {s s' : Store ι} {o : Outcome Pc Ret}
    (h : enter t op s = some (s', o)) :
    s'.state = s.state ∧ tally s'.shared = tally s.shared ∧
      tally s'.exclusive = tally s.exclusive ∧ (∀ p, o.pc = some p → Knows t s' p) ∧
      ∀ u, u ≠ t → s.shared u ≤ s'.shared u ∧ s.exclusive u ≤ s'.exclusive u := by
  cases op with
  | sendShared u =>
    simp only [enter] at h
    split_ifs at h with hu
    cases h
    exact ⟨rfl, tally_transfer hu.1 hu.2, rfl,
      by simp, fun v hv ↦ ⟨le_transfer s.shared hv, le_rfl⟩⟩
  | sendExclusive u =>
    simp only [enter] at h
    split_ifs at h with hu
    cases h
    exact ⟨rfl, rfl, tally_transfer hu.1 hu.2, by simp,
      fun v hv ↦ ⟨le_rfl, le_transfer s.exclusive hv⟩⟩
  | dropShared | dropExclusive =>
    simp only [enter] at h
    split_ifs at h with hpos
    cases h
    refine ⟨rfl, rfl, rfl, ?_, fun v _ ↦ ⟨le_rfl, le_rfl⟩⟩
    rintro p ⟨⟩
    exact hpos
  | lockShared | lockExclusive =>
    cases h
    refine ⟨rfl, rfl, rfl, ?_, fun v _ ↦ ⟨le_rfl, le_rfl⟩⟩
    rintro p ⟨⟩
    trivial

variable {c : Config ι (Store ι) Pc}

/-- The account, the flags and every thread's knowledge along a run. -/
structure Inv (c : Config ι (Store ι) Pc) : Prop where
  accounts : Accounts c.shared
  covered : Covered c.shared
  queued : Queued c
  knows : ∀ t p, c.pcs t = some p → Knows t c.shared p

theorem Inv.enter {t : ι} {op : Op ι} {s' : Store ι} {o : Outcome Pc Ret} (hI : Inv c)
    (hpc : c.pcs t = none) (he : enter t op c.shared = some (s', o)) : Inv (c.put t (s', o)) := by
  obtain ⟨hw, hs, hx, hk, hle⟩ := enter_spec he
  refine ⟨?_, ?_, fun hwp ↦ ?_, Config.forall_put hk fun u q hu hq ↦
    (hI.knows u q hq).mono (hle u hu).1 (hle u hu).2⟩
  · have := hI.accounts
    unfold Accounts at *
    rw [Config.put_shared, hw, hs, hx]
    exact this
  · have := hI.covered
    unfold Covered at *
    rw [Config.put_shared, hw]
    exact this
  · rw [Config.put_shared, hw] at hwp
    rw [Config.put_shared, hx]
    refine (hI.queued hwp).imp_left fun ⟨u, hu⟩ ↦ ⟨u, ?_⟩
    have hut : u ≠ t := by
      rintro rfl
      rw [hpc] at hu
      cases hu
    rwa [Config.put_pcs_of_ne _ _ hut]

theorem Inv.exec {t : ι} {ch : Choice ι} {p : Pc} {s' : Store ι} {o : Outcome Pc Ret} (hI : Inv c)
    (hfew : tally c.shared.shared < maxReaders) (hpc : c.pcs t = some p)
    (he : exec adaptive t ch c.shared p = some (s', o)) : Inv (c.put t (s', o)) := by
  obtain ⟨heff, hk⟩ := exec_effect (hI.knows t p hpc) he
  refine ⟨hI.accounts.step hfew heff, hI.covered.step hI.accounts heff, fun hwp ↦ ?_,
    Config.forall_put hk fun u q hu hq ↦
      (hI.knows u q hq).mono (heff.shares_le hu).1 (heff.shares_le hu).2⟩
  rcases heff.queued hI.accounts hwp with ho | hx | ⟨hw, hp, hx⟩
  · exact Or.inl ⟨t, by rwa [Config.put_pcs_self]⟩
  · exact Or.inr hx
  · rw [Config.put_shared, hx]
    refine (hI.queued hw).imp_left fun ⟨u, hu⟩ ↦ ⟨u, ?_⟩
    have hut : u ≠ t := by
      rintro rfl
      rw [hpc, hp] at hu
      cases hu
    rwa [Config.put_pcs_of_ne _ _ hut]

theorem reach_inv (h : Reach (spinCell adaptive) FewReaders init c) : Inv c := by
  refine h.invariant (I := Inv) ⟨?_, ?_, ?_, by simp [init]⟩ ?_ ?_
  · exact Or.inr ⟨tally_zero, tally_zero.trans count_unlocked.symm,
      (by decide : count unlocked < writerCount)⟩
  · exact fun hr ↦ absurd hr (by simp [init, Store.new])
  · exact fun hw ↦ absurd hw (by simp [init, Store.new])
  · rintro c t op ⟨s', o⟩ - hI - hpc he
    exact hI.enter hpc he
  · rintro c t ch p ⟨s', o⟩ - hI hfew hpc he
    exact hI.exec hfew hpc he

/-! ### The record follows the calls

The guards are a ghost of the model, and this is what ties them to the calls. -/

/-- What a call does to the record of the live guards, shared or exclusive. -/
inductive Duty where
  | acquire (shared : Bool)
  | release (shared : Bool)
  deriving DecidableEq

/-- The duty that a call at a program point still has. -/
def duty : Pc → Option Duty
  | .lockExclusiveFast | .lockExclusiveLoad | .lockExclusiveCas _ | .lockExclusiveMark _ =>
    some (.acquire false)
  | .lockSharedFastLoad | .lockSharedFastCas _ _ | .lockSharedLoad _ | .lockSharedCas _ _ _
  | .lockSharedMark _ _ | .lockSharedSpin _ => some (.acquire true)
  | .unlockExclusive => some (.release false)
  | .unlockSharedSub => some (.release true)
  | .unlockSharedClear => none

/-- The live shared and exclusive guards after a duty of thread `t`. -/
def Duty.effect (t : ι) (k : Duty) (_ : Outcome Pc Ret) (l : (ι → ℕ) × (ι → ℕ)) :
    (ι → ℕ) × (ι → ℕ) :=
  match k with
  | .acquire true => (Function.update l.1 t (l.1 t + 1), l.2)
  | .acquire false => (l.1, Function.update l.2 t (l.2 t + 1))
  | .release true => (Function.update l.1 t (l.1 t - 1), l.2)
  | .release false => (l.1, Function.update l.2 t (l.2 t - 1))

/-- How a call that has done its duty returns. -/
def Duty.Reports : Duty → Ret → Prop
  | .acquire shared, r => r = if shared then .sharedGuard else .exclusiveGuard
  | .release _, r => r = .unit

/-- The live guards. -/
def Store.holdings (s : Store ι) : (ι → ℕ) × (ι → ℕ) := (s.shared, s.exclusive)

theorem duty_lockExclusiveLoop (state : Word) :
    duty (lockExclusiveLoop state) = some (.acquire false) := by
  unfold lockExclusiveLoop
  split_ifs <;> rfl

theorem duty_lockSharedLoop (b : Backoff) (state : Word) :
    duty (lockSharedLoop b state) = some (.acquire true) := by
  unfold lockSharedLoop
  repeat' split
  all_goals rfl

omit [Fintype ι] in
/-- **The record follows the calls.** -/
theorem exec_follows {t : ι} {ch : Choice ι} {s s' : Store ι} {p : Pc} {o : Outcome Pc Ret}
    (he : exec adaptive t ch s p = some (s', o)) :
    Follows duty (Duty.effect t) Duty.Reports p s.holdings s'.holdings o := by
  cases p with
  | lockExclusiveLoad =>
    cases he
    exact .stay (duty_lockExclusiveLoop _)
  | lockSharedLoad b =>
    cases he
    exact .stay (duty_lockSharedLoop b _)
  | lockExclusiveFast =>
    simp only [exec] at he
    split at he <;> cases he
    · exact .finish rfl rfl rfl
    · exact .stay rfl
  | lockExclusiveCas state =>
    simp only [exec] at he
    split at he <;> cases he
    · exact .finish rfl rfl rfl
    · exact .stay (duty_lockExclusiveLoop _)
  | lockExclusiveMark state =>
    simp only [exec] at he
    split at he <;> cases he
    · exact .stay rfl
    · exact .stay (duty_lockExclusiveLoop _)
  | lockSharedFastCas state newState | lockSharedCas b state newState =>
    simp only [exec] at he
    split at he <;> cases he
    · exact .finish rfl rfl rfl
    · exact .stay rfl
  | unlockExclusive =>
    cases he
    exact .finish rfl rfl rfl
  | unlockSharedSub =>
    cases he
    split_ifs
    · exact .proceed rfl rfl rfl
    · exact .finish rfl rfl rfl
  | unlockSharedClear =>
    simp only [exec] at he
    split at he <;> cases he
    · exact .over rfl
    · exact .over rfl
  | lockSharedFastLoad | lockSharedMark | lockSharedSpin =>
    simp only [exec] at he
    split at he <;> cases he
    · exact .stay rfl
    · exact .stay rfl

/-- **Exclusion and flag hygiene.** In every reachable state the word decodes to the live guards, a
readers-parked flag comes with a queued or active writer, and a writers-parked flag with a thread
inside `lock_exclusive` or a live exclusive guard. So a cell at rest is `UNLOCKED`, and while a flag
keeps readers out of a lock no writer holds, a thread is inside `lock_exclusive`. The guards that
are live are those that the calls have returned and that no drop has given back. -/
theorem guards_and_flags (h : Reach (spinCell adaptive) FewReaders init c) :
    (isWriterLocked c.shared.state = true ↔
      tally c.shared.exclusive = 1 ∧ tally c.shared.shared = 0) ∧
    (isWriterLocked c.shared.state = false →
      tally c.shared.exclusive = 0 ∧ readersCount c.shared.state = tally c.shared.shared) ∧
    (c.shared.state &&& readersParked ≠ 0 →
      c.shared.state &&& writersParked ≠ 0 ∨ isWriterLocked c.shared.state = true) ∧
    (c.shared.state &&& writersParked ≠ 0 →
      (∃ t, locking (c.pcs t) = true) ∨ 0 < tally c.shared.exclusive) ∧
    (c.Quiet → tally c.shared.shared = 0 → tally c.shared.exclusive = 0 →
      c.shared.state = unlocked) ∧
    (c.shared.state &&& writersParked ≠ 0 → isWriterLocked c.shared.state = false →
      ∃ t, locking (c.pcs t) = true) ∧
    (∀ t ch p s' o, c.pcs t = some p → exec adaptive t ch c.shared p = some (s', o) →
      Follows duty (Duty.effect t) Duty.Reports p c.shared.holdings s'.holdings o) := by
  obtain ⟨hacc, hcov, hq, -⟩ := reach_inv h
  simp only [ne_eq, and_readersParked_eq_zero_iff, and_writersParked_eq_zero_iff,
    Bool.not_eq_false, isWriterLocked_iff, Bool.eq_false_iff (b := isWriterLocked _)]
  have hone : ∀ hw : count c.shared.state ≠ writerCount, tally c.shared.exclusive = 0 ∧
      tally c.shared.shared = count c.shared.state := by
    intro hw
    rcases hacc with ⟨-, -, hc⟩ | ⟨he, hs, -⟩
    · exact absurd hc hw
    · exact ⟨he, hs⟩
  refine ⟨?_, fun hw ↦ ⟨(hone hw).1, ?_⟩, fun hr ↦ (hcov hr).symm, hq, fun hquiet hs he ↦ ?_,
    fun hw hl ↦ ?_, fun _ _ _ _ _ _ ↦ exec_follows⟩
  · unfold Accounts at hacc
    omega
  · rw [readersCount_eq hw, (hone hw).2]
  · have hwp : wp c.shared.state = false := by
      rw [Bool.eq_false_iff]
      intro hw
      rcases hq hw with ⟨t, ht⟩ | hx
      · rw [hquiet t] at ht
        cases ht
      · omega
    have hcount : count c.shared.state = 0 ∧ count c.shared.state ≠ writerCount := by
      unfold Accounts at hacc
      omega
    refine eq_unlocked_iff.2 ⟨hcount.1, hwp, Bool.eq_false_iff.2 fun hr ↦ ?_⟩
    rcases hcov hr with hc | hw
    · exact hcount.2 hc
    · rw [hwp] at hw
      cases hw
  · rcases hq hw with ht | hx
    · exact ht
    · have := (hone hl).1
      omega

/-- `n` further accesses of thread `t`. -/
def steps {ι : Type*} (t : ι) (n : ℕ) : List (Label ι (Op ι)) := List.replicate n (.exec t .go)

/-- A writer queues behind a reader, and the flag it sets keeps a second reader out. -/
theorem guards_and_flags_queued :
    ∃ c, Reach (spinCell 4) FewReaders (init : Config (Fin 3) (Store (Fin 3)) Pc) c ∧
      c.pcs 2 = some (.lockSharedLoad (.new 4)) ∧ ∃ t, locking (c.pcs t) = true := by
  obtain ⟨c, hc, ht⟩ := Reach.exists_of_replay (spinCell 4) FewReaders
    (init : Config (Fin 3) (Store (Fin 3)) Pc)
    (.call 0 .lockShared :: steps 0 2 ++ .call 1 .lockExclusive :: steps 1 3 ++
      .call 2 .lockShared :: steps 2 1)
    (fun c ↦ decide (c.pcs 2 = some (.lockSharedLoad (.new 4)) ∧
      c.shared.state &&& writersParked ≠ 0 ∧ isWriterLocked c.shared.state = false)) (by decide)
  obtain ⟨hpc, hw, hl⟩ := of_decide_eq_true ht
  exact ⟨c, hc, hpc, (guards_and_flags hc).2.2.2.2.2.1 hw hl⟩

end SpinCell

end Crossync
