import Crossync.Core.SMutexHolds
import Crossync.Core.SMutexParking
import Crossync.Core.SCondVar

/-!
# The tokens of an `SCondVar`

Tokens and wakes are issued separately, and a token may be taken by another thread than the one that
was woken. What ties them together is that a waiter sleeps only on the sequence word that it loaded
*before* it saw no token: tokens added since then belong to notifications that have not bumped the
word yet. From then on a notification that adds a token also wakes a sleeper, if there is one. So
**while anybody sleeps, the tokens are at most the awake waiters plus the notifications that still
owe a wake** (`Tokens.covered`), and in a state with sleepers and nobody awake there is no token
left (`no_token_unserved`).

The other direction fails: a notification counts waiters that have been granted a token already, so
tokens can outlive the waiters (`tokens_outlive_waiters`), and a later `wait` then returns at once.
They do not in the runs in which no notification adds more tokens than there are waiters without one
(`no_token_left`).

## The argument in one line

A sleeper loaded the sequence before it saw no token, so every token that came later belongs to a
notification which has not bumped since: it will bump, and then wake.

## What each result rests on

* `no_token_unserved` rests on `Tokens.covered` alone, in all runs.
* `no_token_left` needs a condition on the notifications, since the code adds tokens for waiters
  that have been granted one already.
* Neither needs the notifier to hold the mutex.
-/

open Interleave

namespace Crossync

namespace SCondVar

variable {ι : Type*} [Fintype ι] [DecidableEq ι] {ids : SMutex.ThreadIds ι} {adaptive : ℕ}

/-! ### The lock

A waiter gives its guard back before it sleeps and takes it again afterwards, so the mutex sees a
run of its own. -/

/-- The program point of the lock inside a program point. -/
def mutexPc : Pc → Option SMutex.Pc
  | .mutex p | .wait _ (.unlock p) | .wait _ (.lock p) => some p
  | _ => none

/-- Where a thread stands with the lock. -/
def Stage (t : ι) (m : SMutex.Store ι) : Pc → Prop
  | .wait false .register => 0 < m.exclusives t
  | .wait true .register => 0 < m.nested t + m.groups t
  | .wait _ (.unlock p) => SMutex.releases p = true
  | .wait isGroup (.lock p) => SMutex.acquires isGroup p = true
  | _ => True

omit [Fintype ι] [DecidableEq ι] in
/-- Where a thread stands with its guard depends on its own guards only. -/
theorem Stage.mono {t : ι} {m m' : SMutex.Store ι} {p : Pc} (h : Stage t m p)
    (he : m'.exclusives t = m.exclusives t) (hn : m'.nested t = m.nested t)
    (hg : m'.groups t = m.groups t) : Stage t m' p := by
  cases p with
  | wait g pt =>
    cases pt with
    | register =>
      cases g with
      | false => exact lt_of_lt_of_eq h he.symm
      | true =>
        rw [Stage, hn, hg]
        exact h
    | _ => cases g <;> exact h
  | _ => trivial

/-- **The condition variable keeps to the protocol of its lock.** -/
structure Disciplined (ids : SMutex.ThreadIds ι) (adaptive : ℕ)
    (c : Config ι (Store ι) Pc) : Prop where
  run : Reach (SMutex.sMutex ids adaptive) Always SMutex.init (c.view Store.mutex mutexPc)
  stage : ∀ t p, c.pcs t = some p → Stage t c.shared.mutex p

section Lock

variable {c : Config ι (Store ι) Pc} {t : ι} {ch : Choice ι} {s' : Store ι} {p : Pc}
  {o : Outcome Pc Ret}

omit [Fintype ι] in
/-- A step outside the lock, which may start a call of it. -/
theorem Disciplined.put_apart (h : Disciplined ids adaptive c) (hpc : c.pcs t = some p)
    (hp : mutexPc p = none) (hm : s'.mutex = c.shared.mutex)
    (hq : ∀ q, o.pc = some q → Stage t c.shared.mutex q ∧ (mutexPc q = none ∨
      ∃ op q', mutexPc q = some q' ∧ SMutex.enter t op c.shared.mutex =
        some (c.shared.mutex, .goto q'))) :
    Disciplined ids adaptive (c.put t (s', o)) := by
  have hnone : (c.pcs t).bind mutexPc = none := by rw [hpc]; exact hp
  refine ⟨?_, Config.forall_put (L := fun u (s : Store ι) q ↦ Stage u s.mutex q) (fun q ho ↦ ?_)
    fun u q _ hu ↦ ?_⟩
  · cases ho : o.pc with
    | none => exact h.run.view_same hm (by rw [hnone]; simp [ho])
    | some q =>
      obtain ⟨-, hq' | ⟨op, q', hq', he⟩⟩ := hq q ho
      · exact h.run.view_same hm (by rw [hnone]; simp [ho, hq'])
      · refine h.run.view_call op trivial hnone (o := .goto q') ?_ (by simp [ho, hq'])
        rw [hm]
        exact he
  · rw [hm]
    exact (hq q ho).1
  · rw [hm]
    exact h.stage u q hu

omit [Fintype ι] in
/-- An access of the lock. -/
theorem Disciplined.put_mutex (h : Disciplined ids adaptive c) (hpc : c.pcs t = some p)
    {p' : SMutex.Pc} {o' : Outcome SMutex.Pc SMutex.Ret} (hp : mutexPc p = some p')
    (he : SMutex.exec ids adaptive t ch c.shared.mutex p' = some (s'.mutex, o'))
    (ho : o'.pc = o.pc.bind mutexPc) (hq : ∀ q, o.pc = some q → Stage t s'.mutex q) :
    Disciplined ids adaptive (c.put t (s', o)) := by
  have hk := SMutex.exec_keeps he
  refine ⟨h.run.view_exec ch trivial hpc hp he ho,
    Config.forall_put (L := fun u (s : Store ι) q ↦ Stage u s.mutex q) hq fun u q hu hq ↦ ?_⟩
  exact (h.stage u q hq).mono (hk.exclusives u hu) (hk.nested u hu) (hk.groups u hu)

/-- What an access of the lock inside `wait` returns. -/
theorem Disciplined.release_ends (h : Disciplined ids adaptive c) {g : Bool} {q : SMutex.Pc}
    {m : SMutex.Store ι} {o' : Outcome SMutex.Pc SMutex.Ret}
    (hpc : c.pcs t = some (.wait g (.unlock q)))
    (he : SMutex.exec ids adaptive t ch c.shared.mutex q = some (m, o')) :
    (∃ q', o' = .goto q' ∧ SMutex.releases q' = true) ∨ o' = .ret .unit := by
  obtain ⟨_, hE⟩ := SMutex.reach_exact h.run
  have hview : (c.view Store.mutex mutexPc).pcs t = some q := by rw [Config.view_pcs, hpc]; rfl
  have hstage := h.stage t _ hpc
  exact SMutex.exec_releases hE hview (by cases g <;> exact hstage) he

omit [Fintype ι] [DecidableEq ι] in
/-- A call of the lock by itself. -/
theorem enter_mutex_pc {op : SMutex.Op} {m : SMutex.Store ι} {o' : Outcome SMutex.Pc SMutex.Ret}
    (he : SMutex.enter t op c.shared.mutex = some (m, o')) :
    m = c.shared.mutex ∧ ∃ q, o' = .goto q := by
  cases op with
  | lock | lockGroup =>
    cases he
    exact ⟨rfl, _, rfl⟩
  | rawUnlock | rawUnlockGroup =>
    simp only [SMutex.enter] at he
    split_ifs at he
    cases he
    exact ⟨rfl, _, rfl⟩

/-- The loop on the tokens is outside the mutex. -/
theorem tokenLoop_apart (g : Bool) (v k : ℕ) : mutexPc (.wait g (tokenLoop v k)) = none := by
  unfold tokenLoop
  split_ifs <;> rfl

/-- The loop on the tokens is past the registration. -/
theorem tokenLoop_ne_register (v k : ℕ) : tokenLoop v k ≠ .register := by
  unfold tokenLoop
  split_ifs <;> simp

omit [Fintype ι] [DecidableEq ι] in
/-- Outside the mutex and past the registration a waiter needs no guard. -/
theorem stage_of_apart (g : Bool) {pt : WaitPoint} (m : SMutex.Store ι) (hpt : pt ≠ .register)
    (h : mutexPc (.wait g pt) = none) : Stage t m (.wait g pt) := by
  cases pt with
  | register => exact absurd rfl hpt
  | unlock | lock => cases h
  | _ => cases g <;> trivial

omit [Fintype ι] in
/-- A step of `wait` between its accesses of the lock. -/
theorem Disciplined.put_wait (h : Disciplined ids adaptive c) {g : Bool} {pt pt' : WaitPoint}
    (hpc : c.pcs t = some (.wait g pt)) (hp : mutexPc (.wait g pt) = none)
    (hm : s'.mutex = c.shared.mutex) (hr : pt' ≠ .register) (hp' : mutexPc (.wait g pt') = none) :
    Disciplined ids adaptive (c.put t (s', (.goto (.wait g pt') : Outcome Pc Ret))) := by
  refine h.put_apart hpc hp hm ?_
  rintro _ ⟨⟩
  exact ⟨stage_of_apart g _ hr hp', Or.inl hp'⟩

/-- Every access keeps the discipline of the guards. -/
theorem exec_disciplined (h : Disciplined ids adaptive c) (hpc : c.pcs t = some p)
    (he : exec ids adaptive t ch c.shared p = some (s', o)) :
    Disciplined ids adaptive (c.put t (s', o)) := by
  cases p with
  | mutex q =>
    simp only [exec] at he
    split at he
    · cases he
    · rename_i m q' hx
      cases he
      exact h.put_mutex hpc rfl hx rfl (by rintro _ ⟨⟩; trivial)
    · rename_i m r hx
      cases he
      exact h.put_mutex hpc rfl hx rfl (by rintro _ ⟨⟩)
  | notify pt =>
    simp only [exec] at he
    split at he
    · cases he
    · cases he
      exact h.put_apart hpc rfl rfl (by rintro _ ⟨⟩; exact ⟨trivial, Or.inl rfl⟩)
    · cases he
      exact h.put_apart hpc rfl rfl (by rintro _ ⟨⟩)
  | wait g pt =>
    have hstage := h.stage t _ hpc
    cases pt with
    | register =>
      cases he
      refine h.put_apart hpc rfl rfl ?_
      rintro _ ⟨⟩
      cases g with
      | false =>
        exact ⟨rfl, Or.inr ⟨.rawUnlock, _, rfl, if_pos hstage⟩⟩
      | true => exact ⟨rfl, Or.inr ⟨.rawUnlockGroup, _, rfl, if_pos hstage⟩⟩
    | unlock q =>
      cases hx : SMutex.exec ids adaptive t ch c.shared.mutex q with
      | none =>
        simp only [exec, execWait, hx] at he
        cases he
      | some r =>
        obtain ⟨m, o'⟩ := r
        obtain ⟨q', rfl, hq'⟩ | rfl := h.release_ends hpc hx
        · simp only [exec, execWait, hx] at he
          cases he
          exact h.put_mutex hpc rfl hx rfl (by rintro _ ⟨⟩; cases g <;> exact hq')
        · simp only [exec, execWait, hx] at he
          cases he
          exact h.put_mutex hpc rfl hx rfl (by rintro _ ⟨⟩; cases g <;> trivial)
    | lock q =>
      have hacq : SMutex.acquires g q = true := by cases g <;> exact hstage
      cases hx : SMutex.exec ids adaptive t ch c.shared.mutex q with
      | none =>
        simp only [exec, execWait, hx] at he
        cases he
      | some r =>
        obtain ⟨m, o'⟩ := r
        obtain ⟨q', rfl, hq'⟩ | rfl | ⟨-, rfl⟩ := SMutex.exec_acquires hacq hx
        · simp only [exec, execWait, hx] at he
          cases he
          exact h.put_mutex hpc rfl hx rfl (by rintro _ ⟨⟩; cases g <;> exact hq')
        all_goals
          simp only [exec, execWait, hx] at he
          cases he
          exact h.put_mutex hpc rfl hx rfl (by rintro _ ⟨⟩)
    | deregister =>
      cases he
      refine h.put_apart hpc rfl rfl ?_
      rintro _ ⟨⟩
      cases g with
      | false => exact ⟨rfl, Or.inr ⟨.lock, _, rfl, rfl⟩⟩
      | true => exact ⟨rfl, Or.inr ⟨.lockGroup, _, rfl, rfl⟩⟩
    | loadFutex =>
      cases he
      exact h.put_wait hpc rfl rfl (by simp) rfl
    | loadToWake v =>
      cases he
      exact h.put_wait hpc rfl rfl (tokenLoop_ne_register v _) (tokenLoop_apart g v _)
    | consume v k =>
      simp only [exec, execWait] at he
      cases hx : casWeak ch c.shared.condvar.toWake k (k - 1) with
      | ok k' =>
        rw [hx] at he
        cases he
        exact h.put_wait hpc rfl rfl (by simp) rfl
      | error k' =>
        rw [hx] at he
        cases he
        exact h.put_wait hpc rfl rfl (tokenLoop_ne_register v _) (tokenLoop_apart g v _)
    | sleep v =>
      simp only [exec, execWait] at he
      cases hx : c.shared.condvar.futex.wait t v with
      | none | some f =>
        rw [hx] at he
        cases he
        exact h.put_wait hpc rfl rfl (by simp) rfl
    | parked =>
      simp only [exec, execWait] at he
      cases hx : c.shared.condvar.futex.resume t ch with
      | none =>
        rw [hx] at he
        cases he
      | some f =>
        rw [hx] at he
        cases he
        exact h.put_wait hpc rfl rfl (by simp) rfl

omit [Fintype ι] in
/-- So does the start of every call. -/
theorem enter_disciplined {op : Op} (h : Disciplined ids adaptive c) (hpc : c.pcs t = none)
    (he : enter t op c.shared = some (s', o)) : Disciplined ids adaptive (c.put t (s', o)) := by
  have hnone : (c.pcs t).bind mutexPc = none := by rw [hpc]; rfl
  -- a call that does not start in the lock
  have happart : ∀ q, o = .goto q → mutexPc q = none → Stage t c.shared.mutex q →
      s'.mutex = c.shared.mutex → Disciplined ids adaptive (c.put t (s', o)) := by
    rintro q rfl hq hst hm
    refine ⟨h.run.view_same hm (by rw [hnone]; exact hq),
      Config.forall_put (L := fun u (s : Store ι) q ↦ Stage u s.mutex q) ?_ fun u r _ hr ↦ ?_⟩
    · rintro _ ⟨⟩
      rw [hm]
      exact hst
    · rw [hm]
      exact h.stage u r hr
  cases op with
  | mutex op =>
    cases hx : SMutex.enter t op c.shared.mutex with
    | none =>
      simp only [enter, hx] at he
      cases he
    | some r =>
      obtain ⟨m, o'⟩ := r
      obtain ⟨rfl, q, rfl⟩ := enter_mutex_pc hx
      simp only [enter, hx] at he
      cases he
      refine ⟨h.run.view_call op trivial hnone hx rfl,
        Config.forall_put (L := fun u (s : Store ι) q ↦ Stage u s.mutex q) ?_ fun u r _ hr ↦
          h.stage u r hr⟩
      rintro _ ⟨⟩
      trivial
  | wait g =>
    cases g with
    | false | true =>
      simp only [enter] at he
      split_ifs at he with hguard
      cases he
      exact happart _ rfl rfl hguard rfl
  | notifyOne | notifyAll =>
    cases he
    exact happart _ rfl rfl trivial rfl

end Lock

/-! ### Waiters and notifications

The token account: what was added, what was taken, and what is owed by notifications between their
accesses. -/

/-- Registered as waiter, and without a token. -/
def unserved : Option Pc → Bool
  | some (.wait _ (.unlock _)) | some (.wait _ .loadFutex) | some (.wait _ (.loadToWake _)) => true
  | some (.wait _ (.consume _ _)) | some (.wait _ (.sleep _)) | some (.wait _ .parked) => true
  | _ => false

/-- Still counted, with a token. -/
def leaving : Option Pc → ℕ
  | some (.wait _ .deregister) => 1
  | _ => 0

/-- The tokens of a notification that has added them and has not bumped the futex. -/
def unbumped : Option Pc → ℕ
  | some (.notify (.bump _ n)) => n
  | _ => 0

/-- The tokens of a notification that has added them and has not issued its wake. -/
def pending : Option Pc → ℕ
  | some (.notify (.bump _ n)) | some (.notify (.wake _ n)) => n
  | _ => 0

/-- Inside `notify_one` or `notify_all`. -/
def notifying : Option Pc → Bool
  | some (.notify _) => true
  | _ => false

/-- The part of a thread in the account. -/
def part (q : Option Pc) : Bool × ℕ × ℕ × ℕ := (unserved q, leaving q, pending q, unbumped q)

/-- A notification that has yet to bump the word has yet to wake. -/
theorem unbumped_le_pending (q : Option Pc) : unbumped q ≤ pending q := by
  unfold unbumped pending
  split <;> simp

/-- What a thread has read: a sequence word that was current then, and a token if it tries to take
one; and a `notify_one` adds one token. -/
def Grounded (w : Words ι) : Pc → Prop
  | .wait _ (.loadToWake v) | .wait _ (.sleep v) => v ≤ w.futex.value
  | .wait _ (.consume v k) => v ≤ w.futex.value ∧ 0 < k
  | .notify (.addToWake false n) | .notify (.bump false n) | .notify (.wake false n) => n = 1
  | _ => True

omit [Fintype ι] [DecidableEq ι] in
/-- A sequence word that was read stays behind the word, which only grows. -/
theorem Grounded.mono {w w' : Words ι} {p : Pc} (h : Grounded w p)
    (hv : w.futex.value ≤ w'.futex.value) : Grounded w' p := by
  cases p with
  | mutex => trivial
  | wait g pt =>
    cases pt with
    | loadToWake | sleep => exact le_trans h hv
    | consume => exact ⟨le_trans h.1 hv, h.2⟩
    | _ => trivial
  | notify pt =>
    cases pt with
    | loadWaiters => trivial
    | addToWake all | bump all | wake all => cases all <;> exact h

/-- **Tokens and wakes.** Last, the two facts that follow each other around: a waiter that is about
to sleep on the current sequence word saw the tokens run out, so whatever there is now belongs to
notifications that have not bumped the word; and while anybody sleeps there are no more tokens than
awake waiters and wakes to come. -/
structure Tokens (c : Config ι (Store ι) Pc) : Prop where
  registered : ∀ t, t ∈ c.shared.condvar.registered ↔ unserved (c.pcs t) = true
  waiters : c.shared.condvar.waiters =
    c.shared.condvar.registered.card + tally fun t ↦ leaving (c.pcs t)
  asleep : ∀ t ∈ c.shared.condvar.futex.waiters, ∃ g, c.pcs t = some (.wait g .parked)
  grounded : ∀ t p, c.pcs t = some p → Grounded c.shared.condvar p
  armed : ∀ t g, c.pcs t = some (.wait g (.sleep c.shared.condvar.futex.value)) →
    c.shared.condvar.toWake ≤ tally fun u ↦ unbumped (c.pcs u)
  covered : c.shared.condvar.futex.waiters.Nonempty → c.shared.condvar.toWake ≤
    (c.shared.condvar.registered \ c.shared.condvar.futex.waiters).card +
      tally fun u ↦ pending (c.pcs u)

section Steps

variable {c : Config ι (Store ι) Pc} {t : ι} {ch : Choice ι} {s' : Store ι} {p : Pc}
  {o : Outcome Pc Ret}

/-- Only a parked thread is among the sleepers. -/
theorem Tokens.notMem (h : Tokens c) (hpc : ∀ g, c.pcs t ≠ some (.wait g .parked)) :
    t ∉ c.shared.condvar.futex.waiters := by
  intro ht
  obtain ⟨g, hg⟩ := h.asleep t ht
  exact hpc g hg

/-- Everybody who sleeps is registered. -/
theorem Tokens.asleep_subset (h : Tokens c) :
    c.shared.condvar.futex.waiters ⊆ c.shared.condvar.registered := by
  intro t ht
  obtain ⟨g, hg⟩ := h.asleep t ht
  rw [h.registered t, hg]
  rfl

/-- **A step keeps the account** if the mover is where the words say and the two bounds hold
afterwards. -/
theorem Tokens.put (h : Tokens c)
    (hreg : ∀ u, u ≠ t → (u ∈ s'.condvar.registered ↔ u ∈ c.shared.condvar.registered))
    (hself : t ∈ s'.condvar.registered ↔ unserved o.pc = true)
    (hwaiters : s'.condvar.waiters + c.shared.condvar.registered.card + leaving (c.pcs t) =
      c.shared.condvar.waiters + s'.condvar.registered.card + leaving o.pc)
    (hasleep : ∀ u ∈ s'.condvar.futex.waiters, u ≠ t → u ∈ c.shared.condvar.futex.waiters)
    (hasleep' : t ∈ s'.condvar.futex.waiters → ∃ g, o.pc = some (.wait g .parked))
    (hval : c.shared.condvar.futex.value ≤ s'.condvar.futex.value)
    (hq : ∀ q, o.pc = some q → Grounded s'.condvar q)
    (harmed : ∀ u g, (c.put t (s', o)).pcs u = some (.wait g (.sleep s'.condvar.futex.value)) →
      s'.condvar.toWake ≤ tally fun u ↦ unbumped ((c.put t (s', o)).pcs u))
    (hcovered : s'.condvar.futex.waiters.Nonempty → s'.condvar.toWake ≤
      (s'.condvar.registered \ s'.condvar.futex.waiters).card +
        tally fun u ↦ pending ((c.put t (s', o)).pcs u)) : Tokens (c.put t (s', o)) where
  registered u := by
    by_cases hu : u = t
    · subst hu
      rw [Config.put_pcs_self]
      exact hself
    · rw [Config.put_pcs_of_ne _ _ hu, Config.put_shared, hreg u hu]
      exact h.registered u
  waiters := by
    have hold := h.waiters
    have htally := tally_put leaving c t (s', o)
    simp only [Config.put_shared] at htally ⊢
    omega
  asleep u hu := by
    by_cases hut : u = t
    · subst hut
      rw [Config.put_pcs_self]
      exact hasleep' hu
    · rw [Config.put_pcs_of_ne _ _ hut]
      exact h.asleep u (hasleep u hu hut)
  grounded := Config.forall_put (L := fun _ (s : Store ι) q ↦ Grounded s.condvar q) hq
    fun u q _ hu ↦ (h.grounded u q hu).mono hval
  armed := harmed
  covered := hcovered

/-- Two words that differ at most in the promises of `notify_all`. -/
structure Same (w w' : Words ι) : Prop where
  futex : w'.futex = w.futex
  waiters : w'.waiters = w.waiters
  toWake : w'.toWake = w.toWake
  registered : w'.registered = w.registered

omit [Fintype ι] [DecidableEq ι] in
theorem Same.rfl {w : Words ι} : Same w w := ⟨Eq.refl _, Eq.refl _, Eq.refl _, Eq.refl _⟩

omit [Fintype ι] in
/-- The account of who was released is no part of the words. -/
theorem same_release (w : Words ι) (t : ι) (all : Bool) : Same w (w.release t all) := by
  unfold Words.release
  split_ifs
  · exact ⟨rfl, rfl, rfl, rfl⟩
  · exact .rfl

/-- A step that leaves the words of the condition variable alone, of a thread whose part in the
account does not change. A thread that is about to sleep has seen that there is no token. -/
theorem Tokens.still (h : Tokens c) (hs : Same c.shared.condvar s'.condvar) (hpc : c.pcs t = some p)
    (hpart : part o.pc = part (some p)) (hp : ∀ g, p ≠ .wait g .parked)
    (hq : ∀ q, o.pc = some q → Grounded c.shared.condvar q)
    (hsleep : ∀ g v, o.pc = some (.wait g (.sleep v)) → c.shared.condvar.toWake = 0) :
    Tokens (c.put t (s', o)) := by
  simp only [part, Prod.mk.injEq, ← hpc] at hpart
  obtain ⟨hreg, hlv, hpend, hbump⟩ := hpart
  refine h.put (by simp [hs.registered]) ?_ (by rw [hs.waiters, hs.registered, hlv])
    (fun u hu _ ↦ by rwa [hs.futex] at hu) (fun ht ↦ ?_) (by rw [hs.futex])
    (fun q ho ↦ (hq q ho).mono (by rw [hs.futex])) ?_ ?_
  · rw [hs.registered, hreg]
    exact h.registered t
  · rw [hs.futex] at ht
    exact absurd ht (h.notMem fun g hg ↦ hp g (by rw [hpc] at hg; exact Option.some.inj hg))
  · rw [hs.futex, hs.toWake, tally_put_same hbump]
    intro u g hu
    by_cases hut : u = t
    · subst hut
      rw [Config.put_pcs_self] at hu
      rw [hsleep g _ hu]
      exact Nat.zero_le _
    · rw [Config.put_pcs_of_ne _ _ hut] at hu
      exact h.armed u g hu
  · rw [hs.futex, hs.toWake, hs.registered, tally_put_same hpend]
    exact h.covered

/-- What the loop over the tokens does next. -/
theorem tokenLoop_cases (v k : ℕ) :
    (tokenLoop v k = .consume v k ∧ 0 < k) ∨ (tokenLoop v k = .sleep v ∧ k = 0) := by
  unfold tokenLoop
  split_ifs with hk
  · exact Or.inl ⟨rfl, hk⟩
  · exact Or.inr ⟨rfl, by omega⟩

/-- Looking at the tokens. -/
theorem Tokens.look (h : Tokens c) {g : Bool} {pt : WaitPoint} {v k : ℕ}
    (hpc : c.pcs t = some (.wait g pt)) (hpt : unserved (some (.wait g pt)) = true)
    (hne : pt ≠ .parked) (hv : v ≤ c.shared.condvar.futex.value)
    (hk : k = c.shared.condvar.toWake) :
    Tokens (c.put t (c.shared, (.goto (.wait g (tokenLoop v k)) : Outcome Pc Ret))) := by
  have hpart : part (some (.wait g pt)) = (true, 0, 0, 0) := by
    cases pt with
    | register | deregister | lock => cases hpt
    | _ => rfl
  rcases tokenLoop_cases v k with ⟨heq, hpos⟩ | ⟨heq, hzero⟩ <;> rw [heq]
  · exact h.still .rfl hpc (by rw [hpart]; rfl) (by simp [hne]) (by rintro _ ⟨⟩; exact ⟨hv, hpos⟩)
      (by rintro _ _ ⟨⟩)
  · exact h.still .rfl hpc (by rw [hpart]; rfl) (by simp [hne]) (by rintro _ ⟨⟩; exact hv)
      (fun _ _ _ ↦ hk.symm.trans hzero)

/-- A waiter takes a token. -/
theorem Tokens.consume (h : Tokens c) {g : Bool} {v k : ℕ}
    (hpc : c.pcs t = some (.wait g (.consume v k))) (hpos : 0 < c.shared.condvar.toWake) :
    Tokens (c.put t ({ c.shared with condvar :=
        { c.shared.condvar with toWake := c.shared.condvar.toWake - 1 }.served t },
      (.goto (.wait g .deregister) : Outcome Pc Ret))) := by
  have hmem : t ∈ c.shared.condvar.registered := (h.registered t).2 (by rw [hpc]; rfl)
  have hawake : t ∉ c.shared.condvar.futex.waiters := h.notMem (by rw [hpc]; simp)
  have hcard := Finset.card_erase_add_one hmem
  have hdiff : (c.shared.condvar.registered.erase t \ c.shared.condvar.futex.waiters).card + 1 =
      (c.shared.condvar.registered \ c.shared.condvar.futex.waiters).card := by
    rw [Finset.erase_sdiff_comm]
    exact Finset.card_erase_add_one (Finset.mem_sdiff.2 ⟨hmem, hawake⟩)
  refine h.put (fun u hu ↦ ?_) ?_ ?_ (fun u hu _ ↦ hu) (fun ht ↦ absurd ht hawake) le_rfl
    (by rintro _ ⟨⟩; trivial) ?_ ?_
  · simp [Words.served, hu]
  · simp [Words.served, unserved]
  · simp only [Words.served, hpc, leaving, Outcome.pc_goto]
    omega
  · intro u g' hu
    replace hu := Config.pcs_of_put (by simp) hu
    rw [tally_put_same (by rw [hpc]; rfl)]
    have := h.armed u g' hu
    simp only [Words.served]
    omega
  · intro hne
    rw [tally_put_same (by rw [hpc]; rfl)]
    have := h.covered hne
    simp only [Words.served]
    omega

/-- A waiter goes to sleep: nobody has bumped the word since it saw no token. -/
theorem Tokens.sleep (h : Tokens c) {g : Bool}
    (hpc : c.pcs t = some (.wait g (.sleep c.shared.condvar.futex.value))) :
    Tokens (c.put t ({ c.shared with condvar := { c.shared.condvar with
        futex :=
          { c.shared.condvar.futex with waiters := insert t c.shared.condvar.futex.waiters } } },
      (.goto (.wait g .parked) : Outcome Pc Ret))) := by
  have hbound : c.shared.condvar.toWake ≤ tally fun u ↦ pending (c.pcs u) :=
    (h.armed t g hpc).trans (Finset.sum_le_sum fun u _ ↦ unbumped_le_pending _)
  refine h.put (fun _ _ ↦ Iff.rfl) ?_ (by rw [hpc]; rfl)
    (fun u hu hut ↦ Finset.mem_of_mem_insert_of_ne hu hut)
    (fun _ ↦ ⟨g, rfl⟩) le_rfl (by rintro _ ⟨⟩; trivial) ?_ fun _ ↦ ?_
  · rw [h.registered t, hpc]
    rfl
  · intro u g' hu
    rw [tally_put_same (by rw [hpc]; rfl)]
    exact h.armed t g hpc
  · rw [tally_put_same (by rw [hpc]; rfl)]
    exact hbound.trans (Nat.le_add_left _ _)

/-- A sleeper returns. -/
theorem Tokens.resume (h : Tokens c) {g : Bool} (hpc : c.pcs t = some (.wait g .parked))
    {f : Futex ι ℕ} (hf : c.shared.condvar.futex.resume t ch = some f) :
    Tokens (c.put t ({ c.shared with condvar := { c.shared.condvar with futex := f } },
      (.goto (.wait g .loadFutex) : Outcome Pc Ret))) := by
  obtain ⟨hv, hw⟩ := Futex.resume_eq_some hf
  refine h.put (fun _ _ ↦ Iff.rfl) ?_ (by rw [hpc]; rfl) (fun u hu _ ↦ ?_) (fun ht ↦ ?_)
    (by rw [hv])
    (by rintro _ ⟨⟩; trivial) ?_ fun hne ↦ ?_
  · rw [h.registered t, hpc]
    rfl
  · rw [hw] at hu
    exact Finset.mem_of_mem_erase hu
  · rw [hw] at ht
    exact absurd rfl (Finset.ne_of_mem_erase ht)
  · rw [hv]
    intro u g' hu
    replace hu := Config.pcs_of_put (by simp) hu
    rw [tally_put_same (by rw [hpc]; rfl)]
    exact h.armed u g' hu
  · rw [tally_put_same (by rw [hpc]; rfl)]
    rw [hw] at hne ⊢
    have hold := h.covered (hne.mono (Finset.erase_subset _ _))
    have hsub : (c.shared.condvar.registered \ c.shared.condvar.futex.waiters).card ≤
        (c.shared.condvar.registered \ c.shared.condvar.futex.waiters.erase t).card :=
      Finset.card_le_card (Finset.sdiff_subset_sdiff subset_rfl (Finset.erase_subset _ _))
    exact hold.trans (Nat.add_le_add_right hsub _)

/-- A notification adds its tokens. -/
theorem Tokens.add (h : Tokens c) {all : Bool} {n : ℕ}
    (hpc : c.pcs t = some (.notify (.addToWake all n)))
    (hf : s'.condvar.futex = c.shared.condvar.futex)
    (hreg : s'.condvar.registered = c.shared.condvar.registered)
    (hw : s'.condvar.waiters = c.shared.condvar.waiters)
    (hk : s'.condvar.toWake = c.shared.condvar.toWake + n) :
    Tokens (c.put t (s', (.goto (.notify (.bump all n)) : Outcome Pc Ret))) := by
  obtain ⟨o, ho⟩ : ∃ o : Outcome Pc Ret, o = .goto (.notify (.bump all n)) := ⟨_, rfl⟩
  have hbump : tally (fun u ↦ unbumped ((c.put t (s', o)).pcs u)) + 0 =
      tally (fun u ↦ unbumped (c.pcs u)) + n := tally_put_of (by rw [hpc]; rfl) (by rw [ho]; rfl)
  have hpend : tally (fun u ↦ pending ((c.put t (s', o)).pcs u)) + 0 =
      tally (fun u ↦ pending (c.pcs u)) + n := tally_put_of (by rw [hpc]; rfl) (by rw [ho]; rfl)
  rw [← ho]
  have hawake : t ∉ c.shared.condvar.futex.waiters := h.notMem (by rw [hpc]; simp)
  refine h.put (fun u _ ↦ by rw [hreg]) ?_ (by rw [hreg, hw, hpc, ho]; rfl)
    (fun u hu _ ↦ by rwa [hf] at hu)
    (fun ht ↦ absurd (by rwa [hf] at ht) hawake) (by rw [hf]) ?_ ?_ fun hne ↦ ?_
  · rw [hreg, h.registered t, hpc, ho]
    rfl
  · rw [ho]
    rintro _ ⟨⟩
    have hn := h.grounded t _ hpc
    cases all <;> exact hn
  · rw [hf]
    intro u g' hu
    replace hu := Config.pcs_of_put (by simp [ho]) hu
    have := h.armed u g' hu
    rw [hk]
    omega
  · rw [hf] at hne
    have := h.covered hne
    rw [hf, hreg, hk]
    omega

/-- A notification bumps the sequence word: nobody is about to sleep on the new value. -/
theorem Tokens.bump (h : Tokens c) {all : Bool} {n : ℕ}
    (hpc : c.pcs t = some (.notify (.bump all n))) :
    Tokens (c.put t ({ c.shared with condvar := { c.shared.condvar with
        futex := { c.shared.condvar.futex with value := c.shared.condvar.futex.value + 1 } } },
      (.goto (.notify (.wake all n)) : Outcome Pc Ret))) := by
  have hawake : t ∉ c.shared.condvar.futex.waiters := h.notMem (by rw [hpc]; simp)
  refine h.put (fun _ _ ↦ Iff.rfl) ?_ (by rw [hpc]; rfl) (fun u hu _ ↦ hu)
    (fun ht ↦ absurd ht hawake)
    (Nat.le_succ _) ?_ ?_ fun hne ↦ ?_
  · rw [h.registered t, hpc]
    rfl
  · rintro _ ⟨⟩
    have hn := h.grounded t _ hpc
    cases all <;> exact hn
  · intro u g' hu
    replace hu := Config.pcs_of_put (by simp) hu
    have hle : c.shared.condvar.futex.value + 1 ≤ c.shared.condvar.futex.value := h.grounded u _ hu
    omega
  · rw [tally_put_same (by rw [hpc]; rfl)]
    exact h.covered hne

/-- A notification wakes: everybody, or somebody if anybody sleeps. -/
theorem Tokens.wake (h : Tokens c) {all : Bool} {n : ℕ}
    (hpc : c.pcs t = some (.notify (.wake all n))) {r : Ret}
    (hv : s'.condvar.futex.value = c.shared.condvar.futex.value)
    (hreg : s'.condvar.registered = c.shared.condvar.registered)
    (hw : s'.condvar.waiters = c.shared.condvar.waiters)
    (hk : s'.condvar.toWake = c.shared.condvar.toWake)
    (hf : s'.condvar.futex.waiters = ∅ ∨ all = false ∧ ∃ u ∈ c.shared.condvar.futex.waiters,
      s'.condvar.futex.waiters = c.shared.condvar.futex.waiters.erase u) :
    Tokens (c.put t (s', (.ret r : Outcome Pc Ret))) := by
  obtain ⟨o, ho⟩ : ∃ o : Outcome Pc Ret, o = .ret r := ⟨_, rfl⟩
  have hpend : tally (fun u ↦ pending ((c.put t (s', o)).pcs u)) + n =
      tally (fun u ↦ pending (c.pcs u)) + 0 := tally_put_of (by rw [hpc]; rfl) (by rw [ho]; rfl)
  rw [← ho]
  have hsub : s'.condvar.futex.waiters ⊆ c.shared.condvar.futex.waiters := by
    rcases hf with hf | ⟨-, u, -, hf⟩ <;> rw [hf]
    · exact Finset.empty_subset _
    · exact Finset.erase_subset _ _
  have hawake : t ∉ c.shared.condvar.futex.waiters := h.notMem (by rw [hpc]; simp)
  refine h.put (fun u _ ↦ by rw [hreg]) ?_ (by rw [hreg, hw, hpc, ho]; rfl) (fun u hu _ ↦ hsub hu)
    (fun ht ↦ absurd (hsub ht) hawake) (by rw [hv]) (by rw [ho]; rintro _ ⟨⟩) ?_ fun hne ↦ ?_
  · rw [hreg, h.registered t, hpc, ho]
    rfl
  · rw [hv, hk]
    intro u g' hu
    replace hu := Config.pcs_of_put (by simp [ho]) hu
    rw [tally_put_same (by rw [hpc, ho]; rfl)]
    exact h.armed u g' hu
  · obtain hf | ⟨rfl, u, hu, hf⟩ := hf
    · rw [hf] at hne
      cases hne.ne_empty rfl
    -- one sleeper more is awake, and one wake less is to come
    have hone : n = 1 := h.grounded t _ hpc
    have hold := h.covered ⟨u, hu⟩
    have hcard : (c.shared.condvar.registered \ c.shared.condvar.futex.waiters.erase u).card =
        (c.shared.condvar.registered \ c.shared.condvar.futex.waiters).card + 1 := by
      rw [Finset.sdiff_erase (h.asleep_subset hu)]
      exact Finset.card_insert_of_notMem fun hmem ↦ (Finset.mem_sdiff.1 hmem).2 hu
    rw [hk, hreg, hf, hcard]
    omega

/-- A registration. -/
theorem Tokens.register (h : Tokens c) {g : Bool} (hpc : c.pcs t = some (.wait g .register)) :
    Tokens (c.put t ({ c.shared with condvar := { c.shared.condvar with
        waiters := c.shared.condvar.waiters + 1
        registered := insert t c.shared.condvar.registered } },
      (.goto (.wait g (.unlock (releasePc g))) : Outcome Pc Ret))) := by
  have hnot : t ∉ c.shared.condvar.registered := by
    rw [h.registered t, hpc]
    simp [unserved]
  have hawake : t ∉ c.shared.condvar.futex.waiters := h.notMem (by rw [hpc]; simp)
  refine h.put (fun u hu ↦ by simp [hu]) (by simp [unserved]) ?_ (fun u hu _ ↦ hu)
    (fun ht ↦ absurd ht hawake) le_rfl (by rintro _ ⟨⟩; trivial) ?_ fun hne ↦ ?_
  · simp only [hpc, leaving, Outcome.pc_goto, Finset.card_insert_of_notMem hnot]
    omega
  · intro u g' hu
    replace hu := Config.pcs_of_put (by simp) hu
    rw [tally_put_same (by rw [hpc]; rfl)]
    exact h.armed u g' hu
  · rw [tally_put_same (by rw [hpc]; rfl)]
    refine (h.covered hne).trans (Nat.add_le_add_right (Finset.card_le_card ?_) _)
    exact Finset.sdiff_subset_sdiff (Finset.subset_insert _ _) subset_rfl

/-- The end of a registration. -/
theorem Tokens.deregister (h : Tokens c) {g : Bool} (hpc : c.pcs t = some (.wait g .deregister)) :
    Tokens (c.put t ({ c.shared with condvar := { c.shared.condvar with
        waiters := c.shared.condvar.waiters - 1 } },
      (.goto (.wait g (.lock (acquirePc g))) : Outcome Pc Ret))) := by
  have hawake : t ∉ c.shared.condvar.futex.waiters := h.notMem (by rw [hpc]; simp)
  have hpos : leaving (c.pcs t) ≤ _ := le_tally (fun u ↦ leaving (c.pcs u)) t
  have hw := h.waiters
  refine h.put (fun _ _ ↦ Iff.rfl) ?_ ?_ (fun u hu _ ↦ hu)
    (fun ht ↦ absurd ht hawake) le_rfl (by rintro _ ⟨⟩; trivial) ?_ fun hne ↦ ?_
  · rw [h.registered t, hpc]
    rfl
  · have hone : leaving (c.pcs t) = 1 := by
      rw [hpc]
      rfl
    rw [hone] at hpos ⊢
    simp only [leaving, Outcome.pc_goto]
    omega
  · intro u g' hu
    replace hu := Config.pcs_of_put (by simp) hu
    rw [tally_put_same (by rw [hpc]; rfl)]
    exact h.armed u g' hu
  · rw [tally_put_same (by rw [hpc]; rfl)]
    exact h.covered hne

/-- **The step lemma of the tokens.** -/
theorem exec_tokens (h : Tokens c) (hD : Disciplined ids adaptive c) (hpc : c.pcs t = some p)
    (he : exec ids adaptive t ch c.shared p = some (s', o)) : Tokens (c.put t (s', o)) := by
  cases p with
  | mutex q =>
    simp only [exec] at he
    split at he
    · cases he
    · cases he
      exact h.still .rfl hpc rfl (by simp) (by rintro _ ⟨⟩; trivial) (by rintro _ _ ⟨⟩)
    · cases he
      exact h.still .rfl hpc rfl (by simp) (by rintro _ ⟨⟩) (by rintro _ _ ⟨⟩)
  | wait g pt =>
    cases pt with
    | register =>
      cases he
      exact h.register hpc
    | unlock q =>
      cases hx : SMutex.exec ids adaptive t ch c.shared.mutex q with
      | none =>
        simp only [exec, execWait, hx] at he
        cases he
      | some r =>
        obtain ⟨m, o'⟩ := r
        obtain ⟨q', rfl, -⟩ | rfl := hD.release_ends hpc hx
        all_goals
          simp only [exec, execWait, hx] at he
          cases he
          exact h.still .rfl hpc rfl (by simp) (by rintro _ ⟨⟩; trivial) (by rintro _ _ ⟨⟩)
    | loadFutex =>
      cases he
      exact h.still .rfl hpc rfl (by simp) (by rintro _ ⟨⟩; exact le_rfl) (by rintro _ _ ⟨⟩)
    | loadToWake v =>
      cases he
      exact h.look hpc rfl (by simp) (h.grounded t _ hpc) rfl
    | consume v k =>
      simp only [exec, execWait] at he
      cases hx : casWeak ch c.shared.condvar.toWake k (k - 1) with
      | ok k' =>
        rw [hx] at he
        obtain ⟨rfl, rfl⟩ := casWeak_eq_ok hx
        cases he
        exact h.consume hpc (h.grounded t _ hpc).2
      | error k' =>
        rw [hx] at he
        obtain rfl := casWeak_eq_error hx
        cases he
        exact h.look hpc rfl (by simp) (h.grounded t _ hpc).1 rfl
    | sleep v =>
      simp only [exec, execWait] at he
      cases hx : c.shared.condvar.futex.wait t v with
      | none =>
        rw [hx] at he
        cases he
        exact h.still .rfl hpc rfl (by simp) (by rintro _ ⟨⟩; trivial) (by rintro _ _ ⟨⟩)
      | some f =>
        obtain ⟨rfl, rfl⟩ := Futex.wait_eq_some hx
        rw [hx] at he
        cases he
        exact h.sleep hpc
    | parked =>
      simp only [exec, execWait] at he
      cases hx : c.shared.condvar.futex.resume t ch with
      | none =>
        rw [hx] at he
        cases he
      | some f =>
        rw [hx] at he
        cases he
        exact h.resume hpc hx
    | deregister =>
      cases he
      exact h.deregister hpc
    | lock q =>
      simp only [exec, execWait] at he
      cases hx : SMutex.exec ids adaptive t ch c.shared.mutex q with
      | none =>
        rw [hx] at he
        cases he
      | some r =>
        obtain ⟨m, o'⟩ := r
        rw [hx] at he
        cases o' with
        | goto =>
          cases he
          exact h.still .rfl hpc rfl (by simp) (by rintro _ ⟨⟩; trivial) (by rintro _ _ ⟨⟩)
        | ret =>
          cases he
          exact h.still .rfl hpc rfl (by simp) (by rintro _ ⟨⟩) (by rintro _ _ ⟨⟩)
  | notify pt =>
    cases pt with
    | loadWaiters all =>
      by_cases hpos : 0 < c.shared.condvar.waiters
      · simp only [exec, execNotify, if_pos hpos] at he
        cases he
        exact h.still .rfl hpc rfl (by simp) (by rintro _ ⟨⟩; cases all <;> trivial)
          (by rintro _ _ ⟨⟩)
      · simp only [exec, execNotify, if_neg hpos] at he
        cases he
        exact h.still (same_release _ _ _) hpc rfl (by simp) (by rintro _ ⟨⟩) (by rintro _ _ ⟨⟩)
    | addToWake all n =>
      cases he
      exact h.add hpc rfl rfl rfl rfl
    | bump all n =>
      cases he
      exact h.bump hpc
    | wake all n =>
      simp only [exec, execNotify] at he
      cases all with
      | true =>
        cases he
        exact h.wake hpc rfl rfl rfl rfl (Or.inl rfl)
      | false =>
        cases hx : c.shared.condvar.futex.wakeOne ch with
        | none =>
          simp only [Bool.false_eq_true, if_false, hx] at he
          cases he
        | some f =>
          simp only [Bool.false_eq_true, if_false, hx] at he
          cases he
          refine h.wake hpc (Futex.wakeOne_value hx) rfl rfl rfl ?_
          exact (Futex.wakeOne_waiters hx).imp_right fun hf ↦ ⟨rfl, hf⟩

/-- The start of a call moves no token. -/
theorem enter_tokens {op : Op} (h : Tokens c) (hpc : c.pcs t = none)
    (he : enter t op c.shared = some (s', o)) : Tokens (c.put t (s', o)) := by
  obtain ⟨q, rfl, hs, hpart, hq, hsleep⟩ : ∃ q, o = .goto q ∧ Same c.shared.condvar s'.condvar ∧
      part (some q) = part none ∧ Grounded c.shared.condvar q ∧
      ∀ g, q ≠ .wait g (.sleep s'.condvar.futex.value) := by
    cases op with
    | mutex op =>
      cases hx : SMutex.enter t op c.shared.mutex with
      | none =>
        simp only [enter, hx] at he
        cases he
      | some r =>
        obtain ⟨m, o'⟩ := r
        obtain ⟨rfl, q, rfl⟩ := enter_mutex_pc hx
        simp only [enter, hx] at he
        cases he
        exact ⟨_, rfl, .rfl, rfl, trivial, by simp⟩
    | wait g =>
      cases g with
      | false | true =>
        simp only [enter] at he
        split_ifs at he
        cases he
        exact ⟨_, rfl, .rfl, rfl, trivial, by simp⟩
    | notifyOne =>
      cases he
      exact ⟨_, rfl, .rfl, rfl, trivial, by simp⟩
    | notifyAll =>
      cases he
      exact ⟨_, rfl, ⟨rfl, rfl, rfl, rfl⟩, rfl, trivial, by simp⟩
  simp only [part, Prod.mk.injEq, ← hpc] at hpart
  obtain ⟨hreg, hlv, hpend, hbump⟩ := hpart
  refine h.put (by simp [hs.registered]) ?_ (by rw [hs.waiters, hs.registered, ← hlv]; rfl)
    (fun u hu _ ↦ by rwa [hs.futex] at hu) (fun ht ↦ ?_) (by rw [hs.futex])
    (by rintro _ ⟨⟩; exact hq.mono (by rw [hs.futex])) ?_ ?_
  · rw [hs.registered, h.registered t, ← hreg]
    rfl
  · rw [hs.futex] at ht
    exact absurd ht (h.notMem (by rw [hpc]; simp))
  · rw [hs.toWake, tally_put_same hbump]
    intro u g hu
    by_cases hut : u = t
    · subst hut
      rw [Config.put_pcs_self] at hu
      exact absurd (Option.some.inj hu) (hsleep g)
    · rw [Config.put_pcs_of_ne _ _ hut, hs.futex] at hu
      exact h.armed u g hu
  · rw [hs.futex, hs.toWake, hs.registered, tally_put_same hpend]
    exact h.covered

end Steps

section Runs

variable {ok : Config ι (Store ι) Pc → Label ι Op → Prop} {c : Config ι (Store ι) Pc}

/-- The discipline holds along every run. -/
theorem reach_disciplined (hc : Reach (sCondVar ids adaptive) ok init c) :
    Disciplined ids adaptive c := by
  refine hc.invariant (I := Disciplined ids adaptive) ⟨.refl, by simp [init]⟩ ?_ ?_
  · rintro c t op ⟨s', o⟩ - h - hpc he
    exact enter_disciplined h hpc he
  · rintro c t ch p ⟨s', o⟩ - h - hpc he
    exact exec_disciplined h hpc he

/-- **The token invariant holds along every run.** -/
theorem reach_tokens (hc : Reach (sCondVar ids adaptive) ok init c) : Tokens c := by
  refine hc.invariant (I := Tokens) ?_ ?_ ?_
  · exact
      ⟨by
        simp [init, Store.new, Words.new, unserved], by simp [init, Store.new, Words.new, leaving],
      by simp [init, Store.new, Words.new, Futex.new], by simp [init], by simp [init],
      by simp [init, Store.new, Words.new]⟩
  · rintro c t op ⟨s', o⟩ - h - hpc he
    exact enter_tokens h hpc he
  · rintro c t ch p ⟨s', o⟩ hr h - hpc he
    exact exec_tokens h (reach_disciplined hr) hpc he

omit [DecidableEq ι] in
/-- Nobody is about to add tokens or to wake: there are no wakes to come. -/
theorem pending_eq_zero (h : ∀ t, notifying (c.pcs t) = false) :
    (tally fun t ↦ pending (c.pcs t)) = 0 := by
  refine tally_eq_zero_iff.2 fun t ↦ ?_
  have ht := h t
  unfold pending
  split
  · rename_i hpc
    rw [hpc] at ht
    cases ht
  · rename_i hpc
    rw [hpc] at ht
    cases ht
  · rfl

/-- **No token is left unserved.** A waiter is registered exactly from its registration to the token
it takes. While a waiter is blocked, the tokens are at most the registered waiters that are not
blocked plus the tokens of the notifications whose wake is still to come; so if there is a token
while a waiter is blocked, a notification is under way or some registered waiter is not blocked. -/
theorem no_token_unserved (hc : Reach (sCondVar ids adaptive) ok init c) :
    (∀ t, t ∈ c.shared.condvar.registered ↔ unserved (c.pcs t) = true) ∧
    c.shared.condvar.futex.waiters ⊆ c.shared.condvar.registered ∧
    (c.shared.condvar.futex.waiters.Nonempty → c.shared.condvar.toWake ≤
      (c.shared.condvar.registered \ c.shared.condvar.futex.waiters).card +
        tally fun t ↦ pending (c.pcs t)) ∧
    ¬ (0 < c.shared.condvar.toWake ∧ c.shared.condvar.futex.waiters.Nonempty ∧
      (∀ t, notifying (c.pcs t) = false) ∧
      c.shared.condvar.registered ⊆ c.shared.condvar.futex.waiters) := by
  have h := reach_tokens hc
  refine ⟨h.registered, h.asleep_subset, h.covered, ?_⟩
  rintro ⟨hpos, hne, hquiet, hall⟩
  have hbound := h.covered hne
  rw [Finset.sdiff_eq_empty_iff_subset.2 hall, Finset.card_empty, pending_eq_zero hquiet] at hbound
  omega

end Runs

/-- Thread `t` locks, waits and sleeps. -/
def oneAsleep {ι : Type*} (t : ι) : List (Label ι Op) :=
  (.call t (.mutex .lock) :: List.replicate 4 (.exec t .go)) ++
  (.call t (.wait false) :: List.replicate 9 (.exec t .go))

/-- Thread `0` has added a token while thread `1` sleeps, and has not woken it yet. -/
theorem no_token_unserved_one :
    ∃ c : Config (Fin 2) (Store (Fin 2)) Pc, Reach (sCondVar SMutex.twoIds 4) Always init c ∧
      c.shared.condvar.toWake = 1 ∧ c.shared.condvar.futex.waiters = {1} ∧
      c.shared.condvar.toWake ≤
        (c.shared.condvar.registered \ c.shared.condvar.futex.waiters).card +
          tally fun t ↦ pending (c.pcs t) := by
  obtain ⟨c, hc, ht⟩ := Reach.exists_of_replay (sCondVar SMutex.twoIds 4) Always
    (init : Config (Fin 2) (Store (Fin 2)) Pc)
    (oneAsleep 1 ++ [.call 0 .notifyOne, .exec 0 .go, .exec 0 .go])
    (fun c ↦ decide (c.shared.condvar.toWake = 1 ∧ c.shared.condvar.futex.waiters = {1}))
    (by decide +kernel)
  obtain ⟨h₁, h₂⟩ := of_decide_eq_true ht
  exact ⟨c, hc, h₁, h₂, (no_token_unserved hc).2.2.1
    (by rw [h₂]; exact Finset.singleton_nonempty _)⟩

/-! ### Tokens that outlive their waiters

Two notifications for one waiter leave a token behind. The condition that excludes it is a bound on
what a notification adds. -/

/-- Inside a call of the condition variable. -/
def calling : Option Pc → Bool
  | some (.wait _ _) | some (.notify _) => true
  | _ => false

/-- **A token outlives its waiter.** Two notifications see the same waiter and both add a token. The
waiter takes one, leaves and unlocks; nobody is inside a call, and a token is left. -/
theorem tokens_outlive_waiters :
    ∃ c : Config (Fin 2) (Store (Fin 2)) Pc, Reach (sCondVar SMutex.twoIds 4) Always init c ∧
      c.Quiet ∧ c.shared.condvar.waiters = 0 ∧ c.shared.condvar.toWake = 1 := by
  obtain ⟨c, hc, ht⟩ := Reach.exists_of_replay (sCondVar SMutex.twoIds 4) Always
    (init : Config (Fin 2) (Store (Fin 2)) Pc)
    (oneAsleep 1 ++ (.call 0 .notifyOne :: List.replicate 3 (.exec 0 .go)) ++ [.exec 0 (.pick 1)] ++
      (.call 0 .notifyOne :: List.replicate 4 (.exec 0 .go)) ++ List.replicate 9 (.exec 1 .go) ++
      (.call 1 (.mutex .rawUnlock) :: List.replicate 5 (.exec 1 .go)))
    (fun c ↦ decide ((∀ t, c.pcs t = none) ∧ c.shared.condvar.waiters = 0 ∧
      c.shared.condvar.toWake = 1)) (by decide +kernel)
  obtain ⟨h₁, h₂, h₃⟩ := of_decide_eq_true ht
  exact ⟨c, hc, h₁, h₂, h₃⟩

/-- How a step moves the tokens, the waiters without one, and what they are promised. -/
inductive Moves (t : ι) (w w' : Words ι) : Pc → Prop where
  /-- At most a registration. -/
  | none (p : Pc) (toWake : w'.toWake = w.toWake) (counted : w'.counted = w.counted)
      (owed : w'.owed = w.owed) (released : w'.released = w.released)
      (registered : w'.registered = w.registered ∨ w'.registered = insert t w.registered) :
        Moves t w w' p
  | consume (g : Bool) (v : ℕ) (pos : 0 < w.toWake)
      (eq : w' = { w with toWake := w.toWake - 1 }.served t) :
        Moves t w w' (.wait g (.consume v w.toWake))
  | add (all : Bool) (n : ℕ) (eq : w' = { w with
      toWake := w.toWake + n, owed := if all then w.owed ∪ w.counted t else w.owed }) :
      Moves t w w' (.notify (.addToWake all n))
  /-- A `notify_all` returns. -/
  | release (pt : NotifyPoint) (toWake : w'.toWake = w.toWake)
    (registered : w'.registered = w.registered)
      (counted : w'.counted = Function.update w.counted t ∅) (owed : w'.owed = w.owed)
      (released : w'.released = w.released ∪ w.counted t)
      (ends : pt = .loadWaiters true ∧ w.waiters = 0 ∨ ∃ n, pt = .wake true n) :
      Moves t w w' (.notify pt)

omit [Fintype ι] in
/-- A step of a `wait`. -/
theorem exec_wait {t : ι} {ch : Choice ι} {s s' : Store ι} {g : Bool} {pt : WaitPoint}
    {o : Outcome Pc Ret} (he : exec ids adaptive t ch s (.wait g pt) = some (s', o)) :
    (∃ pt', execWait ids adaptive t ch s g pt = some (s', .goto pt') ∧ o = .goto (.wait g pt')) ∨
    ∃ r, execWait ids adaptive t ch s g pt = some (s', .ret r) ∧ o = .ret (.mutex r) := by
  simp only [exec] at he
  split at he
  · cases he
  · rename_i hx
    cases he
    exact Or.inl ⟨_, hx, rfl⟩
  · rename_i hx
    cases he
    exact Or.inr ⟨_, hx, rfl⟩

section Moving

variable {c : Config ι (Store ι) Pc} {t : ι} {ch : Choice ι} {s' : Store ι} {p : Pc}
  {o : Outcome Pc Ret}

/-- Every access is one of the moves. -/
theorem exec_moves (h : Tokens c) (hpc : c.pcs t = some p)
    (he : exec ids adaptive t ch c.shared p = some (s', o)) :
    Moves t c.shared.condvar s'.condvar p := by
  cases p with
  | mutex q =>
    simp only [exec] at he
    repeat' split at he
    all_goals
      cases he
      try exact .none _ rfl rfl rfl rfl (Or.inl rfl)
  | wait g pt =>
    cases pt with
    | register =>
      cases he
      exact .none _ rfl rfl rfl rfl (Or.inr rfl)
    | consume v k =>
      simp only [exec, execWait] at he
      cases hx : casWeak ch c.shared.condvar.toWake k (k - 1) with
      | ok k' =>
        rw [hx] at he
        obtain ⟨rfl, rfl⟩ := casWeak_eq_ok hx
        cases he
        exact .consume g v (h.grounded t _ hpc).2 rfl
      | error k' =>
        rw [hx] at he
        cases he
        exact .none _ rfl rfl rfl rfl (Or.inl rfl)
    | _ =>
      obtain ⟨_, hx, rfl⟩ | ⟨_, hx, rfl⟩ := exec_wait he
      all_goals
        simp only [execWait] at hx
        repeat' split at hx
        all_goals
          cases hx
          try exact .none _ rfl rfl rfl rfl (Or.inl rfl)
  | notify pt =>
    cases pt with
    | loadWaiters all =>
      by_cases hpos : 0 < c.shared.condvar.waiters
      · simp only [exec, execNotify, if_pos hpos] at he
        cases he
        exact .none _ rfl rfl rfl rfl (Or.inl rfl)
      · simp only [exec, execNotify, if_neg hpos] at he
        cases he
        cases all with
        | false => exact .none _ rfl rfl rfl rfl (Or.inl rfl)
        | true => exact .release _ rfl rfl rfl rfl rfl (Or.inl ⟨rfl, by omega⟩)
    | addToWake all n =>
      cases he
      exact .add all n rfl
    | bump all n =>
      cases he
      exact .none _ rfl rfl rfl rfl (Or.inl rfl)
    | wake all n =>
      cases all with
      | true =>
        cases he
        exact .release _ rfl rfl rfl rfl rfl (Or.inr ⟨n, rfl⟩)
      | false =>
        simp only [exec, execNotify, Bool.false_eq_true, if_false] at he
        cases hx : c.shared.condvar.futex.wakeOne ch with
        | none =>
          rw [hx] at he
          cases he
        | some f =>
          rw [hx] at he
          cases he
          exact .none _ rfl rfl rfl rfl (Or.inl rfl)

omit [Fintype ι] in
/-- A call that starts moves no token. -/
theorem enter_toWake {op : Op} (he : enter t op c.shared = some (s', o)) :
    s'.condvar.toWake = c.shared.condvar.toWake ∧
      s'.condvar.registered = c.shared.condvar.registered := by
  cases op with
  | mutex op =>
    cases hx : SMutex.enter t op c.shared.mutex with
    | none =>
      simp only [enter, hx] at he
      cases he
    | some r =>
      obtain ⟨m, o'⟩ := r
      obtain ⟨rfl, q, rfl⟩ := enter_mutex_pc hx
      simp only [enter, hx] at he
      cases he
      exact ⟨rfl, rfl⟩
  | wait g =>
    cases g with
    | false | true =>
      simp only [enter] at he
      split_ifs at he
      cases he
      exact ⟨rfl, rfl⟩
  | notifyOne | notifyAll =>
    cases he
    exact ⟨rfl, rfl⟩

end Moving

/-- A notification adds no more tokens than there are waiters without one. -/
def Needed (c : Config ι (Store ι) Pc) : Label ι Op → Prop
  | .call _ _ => True
  | .exec t _ =>
    match c.pcs t with
    | some (.notify (.addToWake _ n)) => c.shared.condvar.toWake + n ≤
      c.shared.condvar.registered.card
    | _ => True

instance (c : Config ι (Store ι) Pc) (l : Label ι Op) : Decidable (Needed c l) := by
  unfold Needed
  split
  · infer_instance
  · split <;> infer_instance

/-- No notification starts. -/
def Unnotified (_ : Config ι (Store ι) Pc) (l : Label ι Op) : Prop :=
  ∀ t, l ≠ .call t .notifyOne ∧ l ≠ .call t .notifyAll

/-- In a `wait` that has taken a token. -/
def woken : Option Pc → Bool
  | some (.wait _ .deregister) | some (.wait _ (.lock _)) => true
  | _ => false

section Needs

variable {c c' : Config ι (Store ι) Pc}

/-- **There are no more tokens than waiters without one** if no notification adds more than are
needed. -/
theorem toWake_le_registered (hc : Reach (sCondVar ids adaptive) Needed init c) :
    c.shared.condvar.toWake ≤ c.shared.condvar.registered.card := by
  refine hc.invariant (I := fun c ↦ c.shared.condvar.toWake ≤ c.shared.condvar.registered.card)
    (Nat.zero_le _) ?_ ?_
  · rintro c t op ⟨s', o⟩ - h - - he
    obtain ⟨hk, hr⟩ := enter_toWake he
    rw [Config.put_shared, hk, hr]
    exact h
  · rintro c t ch p ⟨s', o⟩ hr h hok hpc he
    have hT := reach_tokens hr
    rw [Config.put_shared]
    cases exec_moves hT hpc he with
    | none _ hk _ _ _ hreg =>
      rw [hk]
      rcases hreg with hreg | hreg <;> rw [hreg]
      · exact h
      · exact h.trans (Finset.card_le_card (Finset.subset_insert _ _))
    | consume g v hpos heq =>
      have hmem : t ∈ c.shared.condvar.registered := (hT.registered t).2 (by rw [hpc]; rfl)
      have hcard := Finset.card_erase_add_one hmem
      rw [heq]
      simp only [Words.served]
      omega
    | add all n heq =>
      simp only [Needed, hpc] at hok
      rw [heq]
      exact hok
    | release pt hk hreg =>
      rw [hk, hreg]
      exact h

/-- While no notification starts and none is under way, nobody is served. -/
theorem nobody_served (hT : Reach (sCondVar ids adaptive) Always init c)
    (hout : ∀ t, calling (c.pcs t) = false) (hzero : c.shared.condvar.toWake = 0)
    (hc : Reach (sCondVar ids adaptive) Unnotified c c') :
    c'.shared.condvar.toWake = 0 ∧ ∀ t, notifying (c'.pcs t) = false ∧
      woken (c'.pcs t) = false := by
  refine hc.invariant (I := fun c ↦ c.shared.condvar.toWake = 0 ∧
    ∀ t, notifying (c.pcs t) = false ∧ woken (c.pcs t) = false) ⟨hzero, fun t ↦ ?_⟩ ?_ ?_
  · have ht := hout t
    cases hpc : c.pcs t with
    | none => exact ⟨rfl, rfl⟩
    | some p =>
      rw [hpc] at ht
      cases p with
      | mutex => exact ⟨rfl, rfl⟩
      | wait | notify => cases ht
  · rintro d t op ⟨s', o⟩ - ⟨hk, hall⟩ hok - he
    refine ⟨(enter_toWake he).1.trans hk, fun u ↦ ?_⟩
    by_cases hu : u = t
    · subst hu
      rw [Config.put_pcs_self]
      cases op with
      | mutex op =>
        simp only [sCondVar, enter] at he
        split at he
        · cases he
          exact ⟨rfl, rfl⟩
        · cases he
          exact ⟨rfl, rfl⟩
        · cases he
      | wait g =>
        cases g with
        | false | true =>
          simp only [sCondVar, enter] at he
          split_ifs at he
          cases he
          exact ⟨rfl, rfl⟩
      | notifyOne => exact absurd rfl (hok u).1
      | notifyAll => exact absurd rfl (hok u).2
    · rw [Config.put_pcs_of_ne _ _ hu]
      exact hall u
  · rintro d t ch p ⟨s', o⟩ hr ⟨hk, hall⟩ - hpc he
    have hd : Reach (sCondVar ids adaptive) Always init d := hT.trans (hr.mono fun _ _ _ ↦ trivial)
    have htoks := reach_tokens hd
    have hquiet := hall t
    rw [hpc] at hquiet
    change exec ids adaptive t ch d.shared p = some (s', o) at he
    refine ⟨?_, fun u ↦ ?_⟩
    · cases exec_moves htoks hpc he with
      | none _ hk' => exact hk'.trans hk
      | consume g v hpos heq => omega
      | add | release => cases hquiet.1
    · by_cases hu : u = t
      · subst hu
        rw [Config.put_pcs_self]
        cases p with
        | notify pt => cases hquiet.1
        | mutex q =>
          simp only [exec] at he
          split at he
          · cases he
          · cases he
            exact ⟨rfl, rfl⟩
          · cases he
            exact ⟨rfl, rfl⟩
        | wait g pt =>
          cases pt with
          | deregister | lock => cases hquiet.2
          | consume v k =>
            simp only [exec, execWait] at he
            cases hx : casWeak ch d.shared.condvar.toWake k (k - 1) with
            | ok k' =>
              obtain ⟨hk', -⟩ := casWeak_eq_ok hx
              have hpos := (htoks.grounded u _ hpc).2
              omega
            | error k' =>
              rw [hx] at he
              cases he
              unfold tokenLoop
              split_ifs <;> exact ⟨rfl, rfl⟩
          | loadToWake v =>
            cases he
            simp only [tokenLoop]
            split_ifs <;> exact ⟨rfl, rfl⟩
          | _ =>
            obtain ⟨_, hx, rfl⟩ | ⟨_, hx, rfl⟩ := exec_wait he
            · simp only [execWait] at hx
              repeat' split at hx
              all_goals
                cases hx
                try exact ⟨rfl, rfl⟩
            · exact ⟨rfl, rfl⟩
      · rw [Config.put_pcs_of_ne _ _ hu]
        exact hall u

/-- **No token is left over**, in the runs in which no notification adds more tokens than there are
waiters without one. With no call of the condition variable in flight there is neither a waiter nor
a token; and from there on, until a notification starts, no `wait` returns. -/
theorem no_token_left (hc : Reach (sCondVar ids adaptive) Needed init c)
    (hout : ∀ t, calling (c.pcs t) = false) :
    c.shared.condvar.waiters = 0 ∧ c.shared.condvar.toWake = 0 ∧
    ∀ c', Reach (sCondVar ids adaptive) Unnotified c c' → c'.shared.condvar.toWake = 0 ∧
      ∀ t ch g pt s' r, c'.pcs t = some (.wait g pt) →
        (sCondVar ids adaptive).exec t ch c'.shared (.wait g pt) ≠ some (s', .ret r) := by
  have hT := reach_tokens hc
  have halways : Reach (sCondVar ids adaptive) Always init c := hc.mono fun _ _ _ ↦ trivial
  have hpart : ∀ t, unserved (c.pcs t) = false ∧ leaving (c.pcs t) = 0 := by
    intro t
    have ht := hout t
    cases hpc : c.pcs t with
    | none => exact ⟨rfl, rfl⟩
    | some p =>
      rw [hpc] at ht
      cases p with
      | mutex => exact ⟨rfl, rfl⟩
      | wait | notify => cases ht
  have hempty : c.shared.condvar.registered = ∅ := by
    refine Finset.eq_empty_of_forall_notMem fun t ht ↦ ?_
    rw [hT.registered t, (hpart t).1] at ht
    cases ht
  have hzero : c.shared.condvar.toWake = 0 := by
    have := toWake_le_registered hc
    rw [hempty, Finset.card_empty] at this
    omega
  refine ⟨?_, hzero, fun c' hc' ↦ ?_⟩
  · rw [hT.waiters, hempty, tally_eq_zero_iff.2 fun t ↦ (hpart t).2]
    rfl
  · obtain ⟨hk, hall⟩ := nobody_served halways hout hzero hc'
    refine ⟨hk, fun t ch g pt s' r hpc he ↦ ?_⟩
    have hw := (hall t).2
    rw [hpc] at hw
    have hD := reach_disciplined (halways.trans (hc'.mono fun _ _ _ ↦ trivial))
    obtain ⟨_, -, ho⟩ | ⟨r', hx, -⟩ :=
      exec_wait (show exec ids adaptive t ch c'.shared _ = _ from he)
    · cases ho
    -- only the two calls of the lock can end the call
    · cases pt with
      | lock | deregister => cases hw
      | unlock q =>
        simp only [execWait] at hx
        split at hx
        · cases hx
        · cases hx
        · cases hx
        · rename_i m r'' hne hx'
          obtain ⟨_, ⟨⟩, -⟩ | ⟨⟨⟩⟩ := hD.release_ends hpc hx'
          exact hne rfl
      | _ =>
        simp only [execWait] at hx
        repeat' split at hx
        all_goals cases hx

end Needs

/-- One waiter and one notification: the token is gone with the waiter. -/
theorem no_token_left_one :
    ∃ c : Config (Fin 2) (Store (Fin 2)) Pc, Reach (sCondVar SMutex.twoIds 4) Needed init c ∧
      c.shared.condvar.futex.value = 1 ∧ (∀ t, calling (c.pcs t) = false) ∧
      c.shared.condvar.waiters = 0 ∧ c.shared.condvar.toWake = 0 := by
  obtain ⟨c, hc, ht⟩ := Reach.exists_of_replay (sCondVar SMutex.twoIds 4) Needed
    (init : Config (Fin 2) (Store (Fin 2)) Pc)
    (oneAsleep 1 ++ (.call 0 .notifyOne :: List.replicate 3 (.exec 0 .go)) ++ [.exec 0 (.pick 1)] ++
      List.replicate 9 (.exec 1 .go))
    (fun c ↦ decide (c.shared.condvar.futex.value = 1 ∧ ∀ t, calling (c.pcs t) = false))
    (by decide +kernel)
  obtain ⟨h₁, h₂⟩ := of_decide_eq_true ht
  obtain ⟨h₃, h₄, -⟩ := no_token_left hc h₂
  exact ⟨c, hc, h₁, h₂, h₃, h₄⟩

end SCondVar

end Crossync
