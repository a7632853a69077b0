import Crossync.Core.SMutex

/-!
# The condition variable `SCondVar`

`wait` gives a lock up, waits for a token and takes the lock again. Waiters are counted in
`waiters`, the tokens in `to_wake`; a notification adds tokens, bumps the futex and wakes. Tokens
are anonymous: a waiter takes one with a compare-exchange, and which waiter sleeps and is woken is
another matter.

The accesses of `wait` to its lock are those of `SMutex`, one step each; a thread that does not wait
may call the lock as well, and a notifier need not hold it.

## Records

Three sets say what has been promised to whom, and are read only to state it. `registered` are the
waiters that have not taken a token yet. `counted u` are those of them that were registered when the
`notify_all` of `u` began. They become `owed` when it adds its tokens and `released` when it
returns. A waiter that takes a token is taken out of all of them.

The words are natural numbers here. The sequence is a 32-bit counter in the source: that it is
unbounded means that a value is never reused, which is the reading of "the sequence does not wrap
during one wait". `waiters` and `to_wake` are `usize` there. The first is at most the number of
threads inside `wait`; the second can outgrow the waiters, since a notification may leave tokens
behind, so a run is one of the source as long as it leaves fewer than `2 ^ 64` of them.

## Which lock is given back

`wait` releases whatever kind of lock its caller has: an exclusive guard through `raw_unlock`, a
group guard through `raw_unlock_group`, and takes the same kind again. A waiter that has its guard
released is inside the call and has none; the records of the mutex say so, and the discipline of the
guards is proved once (`Disciplined`).
-/

open Interleave

namespace Crossync

namespace SCondVar

/-- The words of a condition variable, with the records. None of the words has a bound here. -/
structure Words (ι : Type*) where
  /-- For `futex_wait` and the wakes. -/
  futex : Futex ι ℕ
  /-- Threads that have entered `wait` and have not taken a token. -/
  waiters : ℕ
  /-- Tokens that are left. -/
  toWake : ℕ
  registered : Finset ι
  counted : ι → Finset ι
  owed : Finset ι
  released : Finset ι

/-- A condition variable and the lock that is used with it. -/
structure Store (ι : Type*) where
  mutex : SMutex.Store ι
  condvar : Words ι

/-- The operations, those of the lock included. -/
inductive Op where
  | mutex (op : SMutex.Op)
  | wait (isGroup : Bool)
  | notifyOne
  | notifyAll
  deriving DecidableEq

/-- How an operation ends. -/
inductive Ret where
  | unit
  /-- What the lock returned; `wait` returns the guard of its last acquisition. -/
  | mutex (r : SMutex.Ret)
  deriving DecidableEq, Repr

/-- The accesses of `wait`. -/
inductive WaitPoint where
  /-- Register as waiter. -/
  | register
  /-- Inside the release of the lock. -/
  | unlock (p : SMutex.Pc)
  /-- Loads of the futex and of the tokens. -/
  | loadFutex
  | loadToWake (futexVal : ℕ)
  /-- Try to consume a wake token. -/
  | consume (futexVal toWake : ℕ)
  /-- No token available, wait. -/
  | sleep (futexVal : ℕ)
  | parked
  /-- A token was consumed: the waiter is no longer counted, and takes the lock again. -/
  | deregister
  | lock (p : SMutex.Pc)
  deriving DecidableEq

/-- The accesses of a notification; `n` is the number of its tokens. -/
inductive NotifyPoint where
  | loadWaiters (all : Bool)
  | addToWake (all : Bool) (n : ℕ)
  | bump (all : Bool) (n : ℕ)
  | wake (all : Bool) (n : ℕ)
  deriving DecidableEq

/-- Program points. -/
inductive Pc where
  | mutex (p : SMutex.Pc)
  | wait (isGroup : Bool) (pt : WaitPoint)
  | notify (pt : NotifyPoint)
  deriving DecidableEq

section Code

variable {ι : Type*} [DecidableEq ι] (ids : SMutex.ThreadIds ι) (adaptive : ℕ)

open Outcome

/-- `SCondVar::new`. -/
def Words.new : Words ι := ⟨.new 0, 0, 0, ∅, fun _ ↦ ∅, ∅, ∅⟩

/-- A new condition variable with a new lock. -/
def Store.new : Store ι := ⟨.new, .new⟩

/-- The waiter `t` has taken a token. -/
def Words.served (w : Words ι) (t : ι) : Words ι :=
  { w with
    registered := w.registered.erase t
    counted := fun u ↦ (w.counted u).erase t
    owed := w.owed.erase t
    released := w.released.erase t }

/-- The release of the lock that `wait` makes. -/
def releasePc (isGroup : Bool) : SMutex.Pc := if isGroup then .unlockGroupOwner else .unlockOwner

/-- The acquisition of the lock that `wait` makes. -/
def acquirePc (isGroup : Bool) : SMutex.Pc := if isGroup then .groupOwner else .lockOwner

/-- Head of the loop over the tokens. -/
def tokenLoop (futexVal toWake : ℕ) : WaitPoint :=
  if 0 < toWake then .consume futexVal toWake else .sleep futexVal

/-- The access of a `wait`. -/
def execWait (t : ι) (ch : Choice ι) (s : Store ι) (isGroup : Bool) :
    WaitPoint → Option (Store ι × Outcome WaitPoint SMutex.Ret)
  | .register =>
    some ({ s with condvar := { s.condvar with
        waiters := s.condvar.waiters + 1
        registered := insert t s.condvar.registered } }, goto (.unlock (releasePc isGroup)))
  | .unlock p =>
    match SMutex.exec ids adaptive t ch s.mutex p with
    | none => none
    | some (m, .goto p') => some ({ s with mutex := m }, goto (.unlock p'))
    | some (m, .ret .unit) => some ({ s with mutex := m }, goto .loadFutex)
    | some (m, .ret r) => some ({ s with mutex := m }, ret r)
  | .loadFutex => some (s, goto (.loadToWake s.condvar.futex.value))
  | .loadToWake v => some (s, goto (tokenLoop v s.condvar.toWake))
  | .consume v k =>
    match casWeak ch s.condvar.toWake k (k - 1) with
    | .ok k' => some ({ s with condvar := { s.condvar with toWake := k' }.served t },
      goto .deregister)
    | .error k' => some (s, goto (tokenLoop v k'))
  | .sleep v =>
    match s.condvar.futex.wait t v with
    | some f => some ({ s with condvar := { s.condvar with futex := f } }, goto .parked)
    | none => some (s, goto .loadFutex)
  | .parked =>
    match s.condvar.futex.resume t ch with
    | some f => some ({ s with condvar := { s.condvar with futex := f } }, goto .loadFutex)
    | none => none
  | .deregister =>
    some ({ s with condvar := { s.condvar with waiters := s.condvar.waiters - 1 } },
      goto (.lock (acquirePc isGroup)))
  | .lock p =>
    match SMutex.exec ids adaptive t ch s.mutex p with
    | none => none
    | some (m, .goto p') => some ({ s with mutex := m }, goto (.lock p'))
    | some (m, .ret r) => some ({ s with mutex := m }, ret r)

/-- A `notify_all` returns. -/
def Words.release (w : Words ι) (t : ι) (all : Bool) : Words ι :=
  if all then
    { w with
      released := w.released ∪ w.counted t
      counted := Function.update w.counted t ∅ }
  else w

/-- The access of a notification. -/
def execNotify (t : ι) (ch : Choice ι) (w : Words ι) :
    NotifyPoint → Option (Words ι × Outcome NotifyPoint Unit)
  | .loadWaiters all =>
    if 0 < w.waiters then some (w, goto (.addToWake all (if all then w.waiters else 1)))
    else some (w.release t all, ret ())
  | .addToWake all n =>
    some ({ w with
        toWake := w.toWake + n
        owed := if all then w.owed ∪ w.counted t else w.owed }, goto (.bump all n))
  | .bump all n =>
    some ({ w with futex := { w.futex with value := w.futex.value + 1 } }, goto (.wake all n))
  | .wake all _ =>
    if all then some ({ w with futex := w.futex.wakeAll }.release t all, ret ())
    else
      match w.futex.wakeOne ch with
      | some f => some ({ w with futex := f }, ret ())
      | none => none

/-- Start of a call, with the caller's obligation: the guard that `wait` gives up is the
caller's. -/
def enter (t : ι) (op : Op) (s : Store ι) : Option (Store ι × Outcome Pc Ret) :=
  match op with
  | .mutex op =>
    match SMutex.enter t op s.mutex with
    | some (m, .goto p) => some ({ s with mutex := m }, goto (.mutex p))
    | some (m, .ret r) => some ({ s with mutex := m }, ret (.mutex r))
    | none => none
  | .wait false => if 0 < s.mutex.exclusives t then some (s, goto (.wait false .register)) else none
  | .wait true =>
    if 0 < s.mutex.nested t + s.mutex.groups t then some (s, goto (.wait true .register)) else none
  | .notifyOne => some (s, goto (.notify (.loadWaiters false)))
  | .notifyAll =>
    some ({ s with condvar := { s.condvar with
        counted := Function.update s.condvar.counted t s.condvar.registered } },
      goto (.notify (.loadWaiters true)))

/-- The access at a program point. -/
def exec (t : ι) (ch : Choice ι) (s : Store ι) : Pc → Option (Store ι × Outcome Pc Ret)
  | .mutex p =>
    match SMutex.exec ids adaptive t ch s.mutex p with
    | none => none
    | some (m, .goto p') => some ({ s with mutex := m }, goto (.mutex p'))
    | some (m, .ret r) => some ({ s with mutex := m }, ret (.mutex r))
  | .wait isGroup pt =>
    match execWait ids adaptive t ch s isGroup pt with
    | none => none
    | some (s', .goto pt') => some (s', goto (.wait isGroup pt'))
    | some (s', .ret r) => some (s', ret (.mutex r))
  | .notify pt =>
    match execNotify t ch s.condvar pt with
    | none => none
    | some (w, .goto pt') => some ({ s with condvar := w }, goto (.notify pt'))
    | some (w, .ret _) => some ({ s with condvar := w }, ret .unit)

/-- `SCondVar` and its `SMutex` on a machine reporting `adaptive` units of parallelism. -/
def sCondVar : Object ι (Store ι) Pc Op Ret where
  enter := enter
  exec := exec ids adaptive

/-- A new condition variable with every thread outside. -/
def init : Config ι (Store ι) Pc := ⟨.new, fun _ ↦ none⟩

end Code

end SCondVar

end Crossync
