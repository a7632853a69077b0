import Crossync.Core.SCondVar
import Crossync.Atomic.Vec

/-!
# The channel `Mpmc`

A queue, a lock and a condition variable. Every call takes the lock, and all but `recv` keep it to
their end: a `recv` that finds nothing gives the lock up inside `wait`, and locks again from the
start when it comes back, dropping the guard that `wait` returned on the way.

The queue is an `AtomicVec`, the lock an `SMutex` and the condition variable an `SCondVar`; their
accesses are run one by one from inside the program points here, so every interleaving with their
own steps is a run of this model. A step that ends a call of one of them and goes on without an
access also starts the next.

## Records

`accepted` and `received` are the values that sends have put into the queue and that receives have
taken out of it, with the thread, in the order of the critical sections. `sent` and `got` are the
values of the calls that have returned, thread by thread. A returned `Err` is told apart by the test
that failed, and an `Ok` is recorded with its value.

## Three objects in one

A thread of the channel is at a program point of the channel, inside which it may be at one of a
component, inside which it may be at one of a component's component: a `recv` asleep in `wait` is
three levels deep. The views of `Interleave.System` take such a configuration apart again.
-/

open Interleave

namespace Crossync

namespace Mpmc

/-- `MpmcInner`, with the records. -/
structure Store (ι α : Type*) where
  /-- Shared message buffer. -/
  buffer : AtomicVec.Store ι α
  /-- Mutual exclusion for push and pop, and the condition variable for blocking receives. -/
  lock : SCondVar.Store ι
  /-- `0` is unbounded, otherwise the maximal size of the queue. -/
  bounded : ℕ
  /-- Channel closed flag. -/
  closed : Bool
  accepted : List (ι × α)
  received : List (ι × α)
  sent : ι → List α
  got : ι → List α

/-- The operations, and the use of another queue by a thread. -/
inductive Op (α : Type*) where
  | send (value : α)
  | tryRecv
  | recv
  | close
  | evict
  deriving DecidableEq

/-- The test of `send` that failed. -/
inductive Reject where
  | closed
  | full
  deriving DecidableEq, Repr

/-- How an operation ends. -/
inductive Ret (α : Type*) where
  | unit
  /-- `Ok(())`, for this value. -/
  | sent (value : α)
  /-- `Err(value)`. -/
  | rejected (why : Reject) (value : α)
  | received (o : Option α)
  /-- The lock or the queue panicked. -/
  | panicked
  deriving DecidableEq, Repr

/-- Program points, named after the access that comes next. -/
inductive Pc (ι α : Type*) where
  /-- `send`: inside `lock`. -/
  | sendLock (value : α) (p : SMutex.Pc)
  /-- `send`: load of the flag. -/
  | sendClosed (value : α)
  /-- `send`: inside `len` and `push` of the queue. -/
  | sendLen (value : α) (p : AtomicVec.Pc ι α)
  | sendPush (value : α) (p : AtomicVec.Pc ι α)
  /-- `send`: inside `notify_one`. -/
  | sendNotify (value : α) (pt : SCondVar.NotifyPoint)
  /-- `try_recv`: inside `lock`, and inside `pop` of the queue. -/
  | tryLock (p : SMutex.Pc)
  | tryPop (p : AtomicVec.Pc ι α)
  /-- `recv`: inside `lock`, and inside `pop` of the queue. -/
  | recvLock (p : SMutex.Pc)
  | recvPop (p : AtomicVec.Pc ι α)
  /-- `recv`: load of the flag. -/
  | recvClosed
  /-- `recv`: inside `wait`, and inside the drop of the guard it returned. -/
  | recvWait (pt : SCondVar.WaitPoint)
  | recvDrop (p : SMutex.Pc)
  /-- `close`: inside `lock`. -/
  | closeLock (p : SMutex.Pc)
  /-- `close`: store of the flag. -/
  | closeStore
  /-- `close`: inside `notify_all`. -/
  | closeNotify (pt : SCondVar.NotifyPoint)
  /-- Inside the drop of the guard; `r` is what the call then returns. -/
  | unlock (r : Ret α) (p : SMutex.Pc)
  deriving DecidableEq

section Code

variable {ι α : Type*} [DecidableEq ι] (ids : SMutex.ThreadIds ι) (vids : Coord.ThreadIds ι)
  (adaptive : ℕ)

open Outcome

/-- `bounded`, with the first block of the queue at address `first`. -/
def Store.new (first n : ℕ) : Store ι α where
  buffer := .new first
  lock := .new
  bounded := n
  closed := false
  accepted := []
  received := []
  sent := fun _ ↦ []
  got := fun _ ↦ []

/-- What the queue holds, oldest first. -/
def Store.content (s : Store ι α) : List α := s.buffer.pushes.drop s.buffer.pops

/-- A step of the lock from inside a call of the channel; a call that returns goes on. -/
def lockStep (s : Store ι α) (r : Option (SMutex.Store ι × Outcome SMutex.Pc SMutex.Ret))
    (stay : SMutex.Pc → Pc ι α) (done : Store ι α → Store ι α × Outcome (Pc ι α) (Ret α)) :
    Option (Store ι α × Outcome (Pc ι α) (Ret α)) :=
  match r with
  | none => none
  | some (m, .goto p) => some ({ s with lock := { s.lock with mutex := m } }, goto (stay p))
  | some (m, .ret (.guard _)) | some (m, .ret .unit) =>
    some (done { s with lock := { s.lock with mutex := m } })
  | some (m, .ret _) => some ({ s with lock := { s.lock with mutex := m } }, ret .panicked)

/-- A step of the queue from inside a call of the channel. -/
def bufferStep (s : Store ι α)
    (r : Option (AtomicVec.Store ι α × Outcome (AtomicVec.Pc ι α) (AtomicVec.Ret α)))
    (stay : AtomicVec.Pc ι α → Pc ι α)
    (done : Store ι α → AtomicVec.Ret α → Store ι α × Outcome (Pc ι α) (Ret α)) :
    Option (Store ι α × Outcome (Pc ι α) (Ret α)) :=
  match r with
  | none => none
  | some (b, .goto p) => some ({ s with buffer := b }, goto (stay p))
  | some (b, .ret e) => some (done { s with buffer := b } e)

/-- The call goes on to drop its guard, and then returns `r`. -/
def leave (s : Store ι α) (r : Ret α) : Store ι α × Outcome (Pc ι α) (Ret α) :=
  (s, goto (.unlock r .unlockOwner))

/-- `send` goes on to push. -/
def pushNext (t : ι) (v : α) (s : Store ι α) : Store ι α × Outcome (Pc ι α) (Ret α) :=
  (s, goto (.sendPush v (.pushPin v (Coord.sharedPc (s.buffer.coordLock.last t)))))

/-- A receive goes on to pop. -/
def popPc (t : ι) (s : Store ι α) : AtomicVec.Pc ι α :=
  .popPin (Coord.sharedPc (s.buffer.coordLock.last t))

/-- A receive that has a value is recorded, and drops its guard. -/
def take (t : ι) (s : Store ι α) (v : α) : Store ι α × Outcome (Pc ι α) (Ret α) :=
  leave { s with received := s.received ++ [(t, v)] } (.received (some v))

/-- A call returns. -/
def finish (t : ι) (s : Store ι α) (r : Ret α) : Store ι α × Outcome (Pc ι α) (Ret α) :=
  match r with
  | .sent v => ({ s with sent := Function.update s.sent t (s.sent t ++ [v]) }, ret r)
  | .received (some v) => ({ s with got := Function.update s.got t (s.got t ++ [v]) }, ret r)
  | _ => (s, ret r)

/-- Start of a call. -/
def enter (t : ι) (op : Op α) (s : Store ι α) : Option (Store ι α × Outcome (Pc ι α) (Ret α)) :=
  match op with
  | .send v => some (s, goto (.sendLock v .lockOwner))
  | .tryRecv => some (s, goto (.tryLock .lockOwner))
  | .recv => some (s, goto (.recvLock .lockOwner))
  | .close => some (s, goto (.closeLock .lockOwner))
  | .evict =>
    some ({ s with buffer := { s.buffer with coordLock := { s.buffer.coordLock with
      last := Function.update s.buffer.coordLock.last t none } } }, ret .unit)

/-- The access at a program point. -/
def exec (t : ι) (ch : Choice ι) (s : Store ι α) :
    Pc ι α → Option (Store ι α × Outcome (Pc ι α) (Ret α))
  | .sendLock v p =>
    lockStep s (SMutex.exec ids adaptive t ch s.lock.mutex p) (.sendLock v) fun s ↦
      (s, goto (.sendClosed v))
  | .sendClosed v =>
    if s.closed then some (leave s (.rejected .closed v))
    else if 0 < s.bounded then some (s, goto (.sendLen v .lenHead))
    else some (pushNext t v s)
  | .sendLen v p =>
    bufferStep s (AtomicVec.exec vids adaptive t ch s.buffer p) (.sendLen v) fun s e ↦ match e with
      | .len n => if s.bounded ≤ n then leave s (.rejected .full v) else pushNext t v s
      | _ => (s, ret .panicked)
  | .sendPush v p =>
    bufferStep s (AtomicVec.exec vids adaptive t ch s.buffer p) (.sendPush v) fun s e ↦ match e with
      | .unit => ({ s with accepted := s.accepted ++ [(t, v)] },
        goto (.sendNotify v (.loadWaiters false)))
      | _ => (s, ret .panicked)
  | .sendNotify v pt =>
    match SCondVar.execNotify t ch s.lock.condvar pt with
    | none => none
    | some (w, .goto pt') =>
      some ({ s with lock := { s.lock with condvar := w } }, goto (.sendNotify v pt'))
    | some (w, .ret _) => some (leave { s with lock := { s.lock with condvar := w } } (.sent v))
  | .tryLock p =>
    lockStep s (SMutex.exec ids adaptive t ch s.lock.mutex p) .tryLock fun s ↦
      (s, goto (.tryPop (popPc t s)))
  | .tryPop p =>
    bufferStep s (AtomicVec.exec vids adaptive t ch s.buffer p) .tryPop fun s e ↦ match e with
      | .popped none => leave s (.received none)
      | .popped (some (_, some (_, v))) => take t s v
      | _ => (s, ret .panicked)
  | .recvLock p =>
    lockStep s (SMutex.exec ids adaptive t ch s.lock.mutex p) .recvLock fun s ↦
      (s, goto (.recvPop (popPc t s)))
  | .recvPop p =>
    bufferStep s (AtomicVec.exec vids adaptive t ch s.buffer p) .recvPop fun s e ↦ match e with
      | .popped none => (s, goto .recvClosed)
      | .popped (some (_, some (_, v))) => take t s v
      | _ => (s, ret .panicked)
  | .recvClosed =>
    if s.closed then some (leave s (.received none)) else some (s, goto (.recvWait .register))
  | .recvWait pt =>
    match SCondVar.execWait ids adaptive t ch s.lock false pt with
    | none => none
    | some (l, .goto pt') => some ({ s with lock := l }, goto (.recvWait pt'))
    | some (l, .ret (.guard _)) => some ({ s with lock := l }, goto (.recvDrop .unlockOwner))
    | some (l, .ret _) => some ({ s with lock := l }, ret .panicked)
  | .recvDrop p =>
    lockStep s (SMutex.exec ids adaptive t ch s.lock.mutex p) .recvDrop fun s ↦
      (s, goto (.recvLock .lockOwner))
  | .closeLock p =>
    lockStep s (SMutex.exec ids adaptive t ch s.lock.mutex p) .closeLock fun s ↦
      (s, goto .closeStore)
  | .closeStore =>
    some ({ s with
      closed := true
      lock := { s.lock with condvar := { s.lock.condvar with
        counted := Function.update s.lock.condvar.counted t s.lock.condvar.registered } } },
      goto (.closeNotify (.loadWaiters true)))
  | .closeNotify pt =>
    match SCondVar.execNotify t ch s.lock.condvar pt with
    | none => none
    | some (w, .goto pt') =>
      some ({ s with lock := { s.lock with condvar := w } }, goto (.closeNotify pt'))
    | some (w, .ret _) => some (leave { s with lock := { s.lock with condvar := w } } .unit)
  | .unlock r p =>
    lockStep s (SMutex.exec ids adaptive t ch s.lock.mutex p) (.unlock r) fun s ↦ finish t s r

/-- `Mpmc` on a machine reporting `adaptive` units of parallelism. -/
def mpmc : Object ι (Store ι α) (Pc ι α) (Op α) (Ret α) where
  enter := enter
  exec := exec ids vids adaptive

/-- A new channel with every thread outside. -/
def init (first n : ℕ) : Config ι (Store ι α) (Pc ι α) := ⟨.new first n, fun _ ↦ none⟩

end Code

end Mpmc

end Crossync
