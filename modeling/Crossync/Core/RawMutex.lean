import Crossync.Interleave.Futex
import Crossync.Interleave.Tally
import Crossync.Core.Backoff
import Crossync.Core.StateWord

/-!
# The futex reader-writer lock `RawMutex`

The lock word, its two futex sequence words, and every operation of the lock as program points with
one atomic access or futex call each. Waiting is in the model: a parked thread sits in the waiter
set of a futex, and a release that must wake somebody bumps the sequence in one step and wakes in
another.

## What is not code

`shared` and `exclusive` record which thread owns which acquisition. They are written at the access
where an acquisition or a release takes effect, and the code never reads them. They carry the
caller's obligation: a release starts only on a thread that owns an acquisition, and an
`unlock_all_shared` takes effect only while its caller owns every shared acquisition. A guard may
change threads between two calls (`Op.sendShared`, `Op.sendExclusive`).

The two sequence words are 32-bit counters in the source. Here they are unbounded: a value is never
reused, which is the reading of "the sequence does not wrap during one wait".

## How the paths are cut

The fast paths are one weak compare-exchange each. A slow path is a loop over a loaded word, which
the source keeps in a local variable: here it is a parameter of the program point, so that a stale
word is a program point and not an assumption. A function such as `lockSharedLoop` computes the next
program point from such a word, and is the translation of the straight-line code between two
accesses.

`adaptive` decides how long a loop spins. All results hold for every value of it.
-/

open Interleave

namespace Crossync

namespace RawMutex

/-- The shared store of a lock, with the ownership record. -/
structure Store (ι : Type*) where
  /-- The bitfield. -/
  state : Word
  /-- Sequence number used for reader wait/wake. -/
  readersFutex : Futex ι ℕ
  /-- Sequence number used for writer wait/wake. -/
  writersFutex : Futex ι ℕ
  /-- Shared acquisitions owned by each thread. -/
  shared : ι → ℕ
  /-- Exclusive acquisitions owned by each thread. -/
  exclusive : ι → ℕ

/-- The operations of the lock, and the two ways a guard changes threads. -/
inductive Op (ι : Type*) where
  | lockShared
  | tryLockShared
  | unlockShared
  | lockExclusive
  | tryLockExclusive
  | unlockExclusive
  | downgrade
  | unlockAllShared
  | sendShared (dest : ι)
  | sendExclusive (dest : ι)
  deriving DecidableEq

/-- What an operation returns: nothing, or the verdict of a try. -/
inductive Ret where
  | unit
  | bool (b : Bool)
  deriving DecidableEq, Repr

/-- Program points. Each is named after the access that comes next; the arguments are the locals
that are still needed. -/
inductive Pc where
  /-- `lock_exclusive`: the fast compare-exchange. -/
  | lockExclusiveFast
  /-- `lock_exclusive_slow`: load of `state` before the loop and after the wait. -/
  | lockExclusiveLoad
  /-- `lock_exclusive_slow`: the acquiring compare-exchange. -/
  | lockExclusiveCas (state : Word)
  /-- `lock_exclusive_slow`: mark that writers are parked. -/
  | lockExclusiveMark (state : Word)
  /-- Wait loop of a writer: load of the futex key. -/
  | lockExclusiveKey
  /-- Wait loop of a writer: load of `state`. -/
  | lockExclusiveCheck (key : ℕ)
  /-- Wait loop of a writer: `futex_wait`. -/
  | lockExclusiveWait (key : ℕ)
  /-- Asleep on `writers_futex`. -/
  | lockExclusiveParked
  | tryLockExclusive
  /-- `unlock_exclusive`: the fast compare-exchange. -/
  | unlockExclusiveFast
  /-- `unlock_exclusive_slow`: load of `state`. -/
  | unlockExclusiveLoad
  /-- `unlock_exclusive_slow`: the releasing compare-exchange. -/
  | unlockExclusiveCas (state : Word)
  /-- `try_lock_shared_fast`: load, then compare-exchange. `block` says who called it. -/
  | sharedFastLoad (block : Bool)
  | sharedFastCas (block : Bool) (state newState : Word)
  /-- `try_lock_shared_slow`: load, then compare-exchange. -/
  | tryLockSharedLoad
  | tryLockSharedCas (state newState : Word)
  /-- `lock_shared_slow`: load of `state` at the head of the loop and after a failed exchange. -/
  | lockSharedLoad (backoff : Backoff)
  /-- `lock_shared_slow`: the acquiring compare-exchange. -/
  | lockSharedCas (backoff : Backoff) (state newState : Word)
  /-- `lock_shared_slow`: mark that readers are parked. -/
  | lockSharedMark (backoff : Backoff) (state : Word)
  /-- `lock_shared_slow`: load of the futex key. -/
  | lockSharedKey (backoff : Backoff)
  /-- `lock_shared_slow`: load of `state` before sleeping. -/
  | lockSharedCheck (backoff : Backoff) (key : ℕ)
  /-- `lock_shared_slow`: `futex_wait`. -/
  | lockSharedWait (backoff : Backoff) (key : ℕ)
  /-- Asleep on `readers_futex`. -/
  | lockSharedParked (backoff : Backoff)
  | unlockShared
  /-- `unlock_all_shared`: load, then compare-exchange. -/
  | unlockAllSharedLoad
  | unlockAllSharedCas (state : Word)
  /-- `downgrade`: load, then compare-exchange. -/
  | downgradeLoad
  | downgradeCas (state : Word)
  /-- Bump of `writers_futex`, then its wake. -/
  | bumpWriters
  | wakeWriters
  /-- Bump of `readers_futex`, then its wake. -/
  | bumpReaders
  | wakeReaders
  deriving DecidableEq

section Code

variable {ι : Type*} [DecidableEq ι] (adaptive : ℕ)

open Word Outcome

/-- An unlocked lock owned by nobody. -/
def Store.new : Store ι :=
  ⟨unlocked, .new 0, .new 0, fun _ ↦ 0, fun _ ↦ 0⟩

namespace Store

variable (s : Store ι) (t : ι)

/-- One more shared acquisition of `t` took effect, leaving the word `w`. -/
def gainShared (w : Word) : Store ι :=
  { s with state := w, shared := Function.update s.shared t (s.shared t + 1) }

/-- One shared acquisition of `t` was released, leaving the word `w`. -/
def dropShared (w : Word) : Store ι :=
  { s with state := w, shared := Function.update s.shared t (s.shared t - 1) }

/-- An exclusive acquisition of `t` took effect, leaving the word `w`. -/
def gainExclusive (w : Word) : Store ι :=
  { s with state := w, exclusive := Function.update s.exclusive t (s.exclusive t + 1) }

/-- The exclusive acquisition of `t` was released, leaving the word `w`. -/
def dropExclusive (w : Word) : Store ι :=
  { s with state := w, exclusive := Function.update s.exclusive t (s.exclusive t - 1) }

end Store

/-- Head of the loop of `lock_exclusive_slow` at a loaded `state`: try to acquire a free word, else
make sure the parked flag is set, else wait. While the flag is missing the loop only spins its
backoff on the same `state`, so no access separates it from the marking exchange. -/
def lockExclusiveLoop (state : Word) : Pc :=
  if state &&& oneWriter = 0 then .lockExclusiveCas state
  else if state &&& writersParked = 0 then .lockExclusiveMark state
  else .lockExclusiveKey

/-- The word a release of the exclusive lock installs: a queued writer keeps the flags. -/
def unlockExclusiveNext (state : Word) : Word :=
  let parked := state &&& (readersParked ||| writersParked)
  if parked &&& writersParked ≠ 0 then parked else unlocked

/-- Whom an exclusive release wakes, read off the word it replaced. -/
def unlockExclusiveWake (state : Word) : Outcome Pc Ret :=
  let parked := state &&& (readersParked ||| writersParked)
  if parked &&& writersParked ≠ 0 then goto .bumpWriters
  else if parked &&& readersParked ≠ 0 ∧ parked &&& writersParked = 0 then goto .bumpReaders
  else ret .unit

/-- `try_lock_shared_slow` at a loaded `state`. -/
def tryLockSharedLoop (state : Word) : Outcome Pc Ret :=
  match admitShared state with
  | some newState => goto (.tryLockSharedCas state newState)
  | none => ret (.bool false)

/-- `lock_shared_slow` at a loaded `state`. -/
def lockSharedLoop (backoff : Backoff) (state : Word) : Pc :=
  match admitShared state with
  | some newState => .lockSharedCas backoff state newState
  | none =>
    if state &&& readersParked = 0 then
      if backoff.isCompleted then .lockSharedMark backoff state
      else .lockSharedLoad backoff.snooze
    else .lockSharedKey backoff

/-- After a failed `try_lock_shared_fast`. -/
def sharedFastFailed (block : Bool) : Pc :=
  if block then .lockSharedLoad (.new adaptive) else .tryLockSharedLoad

/-- What a shared acquisition returns to its caller. -/
def sharedDone (block : Bool) : Ret := if block then .unit else .bool true

/-- Start of a call, with the caller's obligation. -/
def enter (t : ι) (op : Op ι) (s : Store ι) : Option (Store ι × Outcome Pc Ret) :=
  match op with
  | .lockShared => some (s, goto (.sharedFastLoad true))
  | .tryLockShared => some (s, goto (.sharedFastLoad false))
  | .unlockShared => if 0 < s.shared t then some (s, goto .unlockShared) else none
  | .lockExclusive => some (s, goto .lockExclusiveFast)
  | .tryLockExclusive => some (s, goto .tryLockExclusive)
  | .unlockExclusive => if 0 < s.exclusive t then some (s, goto .unlockExclusiveFast) else none
  | .downgrade => if 0 < s.exclusive t then some (s, goto .downgradeLoad) else none
  | .unlockAllShared => some (s, goto .unlockAllSharedLoad)
  | .sendShared u =>
    if 0 < s.shared t ∧ u ≠ t then
      some ({ s with shared := transfer s.shared t u }, ret .unit)
    else none
  | .sendExclusive u =>
    if 0 < s.exclusive t ∧ u ≠ t then
      some ({ s with exclusive := transfer s.exclusive t u }, ret .unit)
    else none

variable [Fintype ι]

/-- The access at a program point. -/
def exec (t : ι) (ch : Choice ι) (s : Store ι) : Pc → Option (Store ι × Outcome Pc Ret)
  | .lockExclusiveFast =>
    match cas s.state unlocked oneWriter with
    | .ok w => some (s.gainExclusive t w, ret .unit)
    | .error _ => some (s, goto .lockExclusiveLoad)
  | .lockExclusiveLoad => some (s, goto (lockExclusiveLoop s.state))
  | .lockExclusiveCas state =>
    match casWeak ch s.state state ((state &&& readersParked) ||| oneWriter) with
    | .ok w => some (s.gainExclusive t w, ret .unit)
    | .error e => some (s, goto (lockExclusiveLoop e))
  | .lockExclusiveMark state =>
    match casWeak ch s.state state (state ||| writersParked) with
    | .ok w => some ({ s with state := w }, goto .lockExclusiveKey)
    | .error e => some (s, goto (lockExclusiveLoop e))
  | .lockExclusiveKey => some (s, goto (.lockExclusiveCheck s.writersFutex.value))
  | .lockExclusiveCheck key =>
    if s.state &&& oneWriter = 0 ∨ s.state &&& writersParked =
      0 then some (s, goto .lockExclusiveLoad)
    else some (s, goto (.lockExclusiveWait key))
  | .lockExclusiveWait key =>
    match s.writersFutex.wait t key with
    | some f => some ({ s with writersFutex := f }, goto .lockExclusiveParked)
    | none => some (s, goto .lockExclusiveKey)
  | .lockExclusiveParked =>
    match s.writersFutex.resume t ch with
    | some f => some ({ s with writersFutex := f }, goto .lockExclusiveKey)
    | none => none
  | .tryLockExclusive =>
    match cas s.state unlocked oneWriter with
    | .ok w => some (s.gainExclusive t w, ret (.bool true))
    | .error _ => some (s, ret (.bool false))
  | .unlockExclusiveFast =>
    match cas s.state oneWriter unlocked with
    | .ok w => some (s.dropExclusive t w, ret .unit)
    | .error _ => some (s, goto .unlockExclusiveLoad)
  | .unlockExclusiveLoad => some (s, goto (.unlockExclusiveCas s.state))
  | .unlockExclusiveCas state =>
    match casWeak ch s.state state (unlockExclusiveNext state) with
    | .ok w => some (s.dropExclusive t w, unlockExclusiveWake state)
    | .error e => some (s, goto (.unlockExclusiveCas e))
  | .sharedFastLoad block =>
    match admitShared s.state with
    | some newState => some (s, goto (.sharedFastCas block s.state newState))
    | none => some (s, goto (sharedFastFailed adaptive block))
  | .sharedFastCas block state newState =>
    match cas s.state state newState with
    | .ok w => some (s.gainShared t w, ret (sharedDone block))
    | .error _ => some (s, goto (sharedFastFailed adaptive block))
  | .tryLockSharedLoad => some (s, tryLockSharedLoop s.state)
  | .tryLockSharedCas state newState =>
    match casWeak ch s.state state newState with
    | .ok w => some (s.gainShared t w, ret (.bool true))
    | .error e => some (s, tryLockSharedLoop e)
  | .lockSharedLoad b => some (s, goto (lockSharedLoop b s.state))
  | .lockSharedCas b state newState =>
    match casWeak ch s.state state newState with
    | .ok w => some (s.gainShared t w, ret .unit)
    | .error _ => some (s, goto (.lockSharedLoad b))
  | .lockSharedMark b state =>
    match casWeak ch s.state state (state ||| readersParked) with
    | .ok w => some ({ s with state := w }, goto (.lockSharedKey b))
    | .error _ => some (s, goto (.lockSharedLoad b))
  | .lockSharedKey b => some (s, goto (.lockSharedCheck b s.readersFutex.value))
  | .lockSharedCheck b key =>
    if s.state &&& oneWriter ≠ oneWriter ∧ s.state &&& writersParked = 0 then
      some (s, goto (.lockSharedLoad b.reset))
    else some (s, goto (.lockSharedWait b key))
  | .lockSharedWait b key =>
    match s.readersFutex.wait t key with
    | some f => some ({ s with readersFutex := f }, goto (.lockSharedParked b))
    | none => some (s, goto (.lockSharedLoad b.reset))
  | .lockSharedParked b =>
    match s.readersFutex.resume t ch with
    | some f => some ({ s with readersFutex := f }, goto (.lockSharedLoad b.reset))
    | none => none
  | .unlockShared =>
    some (s.dropShared t (s.state - oneReader),
      if readersCount s.state = 1 ∧ s.state &&& writersParked ≠ 0 then goto .bumpWriters
      else ret .unit)
  | .unlockAllSharedLoad =>
    if readersCount s.state = 0 then some (s, ret .unit)
    else some (s, goto (.unlockAllSharedCas s.state))
  | .unlockAllSharedCas state =>
    let newState := state - oneReader * BitVec.ofNat 64 (readersCount state)
    match cas s.state state newState with
    | .ok w =>
      -- the caller's obligation: what is released here is all its own
      if ∀ u, u ≠ t → s.shared u = 0 then
        some ({ s with state := w, shared := Function.update s.shared t 0 },
          if readersCount newState = 0 ∧ state &&& writersParked ≠ 0 then goto .bumpWriters
          else ret .unit)
      else none
    | .error _ => some (s, goto .unlockAllSharedLoad)
  | .downgradeLoad => some (s, goto (.downgradeCas s.state))
  | .downgradeCas state =>
    match cas s.state state ((state &&& ~~~oneWriter) + oneReader) with
    | .ok w =>
      some ((s.dropExclusive t w).gainShared t w,
        if state &&& readersParked ≠ 0 then goto .bumpReaders else ret .unit)
    | .error e => some (s, goto (.downgradeCas e))
  | .bumpWriters =>
    some ({ s with writersFutex := { s.writersFutex with value := s.writersFutex.value + 1 } },
      goto .wakeWriters)
  | .wakeWriters => some ({ s with writersFutex := s.writersFutex.wakeAll }, ret .unit)
  | .bumpReaders =>
    some ({ s with readersFutex := { s.readersFutex with value := s.readersFutex.value + 1 } },
      goto .wakeReaders)
  | .wakeReaders => some ({ s with readersFutex := s.readersFutex.wakeAll }, ret .unit)

/-- `RawMutex` on a machine reporting `adaptive` units of parallelism. -/
def rawMutex : Object ι (Store ι) Pc (Op ι) Ret where
  enter := enter
  exec := exec adaptive

/-- A new lock with every thread outside. -/
def init : Config ι (Store ι) Pc := ⟨.new, fun _ ↦ none⟩

end Code

end RawMutex

end Crossync
