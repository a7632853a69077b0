import Crossync.Interleave.System
import Crossync.Interleave.Tally
import Crossync.Core.Backoff
import Crossync.Core.StateWord

/-!
# The spinning reader-writer cell `SpinCell`

The same state word as `RawMutex`, without futexes: whoever cannot get the lock spins, and the two
parked flags only tell others to stay away. Every operation is cut into one program point per access
of the word.

The two locks differ in what they do to the flags. A slow exclusive acquisition here keeps both
flags, the exclusive release clears the whole word with a plain store, and the last shared release
clears the writers-parked flag with a second exchange after its subtraction. The slow shared
acquisition also skips one test of the fast one: it only makes sure that the word it loaded is not
writer-locked, so a full count field would turn into the writer pattern.

`shared` and `exclusive` record the live guards of each thread, and the code never reads them. A
guard may be sent to another thread, which then drops it.

The backoff of `lock_exclusive_slow` decides nothing and is left out; the backoff of
`lock_shared_slow` decides when the reader marks itself.

## Why there is no parking

A thread that waits reads the word over and over, so no wakeup can be lost and the questions are
others: that exclusion holds, and that the flags, which shut others out, do not outlive the thread
that set them. Both are in `LockFree.SpinCellFlags`.
-/

open Interleave

namespace Crossync

namespace SpinCell

/-- The word of a cell, with the record of the live guards. -/
structure Store (ι : Type*) where
  state : Word
  /-- Live `SharedGuard`s of each thread. -/
  shared : ι → ℕ
  /-- Live `ExclusiveGuard`s of each thread. -/
  exclusive : ι → ℕ

/-- Acquisitions, guard drops, and the two ways a guard changes threads. -/
inductive Op (ι : Type*) where
  | lockShared
  | lockExclusive
  | dropShared
  | dropExclusive
  | sendShared (dest : ι)
  | sendExclusive (dest : ι)
  deriving DecidableEq

/-- What a call returns: nothing, or a guard. -/
inductive Ret where
  | unit
  | sharedGuard
  | exclusiveGuard
  deriving DecidableEq, Repr

/-- Program points, named after the access that comes next. -/
inductive Pc where
  /-- `lock_exclusive`: the fast compare-exchange. -/
  | lockExclusiveFast
  /-- `lock_exclusive_slow`: load of `state`, before the loop and after each backoff. -/
  | lockExclusiveLoad
  /-- `lock_exclusive_slow`: the acquiring compare-exchange. -/
  | lockExclusiveCas (state : Word)
  /-- `lock_exclusive_slow`: set `WRITERS_PARKED`. -/
  | lockExclusiveMark (state : Word)
  /-- `lock_shared`: load, then compare-exchange. -/
  | lockSharedFastLoad
  | lockSharedFastCas (state newState : Word)
  /-- `lock_shared_slow`: load of `state`. -/
  | lockSharedLoad (backoff : Backoff)
  /-- `lock_shared_slow`: the acquiring compare-exchange. -/
  | lockSharedCas (backoff : Backoff) (state newState : Word)
  /-- `lock_shared_slow`: set `READERS_PARKED`. -/
  | lockSharedMark (backoff : Backoff) (state : Word)
  /-- `lock_shared_slow`: spin while a writer holds the lock. -/
  | lockSharedSpin (backoff : Backoff)
  | unlockExclusive
  /-- `unlock_shared`: the subtraction, and the exchange that clears `WRITERS_PARKED`. -/
  | unlockSharedSub
  | unlockSharedClear
  deriving DecidableEq

section Code

variable {ι : Type*} [DecidableEq ι] (adaptive : ℕ)

open Word Outcome

/-- `SpinCell::new`. -/
def Store.new : Store ι := ⟨unlocked, fun _ ↦ 0, fun _ ↦ 0⟩

namespace Store

variable (s : Store ι) (t : ι)

/-- A shared guard of `t` becomes live, leaving the word `w`. -/
def gainShared (w : Word) : Store ι :=
  { s with state := w, shared := Function.update s.shared t (s.shared t + 1) }

/-- A shared guard of `t` is dropped, leaving the word `w`. -/
def dropShared (w : Word) : Store ι :=
  { s with state := w, shared := Function.update s.shared t (s.shared t - 1) }

/-- An exclusive guard of `t` becomes live, leaving the word `w`. -/
def gainExclusive (w : Word) : Store ι :=
  { s with state := w, exclusive := Function.update s.exclusive t (s.exclusive t + 1) }

/-- The exclusive guard of `t` is dropped, leaving the word `w`. -/
def dropExclusive (w : Word) : Store ι :=
  { s with state := w, exclusive := Function.update s.exclusive t (s.exclusive t - 1) }

end Store

/-- The loop of `lock_exclusive_slow` at a loaded `state`. -/
def lockExclusiveLoop (state : Word) : Pc :=
  if state &&& oneWriter = 0 then .lockExclusiveCas state
  else if state &&& writersParked = 0 then .lockExclusiveMark state
  else .lockExclusiveLoad

/-- The loop of `lock_shared_slow` at a loaded `state`. -/
def lockSharedLoop (backoff : Backoff) (state : Word) : Pc :=
  if isWriterLocked state = false ∧ state &&& writersParked = 0 then
    match checkedAdd state oneReader with
    | some newState => .lockSharedCas backoff state newState
    | none => .lockSharedLoad backoff
  else if !backoff.isCompleted then .lockSharedLoad backoff.snooze
  else if state &&& readersParked = 0 then .lockSharedMark backoff state
  else .lockSharedSpin backoff.reset

/-- Start of a call, with the caller's obligation. -/
def enter (t : ι) (op : Op ι) (s : Store ι) : Option (Store ι × Outcome Pc Ret) :=
  match op with
  | .lockShared => some (s, goto .lockSharedFastLoad)
  | .lockExclusive => some (s, goto .lockExclusiveFast)
  | .dropShared => if 0 < s.shared t then some (s, goto .unlockSharedSub) else none
  | .dropExclusive => if 0 < s.exclusive t then some (s, goto .unlockExclusive) else none
  | .sendShared u =>
    if 0 < s.shared t ∧ u ≠ t then
      some ({ s with shared := transfer s.shared t u }, ret .unit)
    else none
  | .sendExclusive u =>
    if 0 < s.exclusive t ∧ u ≠ t then
      some ({ s with exclusive := transfer s.exclusive t u }, ret .unit)
    else none

/-- The access at a program point. -/
def exec (t : ι) (ch : Choice ι) (s : Store ι) : Pc → Option (Store ι × Outcome Pc Ret)
  | .lockExclusiveFast =>
    match cas s.state unlocked oneWriter with
    | .ok w => some (s.gainExclusive t w, ret .exclusiveGuard)
    | .error _ => some (s, goto .lockExclusiveLoad)
  | .lockExclusiveLoad => some (s, goto (lockExclusiveLoop s.state))
  | .lockExclusiveCas state =>
    match casWeak ch s.state state (state ||| oneWriter) with
    | .ok w => some (s.gainExclusive t w, ret .exclusiveGuard)
    | .error e => some (s, goto (lockExclusiveLoop e))
  | .lockExclusiveMark state =>
    match casWeak ch s.state state (state ||| writersParked) with
    | .ok w => some ({ s with state := w }, goto .lockExclusiveLoad)
    | .error e => some (s, goto (lockExclusiveLoop e))
  | .lockSharedFastLoad =>
    match admitShared s.state with
    | some newState => some (s, goto (.lockSharedFastCas s.state newState))
    | none => some (s, goto (.lockSharedLoad (.new adaptive)))
  | .lockSharedFastCas state newState =>
    match cas s.state state newState with
    | .ok w => some (s.gainShared t w, ret .sharedGuard)
    | .error _ => some (s, goto (.lockSharedLoad (.new adaptive)))
  | .lockSharedLoad b => some (s, goto (lockSharedLoop b s.state))
  | .lockSharedCas b state newState =>
    match casWeak ch s.state state newState with
    | .ok w => some (s.gainShared t w, ret .sharedGuard)
    | .error _ => some (s, goto (.lockSharedLoad b))
  | .lockSharedMark b state =>
    match casWeak ch s.state state (state ||| readersParked) with
    | .ok w => some ({ s with state := w }, goto (.lockSharedSpin b.reset))
    | .error _ => some (s, goto (.lockSharedLoad b))
  | .lockSharedSpin b =>
    if isWriterLocked s.state then some (s, goto (.lockSharedSpin b.spin))
    else some (s, goto (.lockSharedLoad b.reset))
  | .unlockExclusive => some (s.dropExclusive t unlocked, ret .unit)
  | .unlockSharedSub =>
    some (s.dropShared t (s.state - oneReader),
      if s.state = oneReader ||| writersParked then goto .unlockSharedClear else ret .unit)
  | .unlockSharedClear =>
    match cas s.state writersParked unlocked with
    | .ok w => some ({ s with state := w }, ret .unit)
    | .error _ => some (s, ret .unit)

/-- `SpinCell` on a machine reporting `adaptive` units of parallelism. -/
def spinCell : Object ι (Store ι) Pc (Op ι) Ret where
  enter := enter
  exec := exec adaptive

/-- A new cell with every thread outside. -/
def init : Config ι (Store ι) Pc := ⟨.new, fun _ ↦ none⟩

end Code

end SpinCell

end Crossync
