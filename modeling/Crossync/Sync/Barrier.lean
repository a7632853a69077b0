import Mathlib.Data.BitVec
import Crossync.Interleave.Monitor
import Crossync.Interleave.Tally

/-!
# The cloneable barrier `Barrier`

A mutex over the arrivals still missing and the number of the phase, a condition variable for the
threads that have arrived, and a mirror of the missing arrivals that `count` reads without the
mutex. The mutex makes each critical section one piece, except for the mirror; the code is still cut
into one step for each field access or call, so the mirror is seen between its two stores.

## What is not code

`generation` is a 64-bit counter that wraps around. Next to it stands `epoch`, the number of phases
completed, which does not, and which the code never reads. `arrived` says in which epoch the call in
progress of each thread arrived, from the decrement of `remaining` to the return; `arrivals` counts
the arrivals of each epoch.

Nothing panics inside a critical section, so the mutex is never poisoned.

## Who disagrees with the mirror

`count` returns the mirror without the mutex, and the mirror is stored inside the critical section
after the field it mirrors. So a reader may see the arrivals of a moment before. Inside the critical
sections nothing reads it.
-/

open Interleave

namespace Crossync

namespace Barrier

/-- `Inner`, with the record of phases and arrivals. -/
structure Store (ι : Type*) where
  /-- `Mutex` and `Condvar`. -/
  monitor : Monitor ι
  /-- `State::remaining`. -/
  remaining : ℕ
  /-- `State::generation`. -/
  generation : BitVec 64
  /-- The mirror of `remaining`. -/
  count : ℕ
  /-- Completed phases. -/
  epoch : ℕ
  /-- The epoch in which the call in progress of each thread arrived. -/
  arrived : ι → Option ℕ
  /-- The arrivals of each epoch. -/
  arrivals : ℕ → ℕ

/-- The operations. -/
inductive Op where
  | wait
  | release
  | count
  deriving DecidableEq

/-- What an operation returns. -/
inductive Ret where
  | unit
  | count (n : ℕ)
  deriving DecidableEq, Repr

/-- Program points, named after what comes next. -/
inductive Pc where
  /-- `wait`: take the mutex, then count the arrival and mirror it. -/
  | waitLock
  | waitArrive
  | waitCount (generation : BitVec 64)
  /-- `wait`: the last arrival completes the phase. -/
  | waitAdvance
  /-- `wait`: the test of the loop, with the mutex; the wait, without it; and back. -/
  | waitCheck (generation : BitVec 64)
  | waitParked (generation : BitVec 64)
  | waitRelock (generation : BitVec 64)
  /-- `release`: take the mutex, then complete the phase. -/
  | releaseLock
  | releaseAdvance
  /-- Mirror the new phase and notify. -/
  | mirror
  | notify
  /-- Drop the guard of the mutex and return. -/
  | unlock
  /-- `count`. -/
  | countLoad
  deriving DecidableEq

section Code

variable {ι : Type*} [DecidableEq ι] (n bucket : ℕ)

open Outcome

/-- `Barrier::with_capacity`. -/
def Store.withCapacity : Store ι := ⟨.new, n, 0, n, 0, fun _ ↦ none, fun _ ↦ 0⟩

/-- The phase is completed: the next one requires `bucket` arrivals. -/
def Store.advance (s : Store ι) : Store ι :=
  { s with remaining := bucket, generation := s.generation + 1, epoch := s.epoch + 1 }

/-- An arrival of `t`. -/
def Store.arrive (s : Store ι) (t : ι) : Store ι :=
  { s with
    remaining := s.remaining - 1
    arrived := Function.update s.arrived t (some s.epoch)
    arrivals := Function.update s.arrivals s.epoch (s.arrivals s.epoch + 1) }

/-- Start of a call. -/
def enter (_ : ι) (op : Op) (s : Store ι) : Option (Store ι × Outcome Pc Ret) :=
  match op with
  | .wait => some (s, goto .waitLock)
  | .release => some (s, goto .releaseLock)
  | .count => some (s, goto .countLoad)

/-- What comes at a program point. -/
def exec (t : ι) (ch : Choice ι) (s : Store ι) : Pc → Option (Store ι × Outcome Pc Ret)
  | .waitLock =>
    match s.monitor.lock t with
    | some m => some ({ s with monitor := m }, goto .waitArrive)
    | none => none
  | .waitArrive =>
    if s.remaining = 0 then some (s, goto .unlock)
    else some (s.arrive t, goto (.waitCount s.generation))
  | .waitCount generation =>
    some ({ s with count := s.remaining },
      goto (if s.remaining = 0 then .waitAdvance else .waitCheck generation))
  | .waitAdvance => some (s.advance bucket, goto .mirror)
  | .waitCheck generation =>
    if s.generation = generation then
      some ({ s with monitor := s.monitor.wait t }, goto (.waitParked generation))
    else some (s, goto .unlock)
  | .waitParked generation =>
    match s.monitor.resume t ch with
    | some m => some ({ s with monitor := m }, goto (.waitRelock generation))
    | none => none
  | .waitRelock generation =>
    match s.monitor.lock t with
    | some m => some ({ s with monitor := m }, goto (.waitCheck generation))
    | none => none
  | .releaseLock =>
    match s.monitor.lock t with
    | some m => some ({ s with monitor := m }, goto .releaseAdvance)
    | none => none
  | .releaseAdvance => some (s.advance bucket, goto .mirror)
  | .mirror => some ({ s with count := s.remaining }, goto .notify)
  | .notify => some ({ s with monitor := s.monitor.notifyAll }, goto .unlock)
  | .unlock =>
    some ({ s with monitor := s.monitor.unlock, arrived := Function.update s.arrived t none },
      ret .unit)
  | .countLoad => some (s, ret (.count s.count))

/-- A barrier whose phases after the first require `bucket` arrivals. -/
def barrier : Object ι (Store ι) Pc Op Ret where
  enter := enter
  exec := exec bucket

/-- A new barrier whose first phase requires `n` arrivals, with every thread outside. -/
def init : Config ι (Store ι) Pc := ⟨.withCapacity n, fun _ ↦ none⟩

/-- The arrivals that a phase requires. -/
def required : ℕ → ℕ
  | 0 => n
  | _ + 1 => bucket

end Code

end Barrier

end Crossync
