import Crossync.Interleave.Futex
import Crossync.Interleave.Tally
import Crossync.Core.Backoff

/-!
# The recursive lock `SMutex`

A lock on which a thread is either exclusive, possibly many times over, or one of a group. Three
words describe it: `state` is `LOCKED` or twice the number of the group, `owner` is the number of
the exclusive thread, and `recursion` counts that thread's guards. They are written one after the
other, so that they agree only when nobody is between two steps of an acquisition or a release.

## Guards

A guard is dropped on the thread that took it, and how it is released depends on who is the owner
then: a group guard taken by the owner counts in `recursion` and not in `state`. So the record of
the live guards has three parts, `exclusives`, `nested` (group guards taken by the owner) and
`groups`. It is written at the access where an acquisition or a release takes effect, and read only
to state what the caller owes.

`SCondVar` releases a lock without a guard and locks it again, through the same two functions, so
the releases here are `raw_unlock` and `raw_unlock_group`.

`recursion` is a 64-bit counter in the source and unbounded here; the 32 bits of `state` are not.

## Why one wait loop serves both

A thread that wants the lock exclusively sleeps while the word is not zero, one that wants to join
the group sleeps while the bit `LOCKED` is set. Both sleep on the word itself and not on a sequence
number, so a value can come back, and the argument about lost wakeups is not the one of
`Interleave.Parking`: it is in `Core.SMutexParking`.
-/

open Interleave

namespace Crossync

namespace SMutex

/-- `UNLOCKED`. -/
def unlocked : ℕ := 0

/-- `LOCKED`. -/
def locked : ℕ := 1

/-- `ONE_GROUP`. -/
def oneGroup : ℕ := 2

/-- Distinct thread numbers, none of them zero: what `thread_id` hands out. -/
structure ThreadIds (ι : Type*) where
  id : ι → ℕ
  injective : Function.Injective id
  ne_zero : ∀ t, id t ≠ 0

/-- The shared store of a lock, with the record of the live guards. -/
structure Store (ι : Type*) where
  /-- `LOCKED` or the shared-holder count. -/
  state : Futex ι ℕ
  /-- Thread ID for recursion. -/
  owner : ℕ
  /-- Recursion count. -/
  recursion : ℕ
  /-- Live exclusive guards of each thread. -/
  exclusives : ι → ℕ
  /-- Live group guards of each thread that it took as the owner. -/
  nested : ι → ℕ
  /-- Live group guards of each thread that `state` counts. -/
  groups : ι → ℕ

/-- The operations. -/
inductive Op where
  | lock
  | lockGroup
  | rawUnlock
  | rawUnlockGroup
  deriving DecidableEq

/-- How an operation ends. -/
inductive Ret where
  | unit
  /-- An `SGuard`. -/
  | guard (isGroup : Bool)
  /-- "Unlock called by non-owner thread" -/
  | notOwner
  /-- "SMutex group count overflow" -/
  | overflow
  /-- "unlock_group without a matching lock_group" -/
  | unmatched
  deriving DecidableEq, Repr

/-- Program points, named after the access that comes next. -/
inductive Pc where
  /-- `lock`: load of `owner`, and the nested acquisition. -/
  | lockOwner
  | lockNested
  /-- `lock`: the acquiring compare-exchange, and the stores of the two other words. -/
  | lockCas (spin : Backoff)
  | storeOwner
  | storeRecursion
  /-- `lock`: the wait loop. -/
  | lockLoad (spin : Backoff)
  | lockWait (spin : Backoff) (state : ℕ)
  | lockParked (spin : Backoff)
  /-- `lock_group`: load of `owner`, and the nested acquisition. -/
  | groupOwner
  | groupNested
  /-- `lock_group`: load of `state`, and the acquiring compare-exchange. -/
  | groupLoad
  | groupCas (state : ℕ)
  /-- `lock_group`: the wait loop. -/
  | groupCheck
  | groupWait
  | groupParked
  /-- The releases: load of `owner`. -/
  | unlockOwner
  | unlockGroupOwner
  /-- The release of a guard of the owner; the last one clears the two other words and wakes. -/
  | unlockRecursion (isGroup : Bool)
  | clearOwner
  | clearState
  /-- `raw_unlock_group`: the release of a guard that `state` counts. -/
  | unlockGroupSub
  | wake
  deriving DecidableEq

section Code

variable {ι : Type*} [DecidableEq ι] (ids : ThreadIds ι) (adaptive : ℕ)

open Outcome

/-- `SMutex::new`. -/
def Store.new : Store ι := ⟨.new unlocked, 0, 0, fun _ ↦ 0, fun _ ↦ 0, fun _ ↦ 0⟩

namespace Store

variable (s : Store ι) (t : ι)

/-- The word `state` becomes `w`. -/
def setState (w : ℕ) : Store ι := { s with state := { s.state with value := w } }

/-- One more guard of the owner. -/
def gain (isGroup : Bool) : Store ι :=
  if isGroup then { s with nested := Function.update s.nested t (s.nested t + 1) }
  else { s with exclusives := Function.update s.exclusives t (s.exclusives t + 1) }

/-- One guard less of the owner. -/
def lose (isGroup : Bool) : Store ι :=
  if isGroup then { s with nested := Function.update s.nested t (s.nested t - 1) }
  else { s with exclusives := Function.update s.exclusives t (s.exclusives t - 1) }

end Store

/-- `lock_group` at a loaded `state`. -/
def groupLoop (state : ℕ) : Pc := if state &&& locked = 0 then .groupCas state else .groupCheck

/-- Start of a call, with the caller's obligation. -/
def enter (t : ι) (op : Op) (s : Store ι) : Option (Store ι × Outcome Pc Ret) :=
  match op with
  | .lock => some (s, goto .lockOwner)
  | .lockGroup => some (s, goto .groupOwner)
  | .rawUnlock => if 0 < s.exclusives t then some (s, goto .unlockOwner) else none
  | .rawUnlockGroup => if 0 < s.nested t + s.groups t then
    some (s, goto .unlockGroupOwner) else none

/-- The access at a program point. -/
def exec (t : ι) (ch : Choice ι) (s : Store ι) : Pc → Option (Store ι × Outcome Pc Ret)
  | .lockOwner =>
    if s.owner = ids.id t then some (s, goto .lockNested)
    else some (s, goto (.lockCas (.new adaptive)))
  | .lockNested =>
    some ({ s with recursion := s.recursion + 1 }.gain t false, ret (.guard false))
  | .lockCas spin =>
    match casWeak ch s.state.value unlocked locked with
    | .ok w => some (s.setState w, goto .storeOwner)
    | .error _ =>
      if !spin.isYielding then some (s, goto (.lockCas spin.snooze))
        else some (s, goto (.lockLoad spin))
  | .storeOwner => some ({ s with owner := ids.id t }, goto .storeRecursion)
  | .storeRecursion => some ({ s with recursion := 1 }.gain t false, ret (.guard false))
  | .lockLoad spin =>
    if s.state.value ≠ unlocked then some (s, goto (.lockWait spin s.state.value))
    else some (s, goto (.lockCas spin))
  | .lockWait spin state =>
    match s.state.wait t state with
    | some f => some ({ s with state := f }, goto (.lockParked spin))
    | none => some (s, goto (.lockLoad spin))
  | .lockParked spin =>
    match s.state.resume t ch with
    | some f => some ({ s with state := f }, goto (.lockLoad spin))
    | none => none
  | .groupOwner =>
    if s.owner = ids.id t then some (s, goto .groupNested) else some (s, goto .groupLoad)
  | .groupNested =>
    some ({ s with recursion := s.recursion + 1 }.gain t true, ret (.guard true))
  | .groupLoad => some (s, goto (groupLoop s.state.value))
  | .groupCas state =>
    if state + oneGroup < 2 ^ 32 then
      match casWeak ch s.state.value state (state + oneGroup) with
      | .ok w =>
        some ({ s.setState w with groups := Function.update s.groups t (s.groups t + 1) },
          ret (.guard true))
      | .error e => some (s, goto (groupLoop e))
    else some (s, ret .overflow)
  | .groupCheck =>
    if s.state.value &&& locked ≠ 0 then some (s, goto .groupWait) else some (s, goto .groupLoad)
  | .groupWait =>
    match s.state.wait t locked with
    | some f => some ({ s with state := f }, goto .groupParked)
    | none => some (s, goto .groupCheck)
  | .groupParked =>
    match s.state.resume t ch with
    | some f => some ({ s with state := f }, goto .groupCheck)
    | none => none
  | .unlockOwner =>
    if s.owner ≠ ids.id t then some (s, ret .notOwner) else some (s, goto (.unlockRecursion false))
  | .unlockGroupOwner =>
    if s.owner = ids.id t then some (s, goto (.unlockRecursion true))
    else some (s, goto .unlockGroupSub)
  | .unlockRecursion isGroup =>
    some ({ s with recursion := s.recursion - 1 }.lose t isGroup,
      if 1 < s.recursion then ret .unit else goto .clearOwner)
  | .clearOwner => some ({ s with owner := 0 }, goto .clearState)
  | .clearState => some (s.setState unlocked, goto .wake)
  | .unlockGroupSub =>
    let prev := s.state.value
    some ({ s.setState ((prev + 2 ^ 32 - oneGroup) % 2 ^ 32) with
        groups := Function.update s.groups t (s.groups t - 1) },
      if prev < oneGroup then ret .unmatched else if prev = oneGroup then goto .wake else ret .unit)
  | .wake =>
    match s.state.wakeOne ch with
    | some f => some ({ s with state := f }, ret .unit)
    | none => none

/-- `SMutex` on a machine reporting `adaptive` units of parallelism. -/
def sMutex : Object ι (Store ι) Pc Op Ret where
  enter := enter
  exec := exec ids adaptive

/-- A new lock with every thread outside. -/
def init : Config ι (Store ι) Pc := ⟨.new, fun _ ↦ none⟩

end Code

end SMutex

end Crossync
