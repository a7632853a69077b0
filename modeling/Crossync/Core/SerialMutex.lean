import Crossync.Interleave.Futex
import Crossync.Interleave.Tally
import Crossync.Core.Backoff
import Crossync.Core.SerialWord

/-!
# The owner-tagged lock `SerialMutex`

A lock whose word names the thread that holds it: read acquisitions of one thread nest, everything
else excludes everything else, and a thread that asks for an access conflicting with one of its own
panics instead of waiting for itself. Waiting goes through one futex used as a sequence number.

## Tokens

A thread is identified by a 32-bit number that is never zero and never shared with another thread
(`OwnerIds`). An acquisition hands its owner's number to the guard, and the release of a read guard
starts from that token, on whatever thread the guard is dropped. So a live guard is a pair of
threads — who acquired it and who holds it now — and the ownership record (`reads`, `writes`) counts
guards by that pair. As in the model of `RawMutex` the record is written where an acquisition or a
release takes effect and is read only to state what the caller owes.

## Panics

`assert!` and `debug_assert!` end a call: the two reentrance checks of the slow path return
`Ret.conflict` and `Ret.overflow`, the two consistency checks of the release paths return
`Ret.inconsistent`.

## What a word is

Free is the zero word, whatever was there before: the last release stores zero and clears the waiter
flag with it. Otherwise the high half is the owner's number and the low half says whether it writes,
how many read guards it has and whether somebody waits. The readings are in `Core.SerialWord`, and
no proof looks at a mask.
-/

open Interleave

namespace Crossync

namespace SerialMutex

open SerialWord

/-- Distinct owner numbers, none of them zero: what `thread_owner` hands out. -/
structure OwnerIds (ι : Type*) where
  id : ι → BitVec 32
  injective : Function.Injective id
  ne_zero : ∀ t, id t ≠ 0

/-- The shared store of a lock, with the ownership record. -/
structure Store (ι : Type*) where
  /-- The bitfield. -/
  state : SerialWord.Word
  /-- Sequence number used for wait/wake. -/
  wake : Futex ι ℕ
  /-- Live read guards, by acquiring thread and by holding thread. -/
  reads : ι → ι → ℕ
  /-- Live write guards, by acquiring thread and by holding thread. -/
  writes : ι → ι → ℕ

/-- The operations of the lock, and the two ways a guard changes threads. A release names the thread
that acquired the guard it consumes. -/
inductive Op (ι : Type*) where
  | lockRead
  | lockWrite
  | tryWriteGuard
  | unlockRead (acquirer : ι)
  | unlockWrite (acquirer : ι)
  | sendRead (acquirer dest : ι)
  | sendWrite (acquirer dest : ι)
  deriving DecidableEq

/-- How an operation ends. -/
inductive Ret where
  | unit
  /-- `lock` returns the owner number, the token of the guard. -/
  | token (owner : BitVec 32)
  /-- Whether `try_write_guard` got the lock. -/
  | acquired (b : Bool)
  /-- "conflicting reentrant Atomic access" -/
  | conflict
  /-- "Atomic reader count overflow" -/
  | overflow
  /-- A `debug_assert!` of a release failed. -/
  | inconsistent
  deriving DecidableEq, Repr

/-- Program points, named after the access that comes next. -/
inductive Pc (ι : Type*) where
  /-- `lock`: the fast compare-exchange. -/
  | lockFast (read : Bool)
  /-- `lock_slow`: snapshot of the sequence at the head of the loop. -/
  | slowSequence (read : Bool) (backoff : Backoff)
  /-- `lock_slow`: load of `state`. -/
  | slowLoad (read : Bool) (backoff : Backoff) (sequence : ℕ)
  /-- `lock_slow`: the acquiring compare-exchange. -/
  | slowCas (read : Bool) (backoff : Backoff) (state next : SerialWord.Word)
  /-- `lock_slow`: registration of the waiter. -/
  | slowRegister (read : Bool) (backoff : Backoff) (sequence : ℕ) (state : SerialWord.Word)
  /-- `lock_slow`: `futex_wait`. -/
  | slowWait (read : Bool) (backoff : Backoff) (sequence : ℕ)
  /-- Asleep on `wake`. -/
  | slowParked (read : Bool) (backoff : Backoff)
  | tryWriteGuard
  /-- `unlock_read`: the fast compare-exchange against the word of a last reader. -/
  | unlockReadFast (acquirer : ι)
  /-- `unlock_read`: the counted release. -/
  | unlockReadCas (acquirer : ι) (state : SerialWord.Word)
  /-- `unlock_write`: the swap. -/
  | unlockWrite (acquirer : ι)
  /-- `notify`: the bump of `wake`, then its wake. -/
  | notifyBump
  | notifyWake
  deriving DecidableEq

section Code

variable {ι : Type*} [DecidableEq ι] (ids : OwnerIds ι) (adaptive : ℕ)

open Outcome

/-- An unlocked lock without guards. -/
def Store.new : Store ι := ⟨0, .new 0, fun _ _ ↦ 0, fun _ _ ↦ 0⟩

/-- A record of live guards with the share of one acquirer and one holder set to `n`. -/
def setShare (f : ι → ι → ℕ) (a h : ι) (n : ℕ) : ι → ι → ℕ :=
  Function.update f a (Function.update (f a) h n)

namespace Store

variable (s : Store ι) (a h : ι)

/-- A read guard of `h` took effect, leaving the word `w`. -/
def gainRead (w : SerialWord.Word) : Store ι :=
  { s with state := w, reads := setShare s.reads h h (s.reads h h + 1) }

/-- A write guard of `h` took effect, leaving the word `w`. -/
def gainWrite (w : SerialWord.Word) : Store ι :=
  { s with state := w, writes := setShare s.writes h h (s.writes h h + 1) }

/-- A read guard acquired by `a` and held by `h` was released, leaving the word `w`. -/
def dropRead (w : SerialWord.Word) : Store ι :=
  { s with state := w, reads := setShare s.reads a h (s.reads a h - 1) }

/-- A write guard acquired by `a` and held by `h` was released, leaving the word `w`. -/
def dropWrite (w : SerialWord.Word) : Store ι :=
  { s with state := w, writes := setShare s.writes a h (s.writes a h - 1) }

end Store

/-- `desired`: the word of a first acquisition. -/
def desired (t : ι) (read : Bool) : SerialWord.Word :=
  ownerBits (ids.id t) ||| if read then 1 else writeFlag

/-- The acquisition `lock_slow` or `lock` made. -/
def gain (t : ι) (read : Bool) (s : Store ι) (w : SerialWord.Word) : Store ι :=
  if read then s.gainRead t w else s.gainWrite t w

/-- `lock_slow` at a loaded `state`: a free word or the caller's own is exchanged, a conflict with
the caller's own access panics, and a foreign word is waited for. -/
def slowLoop (t : ι) (read : Bool) (backoff : Backoff) (sequence : ℕ) (state : SerialWord.Word) :
    Outcome (Pc ι) Ret :=
  if state = 0 then goto (.slowCas read backoff state (desired ids t read))
  else if state &&& ownerMask = ownerBits (ids.id t) then
    if read = true ∧ state &&& writeFlag = 0 then
      if state &&& countMask ≠ countMask then goto (.slowCas read backoff state (state + 1))
      else ret .overflow
    else ret .conflict
  else if backoff.isCompleted then goto (.slowRegister read backoff sequence state)
  else goto (.slowSequence read backoff.snooze)

/-- Head of the loop of `unlock_read`: the consistency check before the exchange. -/
def unlockReadLoop (acquirer : ι) (state : SerialWord.Word) : Outcome (Pc ι) Ret :=
  if state &&& writeFlag = 0 ∧ state &&& countMask ≠ 0 then goto (.unlockReadCas acquirer state)
  else ret .inconsistent

/-- Start of a call, with the caller's obligation: a release consumes a guard the caller holds. -/
def enter (t : ι) (op : Op ι) (s : Store ι) : Option (Store ι × Outcome (Pc ι) Ret) :=
  match op with
  | .lockRead => some (s, goto (.lockFast true))
  | .lockWrite => some (s, goto (.lockFast false))
  | .tryWriteGuard => some (s, goto .tryWriteGuard)
  | .unlockRead a => if 0 < s.reads a t then some (s, goto (.unlockReadFast a)) else none
  | .unlockWrite a => if 0 < s.writes a t then some (s, goto (.unlockWrite a)) else none
  | .sendRead a u =>
    if 0 < s.reads a t ∧ u ≠ t then
      some ({ s with reads := Function.update s.reads a (transfer (s.reads a) t u) }, ret .unit)
    else none
  | .sendWrite a u =>
    if 0 < s.writes a t ∧ u ≠ t then
      some ({ s with writes := Function.update s.writes a (transfer (s.writes a) t u) }, ret .unit)
    else none

/-- The access at a program point. -/
def exec (t : ι) (ch : Choice ι) (s : Store ι) : Pc ι → Option (Store ι × Outcome (Pc ι) Ret)
  | .lockFast read =>
    match cas s.state 0 (desired ids t read) with
    | .ok w => some (gain t read s w, ret (.token (ids.id t)))
    | .error _ => some (s, goto (.slowSequence read (.new adaptive)))
  | .slowSequence read b => some (s, goto (.slowLoad read b s.wake.value))
  | .slowLoad read b sequence => some (s, slowLoop ids t read b sequence s.state)
  | .slowCas read b state next =>
    match casWeak ch s.state state next with
    | .ok w => some (gain t read s w, ret (.token (ids.id t)))
    | .error _ => some (s, goto (.slowSequence read b))
  | .slowRegister read b sequence state =>
    match cas s.state state (state ||| waitFlag) with
    | .ok w => some ({ s with state := w }, goto (.slowWait read b sequence))
    | .error _ => some (s, goto (.slowSequence read b))
  | .slowWait read b sequence =>
    match s.wake.wait t sequence with
    | some f => some ({ s with wake := f }, goto (.slowParked read b))
    | none => some (s, goto (.slowSequence read b.reset))
  | .slowParked read b =>
    match s.wake.resume t ch with
    | some f => some ({ s with wake := f }, goto (.slowSequence read b.reset))
    | none => none
  | .tryWriteGuard =>
    match cas s.state 0 (desired ids t false) with
    | .ok w => some (s.gainWrite t w, ret (.acquired true))
    | .error _ => some (s, ret (.acquired false))
  | .unlockReadFast a =>
    match cas s.state (ownerBits (ids.id a) ||| 1) 0 with
    | .ok w => some (s.dropRead a t w, ret .unit)
    | .error e => some (s, unlockReadLoop a e)
  | .unlockReadCas a state =>
    match casWeak ch s.state state (if state &&& countMask = 1 then 0 else state - 1) with
    | .ok w =>
      some (s.dropRead a t w,
        if state &&& countMask = 1 ∧ state &&& waitFlag ≠ 0 then goto .notifyBump else ret .unit)
    | .error e => some (s, unlockReadLoop a e)
  | .unlockWrite a =>
    some (s.dropWrite a t 0,
      if s.state &&& writeFlag = 0 then ret .inconsistent
      else if s.state &&& waitFlag ≠ 0 then goto .notifyBump else ret .unit)
  | .notifyBump =>
    some ({ s with wake := { s.wake with value := s.wake.value + 1 } }, goto .notifyWake)
  | .notifyWake => some ({ s with wake := s.wake.wakeAll }, ret .unit)

/-- `SerialMutex` on a machine reporting `adaptive` units of parallelism. -/
def serialMutex : Object ι (Store ι) (Pc ι) (Op ι) Ret where
  enter := enter
  exec := exec ids adaptive

/-- A new lock with every thread outside. -/
def init : Config ι (Store ι) (Pc ι) := ⟨.new, fun _ ↦ none⟩

end Code

end SerialMutex

end Crossync
