import Crossync.Core.SerialMutex

/-!
# Pins and exclusive sections: `Coord`

Shared operations pin a structure by incrementing a counter of their own lane; an exclusive section
announces itself in one flag and then waits for all 65 counters to be zero. Lanes below `lanes`
belong to one thread each — a thread claims one by a compare-exchange the first time it pins — and
are decremented by a **separate load and store**; threads that find no free lane share the last
counter, which is decremented atomically.

Writers are serialised by a `SerialMutex`. Its accesses are run one by one from inside the program
points `locking`, `trying` and `unlocking`, so every interleaving with the lock's own steps is a run
of this model.

## Thread-local state

The source caches the lane of the structure a thread used last; using another structure evicts the
entry (`Op.evict`). Backoff has no effect here beyond delay and is left out.

## What is not code

`pins` and `exclusives` record the live guards: a pin lives from the read of the flag that confirms
it to the decrement of its counter, an exclusive section from its last scan step to the store that
lowers the flag. A pin stays on the thread that made it; an exclusive guard may be handed over, and
is recorded by the thread that acquired it and the thread that holds it.

## The two sides of a pin

`shared` increments, then reads the flag; if the flag is up it withdraws the increment and waits.
`exclusive` raises the flag, then reads the counters one after the other. Whichever of the two
writes comes second, its thread sees the other one: that is the whole mechanism, and the theorems
about it are in `Core.CoordExclusion`. The separate load and store of an owned lane are two program
points here, since the exclusion argument has to say why nothing is lost between them.
-/

open Interleave

namespace Crossync

namespace Coord

open SerialWord (ownerMask ownerBits)
open SerialMutex (setShare)

/-- `LANES`. -/
def lanes : ℕ := 64

/-- The two numbers of a thread: its owner number in a `SerialMutex`, and the number under which it
claims a lane. -/
structure ThreadIds (ι : Type*) where
  owner : SerialMutex.OwnerIds ι
  lane : ι → ℕ
  lane_injective : Function.Injective lane
  lane_ne_zero : ∀ t, lane t ≠ 0

/-- The shared store, the threads' cached lanes and the record of live guards. -/
structure Store (ι : Type*) where
  /-- The counters of lanes `0 … lanes`. -/
  readers : ℕ → ℕ
  /-- The claims on lanes `0 … lanes - 1`; `0` is unclaimed. -/
  owners : ℕ → ℕ
  /-- A writer has announced itself. -/
  writing : Bool
  /-- The lock that serialises writers. -/
  writers : SerialMutex.Store ι
  /-- `LAST`: the cached lane of a thread, unless another structure was used since. -/
  last : ι → Option ℕ
  /-- Live pins, by thread and lane. -/
  pins : ι → ℕ → ℕ
  /-- Live exclusive guards, by acquiring thread and by holding thread. -/
  exclusives : ι → ι → ℕ

/-- The operations, the hand-over of an exclusive guard, and the use of another structure. -/
inductive Op (ι : Type*) where
  | shared
  | dropShared (lane : ℕ)
  | exclusive
  | tryExclusive
  | dropExclusive (acquirer : ι)
  | sendExclusive (acquirer dest : ι)
  | evict
  deriving DecidableEq

/-- How an operation ends. -/
inductive Ret where
  | unit
  /-- A `Shared` on a lane. -/
  | pinned (lane : ℕ)
  /-- An `Exclusive`. -/
  | exclusive
  /-- `try_exclusive` returned `None`. -/
  | busy
  /-- "reentrant AtomicVec access" -/
  | reentrant
  /-- The lock of the writers panicked. -/
  | poisoned (r : SerialMutex.Ret)
  deriving DecidableEq, Repr

/-- Program points, named after the access that comes next. -/
inductive Pc (ι : Type*) where
  /-- `register`: compare-exchange on the lane at an offset. -/
  | register (offset : ℕ)
  /-- `shared`: increment, then read of the flag. -/
  | add (lane : ℕ)
  | check (lane : ℕ)
  /-- `shared`: withdrawal from an owned lane, by load and store. -/
  | withdrawLoad (lane : ℕ)
  | withdrawStore (lane count : ℕ)
  /-- `shared`: withdrawal from the common lane. -/
  | withdrawSub (lane : ℕ)
  /-- `shared`: the load of `owned_by_current_thread`. -/
  | reentry (lane : ℕ)
  /-- `shared`: wait for the flag to be lowered. -/
  | awaitWriting (lane : ℕ)
  /-- Drop of a `Shared` on an owned lane, by load and store. -/
  | dropLoad (lane : ℕ)
  | dropStore (lane count : ℕ)
  /-- Drop of a `Shared` on the common lane. -/
  | dropSub (lane : ℕ)
  /-- Inside `write_guard`. -/
  | locking (p : SerialMutex.Pc ι)
  /-- Inside `try_write_guard`. -/
  | trying (p : SerialMutex.Pc ι)
  /-- Raise of the flag; `block` tells `exclusive` from `try_exclusive`. -/
  | storeWriting (block : Bool)
  /-- Load of the counter of a lane. -/
  | scan (block : Bool) (lane : ℕ)
  /-- `try_exclusive` gives up and lowers the flag. -/
  | abort
  /-- Drop of an `Exclusive`: the flag is lowered. -/
  | dropExclusive (acquirer : ι)
  /-- Inside the drop of the write guard; `r` is what the call then returns. -/
  | unlocking (r : Ret) (p : SerialMutex.Pc ι)
  deriving DecidableEq

section Code

variable {ι : Type*} [DecidableEq ι] (ids : ThreadIds ι) (adaptive : ℕ)

open Outcome

/-- No claim, no pin, no writer. -/
def Store.new : Store ι :=
  ⟨fun _ ↦ 0, fun _ ↦ 0, false, .new, fun _ ↦ none, fun _ _ ↦ 0, fun _ _ ↦ 0⟩

namespace Store

variable (s : Store ι) (t : ι) (lane : ℕ)

/-- The counter of a lane becomes `n`. -/
def setReaders (n : ℕ) : Store ι := { s with readers := Function.update s.readers lane n }

/-- The record of `t`'s pins on a lane becomes `n`. -/
def setPins (n : ℕ) : Store ι :=
  { s with pins := Function.update s.pins t (Function.update (s.pins t) lane n) }

/-- The lane of `t` is cached. -/
def remember : Store ι := { s with last := Function.update s.last t (some lane) }

end Store

/-- `register`: the lane tried at an offset. The sum wraps at a multiple of `lanes`, which the
remainder does not see. -/
def laneAt (t : ι) (offset : ℕ) : ℕ := (ids.lane t + offset) % lanes

/-- Start of `shared`: the cached lane, or a registration. -/
def sharedPc (last : Option ℕ) : Pc ι :=
  match last with
  | some lane => .add lane
  | none => .register 0

/-- Start of the drop of a `Shared`. -/
def dropPc (lane : ℕ) : Pc ι := if lane < lanes then .dropLoad lane else .dropSub lane

/-- Start of a call, with the caller's obligation. -/
def enter (t : ι) (op : Op ι) (s : Store ι) : Option (Store ι × Outcome (Pc ι) Ret) :=
  match op with
  | .shared => some (s, goto (sharedPc (s.last t)))
  | .dropShared lane => if 0 < s.pins t lane then some (s, goto (dropPc lane)) else none
  | .exclusive => some (s, goto (.locking (.lockFast false)))
  | .tryExclusive => some (s, goto (.trying .tryWriteGuard))
  | .dropExclusive a => if 0 < s.exclusives a t then some (s, goto (.dropExclusive a)) else none
  | .sendExclusive a u =>
    if 0 < s.exclusives a t ∧ u ≠ t then
      some ({ s with
        exclusives := Function.update s.exclusives a (transfer (s.exclusives a) t u)
        writers := { s.writers with
          writes := Function.update s.writers.writes a (transfer (s.writers.writes a) t u) } },
        ret .unit)
    else none
  | .evict => some ({ s with last := Function.update s.last t none }, ret .unit)

/-- The access at a program point. -/
def exec (t : ι) (ch : Choice ι) (s : Store ι) : Pc ι → Option (Store ι × Outcome (Pc ι) Ret)
  | .register offset =>
    match cas (s.owners (laneAt ids t offset)) 0 (ids.lane t) with
    | .ok o =>
      some ({ s with owners := Function.update s.owners (laneAt ids t offset) o }.remember t
        (laneAt ids t offset), goto (.add (laneAt ids t offset)))
    | .error o =>
      if o = ids.lane t then
        some (s.remember t (laneAt ids t offset), goto (.add (laneAt ids t offset)))
      else if offset + 1 < lanes then some (s, goto (.register (offset + 1)))
      else some (s.remember t lanes, goto (.add lanes))
  | .add lane => some (s.setReaders lane (s.readers lane + 1), goto (.check lane))
  | .check lane =>
    if s.writing then
      some (s, goto (if lane < lanes then .withdrawLoad lane else .withdrawSub lane))
    else some (s.setPins t lane (s.pins t lane + 1), ret (.pinned lane))
  | .withdrawLoad lane => some (s, goto (.withdrawStore lane (s.readers lane)))
  | .withdrawStore lane count => some (s.setReaders lane (count - 1), goto (.reentry lane))
  | .withdrawSub lane => some (s.setReaders lane (s.readers lane - 1), goto (.reentry lane))
  | .reentry lane =>
    if s.writers.state &&& ownerMask = ownerBits (ids.owner.id t) then some (s, ret .reentrant)
    else some (s, goto (.awaitWriting lane))
  | .awaitWriting lane =>
    if s.writing then some (s, goto (.awaitWriting lane)) else some (s, goto (.add lane))
  | .dropLoad lane => some (s, goto (.dropStore lane (s.readers lane)))
  | .dropStore lane count =>
    some ((s.setReaders lane (count - 1)).setPins t lane (s.pins t lane - 1), ret .unit)
  | .dropSub lane =>
    some ((s.setReaders lane (s.readers lane - 1)).setPins t lane (s.pins t lane - 1), ret .unit)
  | .locking p =>
    match SerialMutex.exec ids.owner adaptive t ch s.writers p with
    | none => none
    | some (w, .goto p') => some ({ s with writers := w }, goto (.locking p'))
    | some (w, .ret (.token _)) => some ({ s with writers := w }, goto (.storeWriting true))
    | some (w, .ret r) => some ({ s with writers := w }, ret (.poisoned r))
  | .trying p =>
    match SerialMutex.exec ids.owner adaptive t ch s.writers p with
    | none => none
    | some (w, .goto p') => some ({ s with writers := w }, goto (.trying p'))
    | some (w, .ret (.acquired true)) => some ({ s with writers := w }, goto (.storeWriting false))
    | some (w, .ret _) => some ({ s with writers := w }, ret .busy)
  | .storeWriting block => some ({ s with writing := true }, goto (.scan block 0))
  | .scan block lane =>
    if s.readers lane ≠ 0 then
      some (s, goto (if block then .scan block lane else .abort))
    else if lane < lanes then some (s, goto (.scan block (lane + 1)))
    else some ({ s with exclusives := setShare s.exclusives t t (s.exclusives t t + 1) },
      ret .exclusive)
  | .abort => some ({ s with writing := false }, goto (.unlocking .busy (.unlockWrite t)))
  | .dropExclusive a =>
    some ({ s with
      writing := false
      exclusives := setShare s.exclusives a t (s.exclusives a t - 1) },
      goto (.unlocking .unit (.unlockWrite a)))
  | .unlocking r p =>
    match SerialMutex.exec ids.owner adaptive t ch s.writers p with
    | none => none
    | some (w, .goto p') => some ({ s with writers := w }, goto (.unlocking r p'))
    | some (w, .ret .unit) => some ({ s with writers := w }, ret r)
    | some (w, .ret e) => some ({ s with writers := w }, ret (.poisoned e))

/-- `Coord` on a machine reporting `adaptive` units of parallelism. -/
def coord : Object ι (Store ι) (Pc ι) (Op ι) Ret where
  enter := enter
  exec := exec ids adaptive

/-- A new `Coord` with every thread outside. -/
def init : Config ι (Store ι) (Pc ι) := ⟨.new, fun _ ↦ none⟩

end Code

end Coord

end Crossync
