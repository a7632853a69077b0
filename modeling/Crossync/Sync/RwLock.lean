import Crossync.Core.RawMutexClean

/-!
# The lock `RwLock` and its guards

A value behind a `RawMutex`. The locking methods return guards (`WatchGuardRef`, `WatchGuardMut`)
that the caller keeps, reads and writes through, hands to other threads and drops in any order; the
ownership record of the lock counts them for each thread, and it is what the caller owes: a guard
that is used or dropped is there.

A guard is dereferenced behind a `debug_assert!` that the lock is held the way the guard says, which
is an access of its own. Reading and writing through the reference are further steps, each a call of
its own; so a closure under `with_shared` or `with_exclusive` is a method, any number of such calls
and a drop.

`ref_count`, `clone` and the drop of the lock itself are the subject of `Core.RefCount`.

## What a guard is in the model

A unit of the ownership record of the lock, on a thread. The code's guards are pointers to the lock
with a destructor, and carry nothing else; so counting them loses nothing, and a guard that changes
threads is a unit that moves.
-/

open Interleave

namespace Crossync

namespace RwLock

/-- The shared store: the lock word with the live guards, and the value. -/
structure Store (ι α : Type*) where
  mutex : RawMutex.Store ι
  data : α

/-- The methods that acquire or release, and the drops of the two kinds of guard. -/
inductive Method where
  | lockExclusive
  | tryLock
  | lockShared
  | tryLockShared
  | dropRef
  | dropMut
  deriving DecidableEq

/-- Calls. The kind of a guard is `true` for `WatchGuardRef`. -/
inductive Op (ι α : Type*) where
  | method (m : Method)
  | isLocked
  | isLockedExclusive
  | isLockedShared
  /-- `WatchGuardRef::is_locked` and `WatchGuardMut::is_locked`. -/
  | guardIsLocked (ref : Bool)
  /-- `deref` and `deref_mut`: the assertion, before the reference is made. -/
  | deref (ref : Bool)
  /-- A read through a reference that a guard of the kind gave, and a write. -/
  | read (ref : Bool)
  | write (x : α)
  /-- A guard changes threads. -/
  | sendRef (dest : ι)
  | sendMut (dest : ι)

/-- What a call returns. -/
inductive Ret (α : Type*) where
  | unit
  | ref
  | mut
  /-- `None` of a try. -/
  | busy
  | bool (b : Bool)
  | value (x : α)
  /-- The assertion of `deref` failed. -/
  | assertFailed
  deriving DecidableEq

/-- Program points. -/
inductive Pc (α : Type*) where
  | mutex (m : Method) (p : RawMutex.Pc)
  | isLocked
  | isLockedExclusive
  | isLockedShared
  | guardIsLocked (ref : Bool)
  | deref (ref : Bool)
  | read (ref : Bool)
  | write (x : α)
  deriving DecidableEq

/-- The operation of the lock behind a method. -/
def Method.op {ι : Type*} : Method → RawMutex.Op ι
  | lockExclusive => .lockExclusive
  | tryLock => .tryLockExclusive
  | lockShared => .lockShared
  | tryLockShared => .tryLockShared
  | dropRef => .unlockShared
  | dropMut => .unlockExclusive

/-- What a method makes of the verdict of the lock. -/
def Method.done {α : Type*} : Method → RawMutex.Ret → Ret α
  | lockExclusive, _ => .mut
  | tryLock, .bool false => .busy
  | tryLock, _ => .mut
  | lockShared, _ => .ref
  | tryLockShared, .bool false => .busy
  | tryLockShared, _ => .ref
  | dropRef, _ | dropMut, _ => .unit

section Code

open Word Outcome

variable {ι α : Type*} [DecidableEq ι] [Fintype ι] (adaptive : ℕ)

/-- `RwLock::new` -/
def Store.new (x : α) : Store ι α := ⟨.new, x⟩

/-- Guards of a kind that a thread has. -/
def Store.guards (s : Store ι α) (ref : Bool) : ι → ℕ :=
  if ref then s.mutex.shared else s.mutex.exclusive

/-- `RawMutex::is_locked_exclusive`, on the loaded word. -/
def isLockedExclusive (state : Word) : Bool := isWriterLocked state

/-- `RawMutex::is_locked_shared`, on the loaded word. -/
def isLockedShared (state : Word) : Bool := !isWriterLocked state && decide (0 < readersCount state)

/-- `GuardLock::is_locked` of a guard of the kind. -/
def guardLocked (ref : Bool) (state : Word) : Bool :=
  if ref then isLockedShared state else isLockedExclusive state

/-- A step of the lock inside a method. -/
def mutexStep (s : Store ι α) (m : Method) :
    RawMutex.Store ι × Outcome RawMutex.Pc RawMutex.Ret → Store ι α × Outcome (Pc α) (Ret α)
  | (x, .goto p) => ({ s with mutex := x }, goto (.mutex m p))
  | (x, .ret e) => ({ s with mutex := x }, ret (m.done e))

/-- Start of a call, with what the caller owes. -/
def enter (t : ι) (op : Op ι α) (s : Store ι α) : Option (Store ι α × Outcome (Pc α) (Ret α)) :=
  match op with
  | .method m => (RawMutex.enter t m.op s.mutex).map (mutexStep s m)
  | .isLocked => some (s, goto .isLocked)
  | .isLockedExclusive => some (s, goto .isLockedExclusive)
  | .isLockedShared => some (s, goto .isLockedShared)
  | .guardIsLocked ref => if 0 < s.guards ref t then some (s, goto (.guardIsLocked ref)) else none
  | .deref ref => if 0 < s.guards ref t then some (s, goto (.deref ref)) else none
  | .read ref => if 0 < s.guards ref t then some (s, goto (.read ref)) else none
  | .write x => if 0 < s.guards false t then some (s, goto (.write x)) else none
  | .sendRef u => (RawMutex.enter t (.sendShared u) s.mutex).map fun r ↦
    ({ s with mutex := r.1 }, ret .unit)
  | .sendMut u => (RawMutex.enter t (.sendExclusive u) s.mutex).map fun r ↦
    ({ s with mutex := r.1 }, ret .unit)

/-- The access at a program point. -/
def exec (t : ι) (ch : Choice ι) (s : Store ι α) :
    Pc α → Option (Store ι α × Outcome (Pc α) (Ret α))
  | .mutex m p => (RawMutex.exec adaptive t ch s.mutex p).map (mutexStep s m)
  | .isLocked => some (s, ret (.bool (RawMutex.isLocked s.mutex)))
  | .isLockedExclusive => some (s, ret (.bool (isLockedExclusive s.mutex.state)))
  | .isLockedShared => some (s, ret (.bool (isLockedShared s.mutex.state)))
  | .guardIsLocked ref => some (s, ret (.bool (guardLocked ref s.mutex.state)))
  | .deref ref => some (s, ret (if guardLocked ref s.mutex.state then .unit else .assertFailed))
  | .read _ => some (s, ret (.value s.data))
  | .write x => some ({ s with data := x }, ret .unit)

/-- `RwLock` -/
def rwLock : Object ι (Store ι α) (Pc α) (Op ι α) (Ret α) where
  enter := enter
  exec := exec adaptive

/-- A new lock with every thread outside. -/
def init (x : α) : Config ι (Store ι α) (Pc α) := ⟨.new x, fun _ ↦ none⟩

end Code

end RwLock

end Crossync
