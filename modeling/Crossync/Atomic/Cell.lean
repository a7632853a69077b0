import Crossync.Interleave.History
import Crossync.Core.SerialHolds

/-!
# The cell `AtomicCell`

A value behind a `SerialMutex`, with guards that the caller keeps, hands to other threads and drops
in any order. A guard is known by its kind, the thread that acquired it and the thread that has it;
the ownership record of the lock counts the live ones, and it is what the caller owes.

`swap`, `store` and `compare_exchange` take a guard of their own: they lock, dereference the guard
behind its `debug_assert!`, read, write and unlock, each access a step. A `compare_exchange` that
fails keeps its guard and returns it. Reads and writes through a guard are calls, so that `with`,
`with_mut` and `update` are a `get` or `get_mut`, any number of such calls and a drop.

## What is not code

`log` lists the accesses that took effect, with the results they got; an exchange counts as one.
`ref_count`, `clone`, `into_inner` and the drop of the cell are the subject of `Core.RefCount`.

## Foreign guards

A guard may be dropped or used by another thread than the one that acquired it. The lock knows the
acquirer, the program knows the holder, and both are in the record. A cell therefore makes no
assumption about which thread does what with a guard, apart from that a guard that is used is there.
-/

open Interleave

namespace Crossync

namespace AtomicCell

/-- Calls. The kind of a guard is `true` for `WatchGuardRef`, `a` is the thread that acquired it. -/
inductive Op (ι α : Type*) where
  | get
  | getMut
  | swap (x : α)
  | store (x : α)
  | compareExchange (current new : α)
  /-- `WatchGuardRef::is_locked` and `WatchGuardMut::is_locked`. -/
  | isLocked (ref : Bool) (a : ι)
  /-- `deref` and `deref_mut`: the assertion, before the reference is made. -/
  | deref (ref : Bool) (a : ι)
  /-- A read through a reference that a guard gave, and a write. -/
  | read (ref : Bool) (a : ι)
  | write (a : ι) (x : α)
  | drop (ref : Bool) (a : ι)
  /-- A guard changes threads. -/
  | send (ref : Bool) (a dest : ι)

/-- What a call returns. -/
inductive Ret (α : Type*) where
  | unit
  | ref
  | mut
  | bool (b : Bool)
  | value (x : α)
  | ok (x : α)
  /-- `Err`, with the guard. -/
  | failed
  /-- The lock panicked. -/
  | panicked
  /-- The assertion of `deref` failed. -/
  | assertFailed
  deriving DecidableEq

/-- What a method does once it has the lock. -/
inductive Job (α : Type*) where
  | get
  | getMut
  | swap (x : α)
  | store (x : α)
  | compareExchange (current new : α)
  deriving DecidableEq

/-- The shared store, with the history. -/
structure Store (ι α : Type*) where
  state : SerialMutex.Store ι
  val : α
  log : List (Occurrence ι (Op ι α) (Ret α))

/-- Program points, named after the access that comes next. -/
inductive Pc (ι α : Type*) where
  /-- Inside `lock_read` or `lock_write`. -/
  | lock (job : Job α) (p : SerialMutex.Pc ι)
  /-- Inside the drop of a guard; the call then returns `e`. -/
  | unlock (e : Ret α) (p : SerialMutex.Pc ι)
  | isLocked (ref : Bool) (a : ι)
  | deref (ref : Bool) (a : ι)
  | read (ref : Bool) (a : ι)
  | write (a : ι) (x : α)
  /-- `swap`, or `store` if `quiet`: `deref_mut`, then the two accesses of `mem::replace`. -/
  | swapDeref (quiet : Bool) (x : α)
  | swapTake (quiet : Bool) (x : α)
  | swapPut (quiet : Bool) (x old : α)
  /-- `compare_exchange`: `deref` and the comparison, then `deref_mut` and `mem::replace`. -/
  | casDeref (current new : α)
  | casCompare (current new : α)
  | casDerefMut (current new : α)
  | casTake (current new : α)
  | casPut (current new old : α)
  deriving DecidableEq

section Code

open Outcome

variable {ι α : Type*} [DecidableEq ι] (ids : SerialMutex.OwnerIds ι) (adaptive : ℕ)

/-- `AtomicCell::new` -/
def Store.new (x : α) : Store ι α := ⟨.new, x, []⟩

/-- Live guards of a kind, by acquirer and holder. -/
def Store.guards (s : Store ι α) (ref : Bool) : ι → ι → ℕ := s.state.record ref

/-- An access took effect. -/
def Store.record (s : Store ι α) (t : ι) (op : Op ι α) (e : Ret α) : Store ι α :=
  { s with log := s.log ++ [⟨t, op, e⟩] }

/-- `is_read_locked` and `is_write_locked`, on the loaded word. -/
def guardLocked (ref : Bool) (state : SerialWord.Word) : Bool :=
  if ref then decide (state &&& SerialWord.countMask ≠ 0)
    else decide (state &&& SerialWord.writeFlag ≠ 0)

/-- The lock a method asks for: `true` to read. -/
def Job.read : Job α → Bool
  | get => true
  | _ => false

/-- A method that has the lock. -/
def Job.begin : Job α → Outcome (Pc ι α) (Ret α)
  | get => ret .ref
  | getMut => ret .mut
  | swap x => goto (.swapDeref false x)
  | store x => goto (.swapDeref true x)
  | compareExchange current new => goto (.casDeref current new)

/-- The drop of the guard of `t` at the end of a method that returns `e`. -/
def leave (t : ι) (e : Ret α) : Outcome (Pc ι α) (Ret α) := goto (.unlock e (.unlockWrite t))

/-- A method behind the assertion of `deref`; unwinding drops the guard. -/
def asserting (t : ι) (ref : Bool) (s : Store ι α) (p : Pc ι α) : Outcome (Pc ι α) (Ret α) :=
  if guardLocked ref s.state.state then goto p else leave t .assertFailed

/-- Start of a call, with what the caller owes. -/
def enter (t : ι) (op : Op ι α) (s : Store ι α) : Option (Store ι α × Outcome (Pc ι α) (Ret α)) :=
  match op with
  | .get => some (s, goto (.lock .get (.lockFast true)))
  | .getMut => some (s, goto (.lock .getMut (.lockFast false)))
  | .swap x => some (s, goto (.lock (.swap x) (.lockFast false)))
  | .store x => some (s, goto (.lock (.store x) (.lockFast false)))
  | .compareExchange current new =>
    some (s, goto (.lock (.compareExchange current new) (.lockFast false)))
  | .isLocked ref a => if 0 < s.guards ref a t then some (s, goto (.isLocked ref a)) else none
  | .deref ref a => if 0 < s.guards ref a t then some (s, goto (.deref ref a)) else none
  | .read ref a => if 0 < s.guards ref a t then some (s, goto (.read ref a)) else none
  | .write a x => if 0 < s.guards false a t then some (s, goto (.write a x)) else none
  | .drop ref a =>
    if 0 < s.guards ref a t then
      some (s, goto (.unlock .unit (if ref then .unlockReadFast a else .unlockWrite a)))
    else none
  | .send ref a u =>
    (SerialMutex.enter t (if ref then .sendRead a u else .sendWrite a u) s.state).map fun r ↦
      ({ s with state := r.1 }, ret .unit)

/-- A new cell with every thread outside. -/
def init (x : α) : Config ι (Store ι α) (Pc ι α) := ⟨.new x, fun _ ↦ none⟩

variable [DecidableEq α]

/-- The access at a program point. -/
def exec (t : ι) (ch : Choice ι) (s : Store ι α) :
    Pc ι α → Option (Store ι α × Outcome (Pc ι α) (Ret α))
  | .lock job p =>
    match SerialMutex.exec ids adaptive t ch s.state p with
    | none => none
    | some (m, .goto p') => some ({ s with state := m }, goto (.lock job p'))
    | some (m, .ret (.token _)) => some ({ s with state := m }, job.begin)
    | some (m, .ret _) => some ({ s with state := m }, ret .panicked)
  | .unlock e p =>
    match SerialMutex.exec ids adaptive t ch s.state p with
    | none => none
    | some (m, .goto p') => some ({ s with state := m }, goto (.unlock e p'))
    | some (m, .ret .unit) => some ({ s with state := m }, ret e)
    | some (m, .ret _) => some ({ s with state := m }, ret .panicked)
  | .isLocked ref _ => some (s, ret (.bool (guardLocked ref s.state.state)))
  | .deref ref _ => some (s, ret (if guardLocked ref s.state.state then .unit else .assertFailed))
  | .read ref a => some (s.record t (.read ref a) (.value s.val), ret (.value s.val))
  | .write a x => some (({ s with val := x } : Store ι α).record t (.write a x) .unit, ret .unit)
  | .swapDeref quiet x => some (s, asserting t false s (.swapTake quiet x))
  | .swapTake quiet x => some (s, goto (.swapPut quiet x s.val))
  | .swapPut quiet x old =>
    let e := if quiet then .unit else .value old
    some (({ s with val := x } : Store ι α).record t (if quiet then .store x else .swap x) e,
      leave t e)
  | .casDeref current new => some (s, asserting t false s (.casCompare current new))
  | .casCompare current new =>
    if s.val = current then some (s, goto (.casDerefMut current new))
    else some (s.record t (.compareExchange current new) .failed, ret .failed)
  | .casDerefMut current new => some (s, asserting t false s (.casTake current new))
  | .casTake current new => some (s, goto (.casPut current new s.val))
  | .casPut current new old =>
    some (({ s with val := new } : Store ι α).record t (.compareExchange current new) (.ok old),
      leave t (.ok old))

/-- `AtomicCell` -/
def atomicCell : Object ι (Store ι α) (Pc ι α) (Op ι α) (Ret α) where
  enter := enter
  exec := exec ids adaptive

end Code

end AtomicCell

end Crossync
