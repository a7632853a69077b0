import Crossync.Core.RawMutex
import Crossync.Core.SerialMutex

/-!
# The fixed-capacity array `AtomicArray`

An array whose slots are reserved by a counter, filled out of order, and replaced as a whole by
`reset_with`. Every public operation is cut into one step per atomic access; the two locks it uses,
the coordination `RawMutex` and one `SerialMutex` per slot, are the models of those locks, run from
inside the program points `Pc.coord`, `Pc.lock`, `Pc.unlock` and `Pc.dropSlot`.

## Storages

`heap` holds every slot array that was ever allocated, by its address. Addresses are never reused,
so an address is also the name of a **generation**: the one whose slots live there. `head`, `tail`
and `len` belong to no allocation; `headGen`, `tailGen` and `lenGen` record which generation last
took each of them over, and `uses` records, for the current or last call of a thread, the generation
of every slots pointer, capacity and counter that the call has read or modified.

## The ledger

`ledger` lists, for each generation, its reservations in the order in which `tail` handed them out:
who reserved the slot, with which value, and what has been stored through write guards since.
`offered` lists the values each thread has called `push` with, so `(t, n)` names the `n`-th push of
`t`.

None of these records is read by the code, and neither is `guards`, the returned guards by the
thread that holds them, nor `undefined`, which is set when a slot is read before a value was written
to it. A guard keeps the coordination lock shared until its slot lock has been released.

## What is left out

The reference count of the array and the reclamation of its last handle; values are plain data, so a
`clone` or a closure does not itself call back into the array. `for_each_mut` takes the closure as a
function of what it has been shown so far, and an initializer is the list of values it yields before
it panics. The counters of a replacement array are overwritten before it is dropped and never read.

## How a call is cut

A call of the array enters its section by a shared acquisition of the coordination lock, makes its
accesses and leaves. `push`, the loops over the slots and `reset_with` share the code of the
section: what the call does next is kept in a `Job`, and the functions between two accesses
(`visitNext`, `lenCheck`, `pushCheck`) compute the next program point as the straight-line code of
the source does.
-/

open Interleave

namespace Crossync

namespace AtomicArray

/-- `EMPTY` and `WRITE`; the `READ` flag of the source is never stored. -/
inductive SlotState where
  | empty
  | write
  deriving DecidableEq, Repr

/-- A slot of the array. -/
structure Slot (ι α : Type*) where
  value : Option α
  state : SlotState
  lock : SerialMutex.Store ι

/-- A slot array with its capacity. -/
structure Storage (ι α : Type*) where
  capacity : ℕ
  slots : ℕ → Slot ι α

/-- A slot reserved by the `n`-th push of a thread, or filled by the initializer of a reset. -/
structure Reservation (ι α : Type*) where
  pusher : Option (ι × ℕ)
  /-- The value that was accepted. -/
  accepted : α
  /-- What was stored through write guards and `for_each_mut` afterwards. -/
  stores : List α

/-- What the slot holds once it is written. -/
def Reservation.content {ι α : Type*} (r : Reservation ι α) : α := r.stores.getLastD r.accepted

/-- A returned guard: the slot it points into, its kind, and the thread whose number the slot lock
carries. -/
structure Guard (ι : Type*) where
  storage : ℕ
  index : ℕ
  read : Bool
  acquirer : ι
  deriving DecidableEq

/-- The shared store of an array, with the records described above. -/
structure Store (ι α : Type*) where
  heap : ℕ → Storage ι α
  /-- The address the next allocation returns. -/
  next : ℕ
  /-- Storages whose slots were dropped and given back. -/
  freed : ℕ → Bool
  storage : ℕ
  head : ℕ
  tail : ℕ
  len : ℕ
  coordLock : RawMutex.Store ι
  headGen : ℕ
  tailGen : ℕ
  lenGen : ℕ
  ledger : ℕ → List (Reservation ι α)
  offered : ι → List α
  /-- The capacity and the initializer values of the last `reset_with` of each thread. -/
  asked : ι → ℕ × List α
  uses : ι → List ℕ
  guards : ι → List (Guard ι)
  /-- Whether a slot was read while it held no value. -/
  undefined : Bool

/-- The operations of the array, and what a holder does with a guard. -/
inductive Op (ι α : Type*) where
  | push (v : α)
  | get (index : ℕ)
  | getMut (index : ℕ)
  | asVec
  | forEach
  | forEachMut (f : List α → α → α)
  | resetWith (newCap : ℕ) (inits : List α)
  | deref (g : Guard ι)
  | write (g : Guard ι) (v : α)
  | dropGuard (g : Guard ι)
  | sendGuard (g : Guard ι) (dest : ι)

/-- Why a call panics. -/
inductive Panic where
  /-- "Capacity must be greater than 0" -/
  | capacity
  /-- The initializer of a reset panicked. -/
  | initializer
  /-- "reset while holding an AtomicArray guard" -/
  | reset
  /-- A slot lock panicked. -/
  | lock
  deriving DecidableEq, Repr

/-- How an operation ends. -/
inductive Ret (ι α : Type*) where
  | unit
  /-- `push` returned `Ok`. -/
  | pushed
  /-- `push` returned its value. -/
  | full (v : α)
  /-- `get` or `get_mut` returned `None`. -/
  | outOfRange
  | guard (g : Guard ι)
  | value (v : α)
  /-- What `as_vec` collected, or what a closure was shown. -/
  | list (vs : List α)
  /-- `reset_with` returned `Ok`. -/
  | resetOk (n : ℕ)
  | panicked (why : Panic)
  deriving DecidableEq

/-- The calls that look at slots. -/
inductive Job (α : Type*) where
  | get (index : ℕ)
  | getMut (index : ℕ)
  | asVec
  | forEach
  | forEachMut (f : List α → α → α)

/-- Whether a job locks its slots for reading. -/
def Job.reads {α : Type*} : Job α → Bool
  | get _ | asVec | forEach => true
  | getMut _ | forEachMut _ => false

/-- The locals of a call at a slot. -/
structure Visit (α : Type*) where
  job : Job α
  head : ℕ
  len : ℕ
  /-- The slots pointer the slot was taken from. -/
  slots : ℕ
  i : ℕ
  seen : List α

/-- The index of the slot. -/
def Visit.target {α : Type*} (v : Visit α) : ℕ := v.head + v.i

/-- The locals of a reset: the private replacement. -/
structure Reset where
  fresh : ℕ
  newCap : ℕ
  deriving DecidableEq

/-- What the caller of the coordination lock does when the lock operation returns. -/
inductive After (ι α : Type*) where
  | push (v : α)
  | job (j : Job α)
  /-- `try_exclusive_guard` of a reset. -/
  | attempt (r : Reset)
  /-- The shared section in which a reset inspects the slots, its end, and its unwinding. -/
  | inspect (r : Reset)
  | retry (r : Reset)
  | unwind (r : Reset)
  /-- The exclusive section of a reset ends. -/
  | commit (r : Reset) (old : ℕ)
  | finish (r : Ret ι α)

/-- Program points, named after the access that comes next. -/
inductive Pc (ι α : Type*) where
  /-- Inside an operation of the coordination lock. -/
  | coord (p : RawMutex.Pc) (k : After ι α)
  /-- `push`, `push_slow`: load of `tail`. -/
  | pushLoad (slow : Bool) (v : α)
  /-- `push`, `push_slow`: the reserving compare-exchange. -/
  | pushCas (slow : Bool) (v : α) (tail : ℕ)
  | pushWrite (v : α) (slots i : ℕ)
  | pushLen (v : α) (slots i : ℕ)
  | pushState (v : α) (slots i : ℕ)
  | loadLen (j : Job α)
  | loadHead (j : Job α) (len : ℕ)
  /-- `wait_write`: load of the slot state. -/
  | waitWrite (v : Visit α)
  /-- Inside `lock_read` or `lock_write` of the slot. -/
  | lock (p : SerialMutex.Pc ι) (v : Visit α)
  /-- The element is cloned, or shown to the closure. -/
  | access (v : Visit α)
  /-- The slot guard of a loop is dropped. -/
  | unlock (p : SerialMutex.Pc ι) (v : Visit α)
  /-- A returned guard is dropped: release of the slot lock. -/
  | dropSlot (p : SerialMutex.Pc ι) (g : Guard ι)
  /-- `reset_with`: before `try_exclusive_guard`. -/
  | resetTry (r : Reset)
  /-- `reset_with`: before the shared section. -/
  | resetShared (r : Reset)
  /-- `reset_with`: `owned_by_current_thread` of a slot. -/
  | inspect (r : Reset) (i : ℕ)
  /-- `reset_with`: the exchange of the storages and of the three counters. -/
  | resetStorage (r : Reset)
  | resetHead (r : Reset) (old : ℕ)
  | resetTail (r : Reset) (old : ℕ)
  | resetLen (r : Reset) (old : ℕ)
  /-- `reset_with`: the replaced storage is dropped. -/
  | resetDrop (r : Reset) (old : ℕ)

section Code

variable {ι α : Type*} [DecidableEq ι]

open Outcome

/-! ### Private arrays

What `with_capacity`, `init_with` and the preparation of a reset build before anybody else can see
it. The loop is the one of the source, with the values of the initializer as a list, so a panic in
the middle is the end of that list. -/

/-- `Slot::new` -/
def Slot.new : Slot ι α := ⟨none, .empty, .new⟩

/-- `allocate_slots` -/
def allocateSlots (capacity : ℕ) : Storage ι α := ⟨capacity, fun _ ↦ .new⟩

/-- An array that no other thread can reach. -/
structure Private (ι α : Type*) where
  storage : Storage ι α
  tail : ℕ
  len : ℕ

/-- `push` on a private array, its verdict dropped. -/
def Private.push (a : Private ι α) (v : α) : Private ι α :=
  if a.storage.capacity ≤ a.tail then a
  else
    { storage := { a.storage with
        slots := Function.update a.storage.slots a.tail
          { a.storage.slots a.tail with value := some v, state := .write } }
      tail := a.tail + 1
      len := a.len + 1 }

/-- The loop of `init_with`: one push for each value of the initializer. -/
def initLoop : ℕ → List α → Private ι α → Option (Private ι α)
  | 0, _, a => some a
  | _ + 1, [], _ => none
  | n + 1, v :: vs, a => initLoop n vs (a.push v)

/-- `init_with` -/
def initWith (cap : ℕ) (inits : List α) : Except Panic (Private ι α) :=
  if cap = 0 then .error .capacity
  else
    match initLoop cap inits ⟨allocateSlots cap, 0, 0⟩ with
    | some a => .ok a
    | none => .error .initializer

/-- An empty array: `with_capacity`. -/
def Store.new (capacity : ℕ) : Store ι α where
  heap := Function.update (fun _ ↦ allocateSlots 0) 0 (allocateSlots capacity)
  next := 1
  freed := fun _ ↦ false
  storage := 0
  head := 0
  tail := 0
  len := 0
  coordLock := .new
  headGen := 0
  tailGen := 0
  lenGen := 0
  ledger := fun _ ↦ []
  offered := fun _ ↦ []
  asked := fun _ ↦ (0, [])
  uses := fun _ ↦ []
  guards := fun _ ↦ []
  undefined := false

namespace Store

variable (s : Store ι α) (a i : ℕ)

/-- The slot at an index of a storage. -/
def slot : Slot ι α := (s.heap a).slots i

/-- The capacity of the storage in use. -/
def capacity : ℕ := (s.heap s.storage).capacity

/-- The slot at an index of a storage becomes `x`. -/
def setSlot (x : Slot ι α) : Store ι α :=
  { s with
    heap := Function.update s.heap a
      ⟨(s.heap a).capacity, Function.update (s.heap a).slots i x⟩ }

/-- The lock of a slot is left as `l`. -/
def setLock (l : SerialMutex.Store ι) : Store ι α := s.setSlot a i { s.slot a i with lock := l }

/-- A value is stored into a slot that was written before. -/
def store (v : α) : Store ι α :=
  { s.setSlot a i { s.slot a i with value := some v } with
    ledger := Function.update s.ledger a
      ((s.ledger a).modify i fun r ↦ { r with stores := r.stores ++ [v] }) }

/-- The current call of `t` has used cells of the given generations. -/
def use (t : ι) (gens : List ℕ) : Store ι α :=
  { s with uses := Function.update s.uses t (s.uses t ++ gens) }

/-- The storage at `a` is given back. -/
def free : Store ι α := { s with freed := Function.update s.freed a true }

end Store

/-! ### The operations

One function for each stretch of code between two accesses, and `exec` for the accesses. -/

/-- The coordination guard of a call is dropped, then the call returns `r`. -/
def leave (r : Ret ι α) : Pc ι α := .coord .unlockShared (.finish r)

/-- `push`, `push_slow` with `tail` loaded: the capacity check. -/
def pushCheck (slow : Bool) (v : α) (tail capacity : ℕ) : Pc ι α :=
  if capacity ≤ tail then leave (.full v) else .pushCas slow v tail

/-- Head of the loops over the elements. An element beyond the capacity is skipped by `as_vec`, and
with it all that follow. -/
def visitNext (v : Visit α) (capacity : ℕ) : Pc ι α :=
  match v.job with
  | .asVec => if v.i < v.len ∧ v.target < capacity then .waitWrite v else leave (.list v.seen)
  | _ => if v.i < v.len then .waitWrite v else leave (.list v.seen)

/-- A call with `head` and `len` loaded reaches its first slot. -/
def visitFirst (j : Job α) (head len slots capacity : ℕ) : Pc ι α :=
  match j with
  | .get index | .getMut index =>
    if capacity ≤ head + index then leave .outOfRange
    else .waitWrite ⟨j, head, len, slots, index, []⟩
  | _ => visitNext ⟨j, head, len, slots, 0, []⟩ capacity

/-- A call with `len` loaded: an index that is not below it, or an empty array for `as_vec`. -/
def lenCheck (j : Job α) (len : ℕ) : Pc ι α :=
  match j with
  | .get index | .getMut index => if len ≤ index then leave .outOfRange else .loadHead j len
  | .asVec => if len = 0 then leave (.list []) else .loadHead j len
  | _ => .loadHead j len

/-- First access of the release of a slot lock. -/
def releasePc (read : Bool) (acquirer : ι) : SerialMutex.Pc ι :=
  if read then .unlockReadFast acquirer else .unlockWrite acquirer

/-- Head of the loop in which a reset inspects the slots. -/
def inspectNext (r : Reset) (i capacity : ℕ) : Pc ι α :=
  if i < capacity then .inspect r i else .coord .unlockShared (.retry r)

/-- The call goes on when an operation of the coordination lock has returned. -/
def resume (s : Store ι α) : After ι α → RawMutex.Ret → Store ι α × Outcome (Pc ι α) (Ret ι α)
  | .push v, _ => (s, goto (.pushLoad false v))
  | .job j, _ => (s, goto (.loadLen j))
  | .attempt r, .bool true => (s, goto (.resetStorage r))
  | .attempt r, _ => (s, goto (.resetShared r))
  | .inspect r, _ => (s, goto (inspectNext r 0 s.capacity))
  | .retry r, _ => (s, goto (.resetTry r))
  | .unwind r, _ => (s.free r.fresh, ret (.panicked .reset))
  | .commit r old, _ => (s, goto (.resetDrop r old))
  | .finish r, _ => (s, ret r)

/-- A slot lock was taken: `get` and `get_mut` return a guard that keeps the coordination lock
shared, a loop goes on to the element. -/
def locked (t : ι) (s : Store ι α) (v : Visit α) : Store ι α × Outcome (Pc ι α) (Ret ι α) :=
  match v.job with
  | .get _ | .getMut _ =>
    let g : Guard ι := ⟨v.slots, v.target, v.job.reads, t⟩
    ({ s with guards := Function.update s.guards t (s.guards t ++ [g]) }, ret (.guard g))
  | _ => (s, goto (.access v))

/-- The element `x` is cloned or shown to the closure, which `for_each_mut` lets replace it. -/
def shown (s : Store ι α) (v : Visit α) (x : α) : Store ι α :=
  match v.job with
  | .forEachMut f => s.store v.slots v.target (f v.seen x)
  | _ => s

/-- A reservation made by the last push that `t` has started. -/
def Store.reserve (s : Store ι α) (t : ι) (v : α) (tail : ℕ) : Store ι α :=
  { s with
    tail := tail
    ledger := Function.update s.ledger s.storage
      (s.ledger s.storage ++ [⟨some (t, (s.offered t).length - 1), v, []⟩]) }

/-- A private replacement becomes known under the next address. -/
def Store.adopt (s : Store ι α) (a : Private ι α) (filled : List α) : Store ι α :=
  { s with
    heap := Function.update s.heap s.next a.storage
    next := s.next + 1
    ledger := Function.update s.ledger s.next (filled.map fun v ↦ ⟨none, v, []⟩) }

/-- The guard `g` leaves the hands of `t`. -/
def Store.giveUp (s : Store ι α) (t : ι) (g : Guard ι) : Store ι α :=
  { s with guards := Function.update s.guards t ((s.guards t).erase g) }

/-- A call of `t` starts. -/
def Store.start (s : Store ι α) (t : ι) : Store ι α :=
  { s with uses := Function.update s.uses t [] }

/-- First access of a call that takes the coordination lock shared. -/
def shared (k : After ι α) : Pc ι α := .coord (.sharedFastLoad true) k

/-- Start of a call. A guard is used only by the thread that holds it. -/
def enter (t : ι) (op : Op ι α) (s : Store ι α) :
    Option (Store ι α × Outcome (Pc ι α) (Ret ι α)) :=
  match op with
  | .push v =>
    some ({ s.start t with offered := Function.update s.offered t (s.offered t ++ [v]) },
      goto (shared (.push v)))
  | .get index => some (s.start t, goto (shared (.job (.get index))))
  | .getMut index => some (s.start t, goto (shared (.job (.getMut index))))
  | .asVec => some (s.start t, goto (shared (.job .asVec)))
  | .forEach => some (s.start t, goto (shared (.job .forEach)))
  | .forEachMut f => some (s.start t, goto (shared (.job (.forEachMut f))))
  | .resetWith newCap inits =>
    match initWith newCap inits with
    | .error why => some (s, ret (.panicked why))
    | .ok a =>
      some ({ (s.start t).adopt a (inits.take newCap) with
        asked := Function.update s.asked t (newCap, inits) }, goto (.resetTry ⟨s.next, newCap⟩))
  | .deref g =>
    if g ∈ s.guards t then
      match (s.slot g.storage g.index).value with
      | some x => some (s, ret (.value x))
      | none => some ({ s with undefined := true }, ret .unit)
    else none
  | .write g v =>
    if g ∈ s.guards t ∧ g.read = false then some (s.store g.storage g.index v, ret .unit) else none
  | .dropGuard g =>
    if g ∈ s.guards t then
      some ((s.giveUp t g).start t, goto (.dropSlot (releasePc g.read g.acquirer) g))
    else none
  | .sendGuard g u =>
    if g ∈ s.guards t then
      match RawMutex.enter t (.sendShared u) s.coordLock,
        SerialMutex.enter t (if g.read then .sendRead g.acquirer u else .sendWrite g.acquirer u)
          (s.slot g.storage g.index).lock with
      | some (l, _), some (m, _) =>
        some ({ (s.giveUp t g).setLock g.storage g.index m with
          coordLock := l
          guards := Function.update (s.giveUp t g).guards u ((s.giveUp t g).guards u ++ [g]) },
          ret .unit)
      | _, _ => none
    else none

variable [Fintype ι] (ids : SerialMutex.OwnerIds ι) (adaptive : ℕ)

/-- A step of a slot lock from inside a call of the array. -/
def slotStep (t : ι) (ch : Choice ι) (s : Store ι α) (a i : ℕ) (p : SerialMutex.Pc ι)
    (stay : SerialMutex.Pc ι → Pc ι α)
    (done : Store ι α → SerialMutex.Ret → Store ι α × Outcome (Pc ι α) (Ret ι α)) :
    Option (Store ι α × Outcome (Pc ι α) (Ret ι α)) :=
  match SerialMutex.exec ids adaptive t ch (s.slot a i).lock p with
  | none => none
  | some (l, .goto p') => some (s.setLock a i l, goto (stay p'))
  | some (l, .ret e) => some (done (s.setLock a i l) e)

/-- The access at a program point. -/
def exec (t : ι) (ch : Choice ι) (s : Store ι α) :
    Pc ι α → Option (Store ι α × Outcome (Pc ι α) (Ret ι α))
  | .coord p k =>
    match RawMutex.exec adaptive t ch s.coordLock p with
    | none => none
    | some (l, .goto p') => some ({ s with coordLock := l }, goto (.coord p' k))
    | some (l, .ret e) => some (resume { s with coordLock := l } k e)
  | .pushLoad slow v =>
    some (s.use t [s.tailGen, s.storage], goto (pushCheck slow v s.tail s.capacity))
  | .pushCas slow v tail =>
    match cas s.tail tail (tail + 1) with
    | .ok w =>
      some ((s.use t [s.tailGen, s.storage]).reserve t v w, goto (.pushWrite v s.storage tail))
    | .error w =>
      -- the fast path falls back to `push_slow`, whose loop goes on with the word found
      some (s.use t [s.tailGen, s.storage],
        goto (if slow then pushCheck true v w s.capacity else .pushLoad true v))
  | .pushWrite v a i =>
    some (s.setSlot a i { s.slot a i with value := some v }, goto (.pushLen v a i))
  | .pushLen v a i =>
    some ({ s.use t [s.lenGen] with len := s.len + 1 }, goto (.pushState v a i))
  | .pushState _ a i =>
    some (s.setSlot a i { s.slot a i with state := .write }, goto (leave .pushed))
  | .loadLen j => some (s.use t [s.lenGen], goto (lenCheck j s.len))
  | .loadHead j len =>
    some (s.use t [s.headGen, s.storage], goto (visitFirst j s.head len s.storage s.capacity))
  | .waitWrite v =>
    match (s.slot v.slots v.target).state with
    | .write => some (s, goto (.lock (.lockFast v.job.reads) v))
    | .empty => some (s, goto (.waitWrite v))
  | .lock p v =>
    slotStep ids adaptive t ch s v.slots v.target p (.lock · v) fun s' e ↦ match e with
      | .token _ => locked t s' v
      | _ => (s', goto (leave (.panicked .lock)))
  | .access v =>
    match (s.slot v.slots v.target).value with
    | some x =>
      some (shown s v x,
        goto (.unlock (releasePc v.job.reads t) { v with seen := v.seen ++ [x] }))
    | none =>
      some ({ s with undefined := true }, goto (.unlock (releasePc v.job.reads t) v))
  | .unlock p v =>
    slotStep ids adaptive t ch s v.slots v.target p (.unlock · v) fun s' e ↦ match e with
      | .unit =>
        (s'.use t [s.storage],
          goto (visitNext { v with i := v.i + 1, slots := s.storage } s.capacity))
      | _ => (s', goto (leave (.panicked .lock)))
  | .dropSlot p g =>
    slotStep ids adaptive t ch s g.storage g.index p (.dropSlot · g) fun s' e ↦ match e with
      | .unit => (s', goto (leave .unit))
      | _ => (s', ret (.panicked .lock))
  | .resetTry r => some (s, goto (.coord .tryLockExclusive (.attempt r)))
  | .resetShared r => some (s, goto (shared (.inspect r)))
  | .inspect r i =>
    if (s.slot s.storage i).lock.state &&& SerialWord.ownerMask =
      SerialWord.ownerBits (ids.id t) then
      some (s, goto (.coord .unlockShared (.unwind r)))
    else some (s, goto (inspectNext r (i + 1) s.capacity))
  | .resetStorage r => some ({ s with storage := r.fresh }, goto (.resetHead r s.storage))
  | .resetHead r old =>
    some ({ s with head := 0, headGen := r.fresh }, goto (.resetTail r old))
  | .resetTail r old =>
    some ({ s with tail := r.newCap, tailGen := r.fresh }, goto (.resetLen r old))
  | .resetLen r old =>
    some ({ s with len := r.newCap, lenGen := r.fresh },
      goto (.coord .unlockExclusiveFast (.commit r old)))
  | .resetDrop r old => some (s.free old, ret (.resetOk r.newCap))

/-- `AtomicArray` on a machine reporting `adaptive` units of parallelism. -/
def atomicArray : Object ι (Store ι α) (Pc ι α) (Op ι α) (Ret ι α) where
  enter := enter
  exec := exec ids adaptive

/-- A new array with every thread outside. -/
def init (capacity : ℕ) : Config ι (Store ι α) (Pc ι α) := ⟨.new capacity, fun _ ↦ none⟩

end Code

end AtomicArray

end Crossync
