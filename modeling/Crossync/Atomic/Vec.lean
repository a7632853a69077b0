import Crossync.Core.Coord
import Crossync.Atomic.Buffer

/-!
# The unbounded queue `AtomicVec`

A chain of blocks of 31 data slots. Pushes reserve slots by advancing `tail`, pops by advancing
`head`; the push that reserves the last slot of a block links the next block, the pop that does so
moves `head` on to it, and the pop that completes the 31st read of a block retires it. Retired
blocks are reset and pooled, or freed, under exclusive coordination. Every operation is cut into one
step per atomic access or slot access.

## Components

A push or a pop is pinned in the structure's `Coord`, and new blocks are taken from and returned to
a pool that is an `AtomicBuffer`. The accesses of both are run from inside the program points of
this object (`pushPin`, `popUnpin`, `poolPop`, `ReclaimPoint.enter`, …), so what is proved about
their runs applies to their part of the store here.

## Memory

A pointer is an address, `0` is null. An allocation returns any address that is not allocated, also
one that has been freed before; `heap` gives the content of an address. The word of a position is
the slot index shifted left by one with the bit `HAS_NEXT` below; indices are unbounded. The last
slot of a block, offset 31, holds no data.

## What is not code

A slot's value carries the number of the data slot it was written for, `pushes` lists the pushed
values by reserved slot, `pops` counts the slots reserved by pops, and `returned` lists, for the
completed pops, the slot they reserved and what they return. Reading a value moves it out of the
slot.

## Ends and index words

`head.index` and `tail.index` are the numbers of the next slots, shifted by one, with the flag
`HAS_NEXT` in the low bit of the first. They are moved by a compare-exchange on the word, except at
the end of a block, where the thread that got the last slot moves the end on by plain stores. So the
order in which a block's address and its index are stored is visible to others, and it is a step of
the model each.
-/

open Interleave

namespace Crossync

namespace AtomicVec

/-- `BLOCK_CAP`. -/
def blockCap : ℕ := 32

/-- `WRITE`. -/
def write : ℕ := 1

/-- `READ`. -/
def read : ℕ := 2

/-- The offset in its block of an index word. -/
def offset (index : ℕ) : ℕ := index / 2 % blockCap

/-- The number of a data slot, counting data slots in index order. -/
def number (slot : ℕ) : ℕ := (blockCap - 1) * (slot / blockCap) + slot % blockCap

/-- `calc_len` on two slot indices. -/
def calcLen (start stop : ℕ) : ℕ :=
  if stop ≤ start then 0
  else (stop / blockCap * (blockCap - 1) + min (stop % blockCap) (blockCap - 1)) -
    (start / blockCap * (blockCap - 1) + min (start % blockCap) (blockCap - 1))

/-- A block. -/
structure Block (α : Type*) where
  next : ℕ
  counters : ℕ
  state : ℕ → ℕ
  value : ℕ → Option (ℕ × α)

/-- A block as `alloc_zeroed` returns it. -/
def Block.zeroed {α : Type*} : Block α := ⟨0, 0, fun _ ↦ 0, fun _ ↦ none⟩

/-- One end of the queue. -/
structure Position where
  index : ℕ
  block : ℕ
  deriving DecidableEq, Repr

/-- What a pop has: nothing, or the slot it reserved and what it took from it. -/
abbrev Result (α : Type*) := Option (ℕ × Option (ℕ × α))

/-- The shared store. -/
structure Store (ι α : Type*) where
  head : Position
  tail : Position
  /-- `block_array`: the tags (`none` is `usize::MAX`) and the pointers. -/
  cacheTag : ℕ → Option ℕ
  cachePtr : ℕ → ℕ
  freeList : AtomicBuffer.Store ℕ
  retired : ℕ
  retiredCount : ℕ
  coordLock : Coord.Store ι
  /-- The memory. -/
  heap : ℕ → Block α
  allocated : ℕ → Bool
  /-- The pushed values, by reserved slot. -/
  pushes : List α
  /-- How many slots pops have reserved. -/
  pops : ℕ
  /-- The slots reserved by the completed pops and what these return. -/
  returned : List (ℕ × Option (ℕ × α))

/-- The operations, and the use of another structure by a thread. -/
inductive Op (α : Type*) where
  | push (value : α)
  | pop
  | tryReclaim
  | len
  | evict
  deriving DecidableEq

/-- How an operation ends. -/
inductive Ret (α : Type*) where
  | unit
  | popped (res : Result α)
  | len (n : ℕ)
  /-- The coordination panicked. -/
  | panicked
  deriving DecidableEq, Repr

/-- The locals of a push that has loaded both words of `tail`. -/
structure PushFrame (α : Type*) where
  value : α
  lane : ℕ
  tail : ℕ
  block : ℕ
  deriving DecidableEq

/-- The accesses of a push that has loaded both words of `tail`. -/
inductive PushPoint where
  /-- The reserving compare-exchange. -/
  | cas
  /-- `acquire_block`: the two loads of `is_empty_fast`. -/
  | poolHead
  | poolTail (head : ℕ)
  /-- `acquire_block`: inside the pool's `pop`. -/
  | poolPop (p : AtomicBuffer.Pc ℕ)
  /-- `Block::new`. -/
  | alloc
  /-- The link of the next block: its pointer, its cache entry, and the two words of `tail`. -/
  | linkNext (next : ℕ)
  | cachePtr (next : ℕ)
  | cacheTag (next : ℕ)
  | linkBlock (next : ℕ)
  | linkIndex
  /-- The slot's value, then its state. -/
  | write
  | publish
  deriving DecidableEq

/-- The locals of a pop that has loaded both words of `head`. -/
structure PopFrame where
  lane : ℕ
  head : ℕ
  block : ℕ
  deriving DecidableEq

/-- The accesses of a pop that has loaded both words of `head`. -/
inductive PopPoint (α : Type*) where
  /-- Load of `tail.index`. -/
  | tail
  /-- The reserving compare-exchange. -/
  | cas (newHead : ℕ)
  /-- `wait_next`. -/
  | waitNext (newHead : ℕ)
  /-- `get_next` of the next block. -/
  | getNext (newHead next : ℕ)
  /-- The two words of `head` are moved to the next block. -/
  | headBlock (next nextIndex : ℕ)
  | headIndex (nextIndex : ℕ)
  /-- `wait_write_raw`. -/
  | waitWrite
  /-- The slot's value is read, then its state is stored. -/
  | take
  | mark (value : Option (ℕ × α))
  /-- The block's read counter. -/
  | count (value : Option (ℕ × α))
  /-- `retire`. -/
  | retireLoad (value : Option (ℕ × α))
  | retireNext (value : Option (ℕ × α)) (next : ℕ)
  | retireCas (value : Option (ℕ × α)) (next : ℕ)
  | retireCount (value : Option (ℕ × α))
  deriving DecidableEq

/-- The accesses of `try_reclaim`. -/
inductive ReclaimPoint (ι : Type*) where
  /-- Load of `retired_count`. -/
  | count
  /-- Inside `exclusive` or `try_exclusive`. -/
  | enter (p : Coord.Pc ι)
  /-- `reclaim_retired`: the retired list is taken. -/
  | swap
  | zero (block : ℕ)
  /-- `reclaim_retired`: the loop over the list. -/
  | loadNext (block : ℕ)
  | poolHead (block next : ℕ)
  | poolTail (block next head : ℕ)
  /-- `dealloc_empty`. -/
  | free (block next : ℕ)
  /-- `Block::reset`. -/
  | resetNext (block next : ℕ)
  | resetCount (block next : ℕ)
  | resetSlot (block next i : ℕ)
  /-- Inside the pool's `push`. -/
  | poolPush (block next : ℕ) (p : AtomicBuffer.Pc ℕ)
  /-- Inside the drop of the exclusive guard. -/
  | leave (p : Coord.Pc ι)
  deriving DecidableEq

/-- Program points, named after the access that comes next. -/
inductive Pc (ι α : Type*) where
  /-- `push`: inside `shared`. -/
  | pushPin (value : α) (p : Coord.Pc ι)
  /-- `push`: loads of the two words of `tail`. -/
  | pushTail (value : α) (lane : ℕ)
  | pushBlock (value : α) (lane tail : ℕ)
  | push (f : PushFrame α) (pt : PushPoint)
  /-- `push`: inside the drop of the pin. -/
  | pushUnpin (p : Coord.Pc ι)
  /-- `pop`: inside `shared`. -/
  | popPin (p : Coord.Pc ι)
  /-- `pop`: loads of the two words of `head`. -/
  | popHead (lane : ℕ)
  | popBlock (lane head : ℕ)
  | pop (f : PopFrame) (pt : PopPoint α)
  /-- `pop`: inside the drop of the pin. -/
  | popUnpin (res : Result α) (reclaim : Bool) (p : Coord.Pc ι)
  /-- `try_reclaim`; `r` is what the call then returns. -/
  | reclaim (r : Ret α) (pt : ReclaimPoint ι)
  /-- `len`: loads of the two indices. -/
  | lenHead
  | lenTail (head : ℕ)
  deriving DecidableEq

section Code

variable {ι α : Type*} [DecidableEq ι] (ids : Coord.ThreadIds ι) (adaptive : ℕ)

open Outcome

/-- `AtomicVec::new`, with its first block at address `first`. -/
def Store.new (first : ℕ) : Store ι α where
  head := ⟨0, first⟩
  tail := ⟨0, first⟩
  cacheTag := Function.update (fun _ ↦ none) 0 (some 0)
  cachePtr := Function.update (fun _ ↦ 0) 0 first
  freeList := .empty 512
  retired := 0
  retiredCount := 0
  coordLock := .new
  heap := fun _ ↦ .zeroed
  allocated := fun b ↦ decide (b = first)
  pushes := []
  pops := 0
  returned := []

namespace Store

variable (s : Store ι α) (b : ℕ)

/-- The content of the block at `b` becomes `x`. -/
def setBlock (x : Block α) : Store ι α := { s with heap := Function.update s.heap b x }

/-- The link of the block at `b` is stored. -/
def setNext (next : ℕ) : Store ι α := s.setBlock b { s.heap b with next := next }

/-- A slot state of the block at `b` is stored. -/
def setState (off st : ℕ) : Store ι α :=
  s.setBlock b { s.heap b with state := Function.update (s.heap b).state off st }

/-- A slot value of the block at `b` is written or moved out. -/
def setValue (off : ℕ) (x : Option (ℕ × α)) : Store ι α :=
  s.setBlock b { s.heap b with value := Function.update (s.heap b).value off x }

/-- The read counter of the block at `b` is stored. -/
def setCounters (n : ℕ) : Store ι α := s.setBlock b { s.heap b with counters := n }

end Store

/-- A step of the coordination from inside a call of the queue. -/
def coordStep (s : Store ι α) (r : Option (Coord.Store ι × Outcome (Coord.Pc ι) Coord.Ret))
    (stay : Coord.Pc ι → Pc ι α)
    (done : Store ι α → Coord.Ret → Store ι α × Outcome (Pc ι α) (Ret α)) :
    Option (Store ι α × Outcome (Pc ι α) (Ret α)) :=
  match r with
  | none => none
  | some (l, .goto p) => some ({ s with coordLock := l }, goto (stay p))
  | some (l, .ret r) => some (done { s with coordLock := l } r)

omit [DecidableEq ι] in
/-- **What a step of the coordination can do**: the call stays there, or goes on with what the
coordination returned. -/
theorem coordStep_cases {s s' : Store ι α}
    {r : Option (Coord.Store ι × Outcome (Coord.Pc ι) Coord.Ret)} {stay : Coord.Pc ι → Pc ι α}
    {done : Store ι α → Coord.Ret → Store ι α × Outcome (Pc ι α) (Ret α)}
    {o : Outcome (Pc ι α) (Ret α)} (h : coordStep s r stay done = some (s', o)) :
    ∃ l, (∃ p', r = some (l, .goto p') ∧ s' = { s with coordLock := l } ∧ o = .goto (stay p')) ∨
      ∃ e, r = some (l, .ret e) ∧ (s', o) = done { s with coordLock := l } e := by
  unfold coordStep at h
  split at h
  · cases h
  · rename_i l p'
    cases h
    exact ⟨l, Or.inl ⟨p', rfl, rfl, rfl⟩⟩
  · rename_i l e
    exact ⟨l, Or.inr ⟨e, rfl, (Option.some.inj h).symm⟩⟩

/-- A call returns; a pop that got a value is entered in the record. -/
def finish (s : Store ι α) (r : Ret α) : Store ι α × Outcome (Pc ι α) (Ret α) :=
  match r with
  | .popped (some e) => ({ s with returned := s.returned ++ [e] }, ret r)
  | _ => (s, ret r)

/-- Head of the loop of `push_internal`, with both words of `tail` loaded. -/
def pushLoop (f : PushFrame α) : Pc ι α :=
  if offset f.tail = blockCap - 1 then .pushTail f.value f.lane else .push f .cas

/-- The cache entry of the block that a push links. -/
def linkIdx (f : PushFrame α) : ℕ := (f.tail + 2) / 2 / blockCap + 1

/-- Head of the loop of `pop_raw`, with both words of `head` loaded: `tail` is looked at only while
`HAS_NEXT` is clear. -/
def popLoop (f : PopFrame) : Pc ι α :=
  if offset f.head = blockCap - 1 ∨ f.block = 0 then .popHead f.lane
  else if (f.head + 2) % 2 = 0 then .pop f .tail
  else .pop f (.cas (f.head + 2))

/-- Head of the loop of `reclaim_retired`. -/
def reclaimLoop (t : ι) (r : Ret α) (block : ℕ) : Pc ι α :=
  if block = 0 then .reclaim r (.leave (.dropExclusive t)) else .reclaim r (.loadNext block)

/-- Start of a call. -/
def enter (t : ι) (op : Op α) (s : Store ι α) : Option (Store ι α × Outcome (Pc ι α) (Ret α)) :=
  match op with
  | .push v => some (s, goto (.pushPin v (Coord.sharedPc (s.coordLock.last t))))
  | .pop => some (s, goto (.popPin (Coord.sharedPc (s.coordLock.last t))))
  | .tryReclaim => some (s, goto (.reclaim .unit .count))
  | .len => some (s, goto .lenHead)
  | .evict =>
    some ({ s with coordLock := { s.coordLock with
      last := Function.update s.coordLock.last t none } }, ret .unit)

/-- The access of a push that has loaded both words of `tail`. -/
def execPush (t : ι) (ch : Choice ι) (s : Store ι α) (f : PushFrame α) :
    PushPoint → Option (Store ι α × Outcome (Pc ι α) (Ret α))
  | .cas =>
    match casWeak ch s.tail.index f.tail (f.tail + 2) with
    | .ok w => some ({ s with tail := { s.tail with index := w }, pushes := s.pushes ++ [f.value] },
        goto (.push f (if offset f.tail + 1 = blockCap - 1 then .poolHead else .write)))
    | .error e => some (s, goto (.pushBlock f.value f.lane e))
  | .poolHead => some (s, goto (.push f (.poolTail s.freeList.head)))
  | .poolTail head =>
    if AtomicBuffer.lenApprox s.freeList.cap head s.freeList.tail = 0 then
      some (s, goto (.push f .alloc))
    else some (s, goto (.push f (.poolPop (AtomicBuffer.popPc s.freeList))))
  | .poolPop p =>
    match AtomicBuffer.exec t ch s.freeList p with
    | none => none
    | some (l, .goto p') => some ({ s with freeList := l }, goto (.push f (.poolPop p')))
    | some (l, .ret (.popped (some b))) =>
      some ({ s with freeList := l }, goto (.push f (.linkNext b)))
    | some (l, .ret _) => some ({ s with freeList := l }, goto (.push f .alloc))
  | .alloc =>
    match ch with
    | .addr b =>
      if b ≠ 0 ∧ s.allocated b = false then
        some ({ s.setBlock b .zeroed with allocated := Function.update s.allocated b true },
          goto (.push f (.linkNext b)))
      else none
    | _ => none
  | .linkNext next => some (s.setNext f.block next, goto (.push f (.cachePtr next)))
  | .cachePtr next =>
    some ({ s with cachePtr := Function.update s.cachePtr (linkIdx f % blockCap) next },
      goto (.push f (.cacheTag next)))
  | .cacheTag next =>
    some
      ({ s with cacheTag := Function.update s.cacheTag (linkIdx f % blockCap) (some (linkIdx f)) },
      goto (.push f (.linkBlock next)))
  | .linkBlock next =>
    some ({ s with tail := { s.tail with block := next } }, goto (.push f .linkIndex))
  | .linkIndex =>
    some ({ s with tail := { s.tail with index := f.tail + 2 + 2 } }, goto (.push f .write))
  | .write =>
    some (s.setValue f.block (offset f.tail) (some (number (f.tail / 2), f.value)),
      goto (.push f .publish))
  | .publish =>
    some (s.setState f.block (offset f.tail) AtomicVec.write,
      goto (.pushUnpin (Coord.dropPc f.lane)))

/-- The access of a pop that has loaded both words of `head`. -/
def execPop (ch : Choice ι) (s : Store ι α) (f : PopFrame) :
    PopPoint α → Option (Store ι α × Outcome (Pc ι α) (Ret α))
  | .tail =>
    if f.head / 2 = s.tail.index / 2 then
      some (s, goto (.popUnpin none false (Coord.dropPc f.lane)))
    else if f.head / 2 / blockCap ≠ s.tail.index / 2 / blockCap then
      some (s, goto (.pop f (.cas (f.head + 2 + 1))))
    else some (s, goto (.pop f (.cas (f.head + 2))))
  | .cas newHead =>
    match casWeak ch s.head.index f.head newHead with
    | .ok w => some ({ s with head := { s.head with index := w }, pops := s.pops + 1 },
        goto (.pop f (if offset f.head + 1 = blockCap - 1 then .waitNext newHead else .waitWrite)))
    | .error e => some (s, goto (.popBlock f.lane e))
  | .waitNext newHead =>
    if (s.heap f.block).next = 0 then some (s, goto (.pop f (.waitNext newHead)))
    else some (s, goto (.pop f (.getNext newHead (s.heap f.block).next)))
  | .getNext newHead next =>
    let nextIndex := newHead - newHead % 2 + 2
    if (s.heap next).next ≠ 0 then some (s, goto (.pop f (.headBlock next (nextIndex + 1))))
    else some (s, goto (.pop f (.headBlock next nextIndex)))
  | .headBlock next nextIndex =>
    some ({ s with head := { s.head with block := next } }, goto (.pop f (.headIndex nextIndex)))
  | .headIndex nextIndex =>
    some ({ s with head := { s.head with index := nextIndex } }, goto (.pop f .waitWrite))
  | .waitWrite =>
    if (s.heap f.block).state (offset f.head) &&& AtomicVec.write = 0 then
      some (s, goto (.pop f .waitWrite))
    else some (s, goto (.pop f .take))
  | .take =>
    some (s.setValue f.block (offset f.head) none,
      goto (.pop f (.mark ((s.heap f.block).value (offset f.head)))))
  | .mark v => some (s.setState f.block (offset f.head) AtomicVec.read, goto (.pop f (.count v)))
  | .count v =>
    let readCount := (s.heap f.block).counters + 1
    some (s.setCounters f.block readCount,
      goto (if readCount = blockCap - 1 then .pop f (.retireLoad v)
        else .popUnpin (some (number (f.head / 2), v)) false (Coord.dropPc f.lane)))
  | .retireLoad v => some (s, goto (.pop f (.retireNext v s.retired)))
  | .retireNext v next => some (s.setNext f.block next, goto (.pop f (.retireCas v next)))
  | .retireCas v next =>
    match casWeak ch s.retired next f.block with
    | .ok w => some ({ s with retired := w }, goto (.pop f (.retireCount v)))
    | .error e => some (s, goto (.pop f (.retireNext v e)))
  | .retireCount v =>
    let retired := s.retiredCount + 1
    some ({ s with retiredCount := retired },
      goto (.popUnpin (some (number (f.head / 2), v)) (decide (64 ≤ retired ∧ retired % 64 = 0))
        (Coord.dropPc f.lane)))

/-- The access of a `try_reclaim`. -/
def execReclaim (t : ι) (ch : Choice ι) (s : Store ι α) (r : Ret α) :
    ReclaimPoint ι → Option (Store ι α × Outcome (Pc ι α) (Ret α))
  | .count =>
    if s.retiredCount = 0 then some (finish s r)
    else if 512 ≤ s.retiredCount then
      some (s, goto (.reclaim r (.enter (.locking (.lockFast false)))))
    else some (s, goto (.reclaim r (.enter (.trying .tryWriteGuard))))
  | .enter p =>
    coordStep s (Coord.exec ids adaptive t ch s.coordLock p) (fun p ↦ .reclaim r (.enter p))
      fun s' e ↦ match e with
        | .exclusive => (s', goto (.reclaim r .swap))
        | .busy => finish s' r
        | _ => (s', ret .panicked)
  | .swap => some ({ s with retired := 0 }, goto (.reclaim r (.zero s.retired)))
  | .zero block => some ({ s with retiredCount := 0 }, goto (reclaimLoop t r block))
  | .loadNext block => some (s, goto (.reclaim r (.poolHead block (s.heap block).next)))
  | .poolHead block next => some (s, goto (.reclaim r (.poolTail block next s.freeList.head)))
  | .poolTail block next head =>
    if AtomicBuffer.lenApprox s.freeList.cap head s.freeList.tail = s.freeList.cap then
      some (s, goto (.reclaim r (.free block next)))
    else some (s, goto (.reclaim r (.resetNext block next)))
  | .free block next =>
    some ({ s with allocated := Function.update s.allocated block false },
      goto (reclaimLoop t r next))
  | .resetNext block next => some (s.setNext block 0, goto (.reclaim r (.resetCount block next)))
  | .resetCount block next =>
    some (s.setCounters block 0, goto (.reclaim r (.resetSlot block next 0)))
  | .resetSlot block next i =>
    some (s.setState block i 0,
      goto (if i + 1 < blockCap then .reclaim r (.resetSlot block next (i + 1))
        else .reclaim r (.poolPush block next (AtomicBuffer.pushPc s.freeList block))))
  | .poolPush block next p =>
    match AtomicBuffer.exec t ch s.freeList p with
    | none => none
    | some (l, .goto p') =>
      some ({ s with freeList := l }, goto (.reclaim r (.poolPush block next p')))
    | some (l, .ret .ok) => some ({ s with freeList := l }, goto (reclaimLoop t r next))
    | some (l, .ret _) => some ({ s with freeList := l }, goto (.reclaim r (.free block next)))
  | .leave p =>
    coordStep s (Coord.exec ids adaptive t ch s.coordLock p) (fun p ↦ .reclaim r (.leave p))
      fun s' _ ↦ finish s' r

/-- The access at a program point. -/
def exec (t : ι) (ch : Choice ι) (s : Store ι α) :
    Pc ι α → Option (Store ι α × Outcome (Pc ι α) (Ret α))
  | .pushPin v p =>
    coordStep s (Coord.exec ids adaptive t ch s.coordLock p) (.pushPin v) fun s' e ↦ match e with
      | .pinned lane => (s', goto (.pushTail v lane))
      | _ => (s', ret .panicked)
  | .pushTail v lane => some (s, goto (.pushBlock v lane s.tail.index))
  | .pushBlock v lane tail => some (s, goto (pushLoop ⟨v, lane, tail, s.tail.block⟩))
  | .push f pt => execPush t ch s f pt
  | .pushUnpin p =>
    coordStep s (Coord.exec ids adaptive t ch s.coordLock p) .pushUnpin fun s' _ ↦ (s', ret .unit)
  | .popPin p =>
    coordStep s (Coord.exec ids adaptive t ch s.coordLock p) .popPin fun s' e ↦ match e with
      | .pinned lane => (s', goto (.popHead lane))
      | _ => (s', ret .panicked)
  | .popHead lane => some (s, goto (.popBlock lane s.head.index))
  | .popBlock lane head => some (s, goto (popLoop ⟨lane, head, s.head.block⟩))
  | .pop f pt => execPop ch s f pt
  | .popUnpin res reclaim p =>
    coordStep s (Coord.exec ids adaptive t ch s.coordLock p) (.popUnpin res reclaim) fun s' _ ↦
      if reclaim then (s', goto (.reclaim (.popped res) .count)) else finish s' (.popped res)
  | .reclaim r pt => execReclaim ids adaptive t ch s r pt
  | .lenHead => some (s, goto (.lenTail (s.head.index / 2)))
  | .lenTail head => some (s, ret (.len (calcLen head (s.tail.index / 2))))

/-- `AtomicVec` on a machine reporting `adaptive` units of parallelism. -/
def atomicVec : Object ι (Store ι α) (Pc ι α) (Op α) (Ret α) where
  enter := enter
  exec := exec ids adaptive

/-- A new queue with every thread outside. -/
def init (first : ℕ) : Config ι (Store ι α) (Pc ι α) := ⟨.new first, fun _ ↦ none⟩

end Code

end AtomicVec

end Crossync
