import Crossync.Linked.Chain
import Crossync.Atomic.BufferAlone
import Crossync.Atomic.Vec

/-!
# The unbounded queue `AtomicVec`, one call at a time

The operations of the queue on its blocks, its pool and its list of retired blocks, with the
pointers kept: a block is reached through `head`, `tail`, a link or the pool, and reading through a
pointer to no block fails (`none`). So does a loop that would wait for another thread, a read of a
slot that holds no value, and a loop over links or over the content that does not end within `fuel`
rounds.

Run one at a time, an operation that enters the coordination finds it free, and a compare-exchange
finds the words it has just loaded, so neither shows here; a weak exchange that fails for no reason
finds the same words again.

Where a new block goes is up to the allocator: `alloc n m` is the address it returns to the `n`-th
allocation, made with the memory `m`. The values of `reset_with` are those its initializer yields,
call by call. As in the interleaved model a value carries the number of the data slot it was written
to, and an index word is a natural number.

Memory does not run out. But a vector of more than `isize::MAX` bytes cannot be asked for at all:
where the code prepares one with `Vec::with_capacity`, for values of `size` bytes, it panics
("capacity overflow") before it has touched the queue (`Result.panicked`). The growth of the vector
that `reverse` fills is left out with the other demands on memory.

## Two models of one queue

This is the queue as its operations act one at a time, with all of them: indexed access, traversals,
batches, resets and the destructor. The interleaved model (`Atomic.Vec`) has `push`, `pop` and the
reclamation, access by access. The two share the layout of blocks, and the results of each are about
the operations that it has.
-/

open Linked

namespace Crossync

namespace AtomicVec

instance {α : Type*} : Node (Block α) where
  next := Block.next
  setNext b p := { b with next := p }
  next_setNext _ _ := rfl

namespace Alone

/-- The queue and the memory its blocks are in. -/
structure Store (α : Type*) where
  head : Position
  tail : Position
  /-- `block_array`: the tags (`none` is `usize::MAX`) and the pointers. -/
  cacheTag : ℕ → Option ℕ
  cachePtr : ℕ → ℕ
  freeList : AtomicBuffer.Store ℕ
  retired : ℕ
  retiredCount : ℕ
  heap : Mem (Block α)
  /-- How many blocks were allocated so far. -/
  allocs : ℕ

/-- What a call returns. -/
inductive Result (α : Type*) where
  | unit
  | value (o : Option α)
  | list (vs : List α)
  | nat (n : ℕ)
  /-- "capacity overflow" -/
  | panicked
  deriving DecidableEq

/-- `isize::MAX`, which no allocation exceeds. -/
def isizeMax : ℕ := 2 ^ 63 - 1

section Code

variable {α : Type*} (size : ℕ) (alloc : ℕ → Mem (Block α) → ℕ) (fuel : ℕ)

namespace Store

variable (s : Store α)

/-- The block at an address is written. -/
def setBlock (b : ℕ) (x : Option (Block α)) : Store α :=
  { s with heap := Function.update s.heap b x }

/-- `BlockArray::set`. -/
def cacheSet (idx block : ℕ) : Store α :=
  { s with
    cachePtr := Function.update s.cachePtr (idx % blockCap) block
    cacheTag := Function.update s.cacheTag (idx % blockCap) (some idx) }

end Store

/-- `Block::new`: the store with the zeroed block, and its address. -/
def newBlock (s : Store α) : Store α × ℕ :=
  let b := alloc s.allocs s.heap
  ({ s.setBlock b (some .zeroed) with allocs := s.allocs + 1 }, b)

/-- `Block::reset`: the values stay where they are. -/
def Block.reset (b : Block α) : Block α :=
  { b with next := 0, counters := 0, state := fun i ↦ if i < blockCap then 0 else b.state i }

/-- `acquire_block`. -/
def acquireBlock (s : Store α) : Option (Store α × ℕ) :=
  if AtomicBuffer.lenAlone s.freeList = 0 then some (newBlock alloc s)
  else
    match AtomicBuffer.popAlone s.freeList with
    | none => none
    | some (l, some b) => some ({ s with freeList := l }, b)
    | some (l, none) => some (newBlock alloc { s with freeList := l })

/-- `push_internal`: the block after the last one is linked. -/
def linkNext (newTail block : ℕ) (s : Store α) : Option (Store α) :=
  match acquireBlock alloc s with
  | none => none
  | some (s, next) =>
    match s.heap block with
    | none => none
    | some b =>
      let s := s.setBlock block (some { b with next := next })
      let s := s.cacheSet (newTail / 2 / blockCap + 1) next
      some { s with tail := ⟨newTail + 2, next⟩ }

/-- `push_internal`: the value is written and published. -/
def writeSlot (tail block : ℕ) (v : α) (s : Store α) : Option (Store α) :=
  match s.heap block with
  | none => none
  | some b =>
    some (s.setBlock block (some { b with
      value := Function.update b.value (offset tail) (some (number (tail / 2), v))
      state := Function.update b.state (offset tail) write }))

/-- `push_internal`. -/
def pushInternal (v : α) (s : Store α) : Option (Store α) :=
  let tail := s.tail.index
  let block := s.tail.block
  if offset tail = blockCap - 1 then none
  else
    let newTail := tail + 2
    let s := { s with tail := ⟨newTail, block⟩ }
    if offset tail + 1 = blockCap - 1 then
      match linkNext alloc newTail block s with
      | none => none
      | some s => writeSlot tail block v s
    else writeSlot tail block v s

/-- `push_batch`, and the loops that push a vector. -/
def pushBatch : List α → Store α → Option (Store α)
  | [], s => some s
  | v :: vs, s =>
    match pushInternal alloc v s with
    | none => none
    | some s => pushBatch vs s

/-- `retire`: the new length of the retired list. -/
def retire (block : ℕ) (s : Store α) : Option (Store α × ℕ) :=
  match s.heap block with
  | none => none
  | some b =>
    let s := s.setBlock block (some { b with next := s.retired })
    let s := { s with retired := block, retiredCount := s.retiredCount + 1 }
    some (s, s.retiredCount)

/-- `pop_raw`: the reserved index word, unless the queue is empty. -/
def reserve (s : Store α) : Option ℕ :=
  let head := s.head.index
  if (head + 2) % 2 = 0 then
    if head / 2 = s.tail.index / 2 then none
    else if head / 2 / blockCap ≠ s.tail.index / 2 / blockCap then some (head + 2 + 1)
    else some (head + 2)
  else some (head + 2)

/-- `pop_raw`: `head` moves on to the next block. -/
def crossBlock (newHead block : ℕ) (s : Store α) : Option (Store α) :=
  match s.heap block with
  | none => none
  | some b =>
    if b.next = 0 then none
    else
      match s.heap b.next with
      | none => none
      | some nb =>
        let nextIndex := newHead - newHead % 2 + 2
        some { s with head := ⟨if nb.next ≠ 0 then nextIndex + 1 else nextIndex, b.next⟩ }

/-- `pop_raw`: the value is read, the read is counted, and the block retired with its last one. -/
def readSlot (head block : ℕ) (s : Store α) : Option (Store α × α × Bool) :=
  match s.heap block with
  | none => none
  | some b =>
    if b.state (offset head) &&& write = 0 then none
    else
      match b.value (offset head) with
      | none => none
      | some (_, v) =>
        let readCount := b.counters + 1
        let s := s.setBlock block (some { b with
          value := Function.update b.value (offset head) none
          state := Function.update b.state (offset head) read
          counters := readCount })
        if readCount = blockCap - 1 then
          match retire block s with
          | none => none
          | some (s, retired) => some (s, v, decide (64 ≤ retired ∧ retired % 64 = 0))
        else some (s, v, false)

/-- `pop_raw`. -/
def popRaw (s : Store α) : Option (Store α × Option α × Bool) :=
  let head := s.head.index
  let block := s.head.block
  if offset head = blockCap - 1 ∨ block = 0 then none
  else
    match reserve s with
    | none => some (s, none, false)
    | some newHead =>
      let s := { s with head := ⟨newHead, block⟩ }
      let crossed := if offset head + 1 = blockCap - 1 then crossBlock newHead block s else some s
      match crossed with
      | none => none
      | some s => (readSlot head block s).map fun r ↦ (r.1, some r.2.1, r.2.2)

/-- `pop_internal`. -/
def popInternal (s : Store α) : Option (Store α × Option α) :=
  (popRaw s).map fun r ↦ (r.1, r.2.1)

/-- `reclaim_retired`: the loop over the blocks that were taken. -/
def reclaimLoop : ℕ → ℕ → Store α → Option (Store α)
  | 0, _, _ => none
  | k + 1, block, s =>
    if block = 0 then some s
    else
      match s.heap block with
      | none => none
      | some b =>
        let next := b.next
        if AtomicBuffer.lenAlone s.freeList = s.freeList.cap then
          reclaimLoop k next (s.setBlock block none)
        else
          let s := s.setBlock block (some (Block.reset b))
          match AtomicBuffer.pushAlone block s.freeList with
          | none => none
          | some (l, true) => reclaimLoop k next { s with freeList := l }
          | some (l, false) => reclaimLoop k next ({ s with freeList := l }.setBlock block none)

/-- `reclaim_retired`. -/
def reclaimRetired (s : Store α) : Option (Store α) :=
  reclaimLoop fuel s.retired { s with retired := 0, retiredCount := 0 }

/-- `try_reclaim`. -/
def tryReclaim (s : Store α) : Option (Store α) :=
  if s.retiredCount = 0 then some s else reclaimRetired fuel s

/-- `pop`. -/
def pop (s : Store α) : Option (Store α × Option α) :=
  match popRaw s with
  | none => none
  | some (s, result, reclaim) =>
    if reclaim then (tryReclaim fuel s).map fun s ↦ (s, result) else some (s, result)

/-- `pop_batch`: its loop. -/
def popLoop : ℕ → Store α → Option (Store α × List α)
  | 0, s => some (s, [])
  | count + 1, s =>
    match pop fuel s with
    | none => none
    | some (s, none) => some (s, [])
    | some (s, some v) => (popLoop count s).map fun r ↦ (r.1, v :: r.2)

/-- `pop_batch`. -/
def popBatch (count : ℕ) (s : Store α) : Option (Store α × Result α) :=
  if isizeMax < count * size then some (s, .panicked)
  else (popLoop fuel count s).map fun r ↦ (r.1, .list r.2)

/-- `len`. -/
def len (s : Store α) : ℕ := calcLen (s.head.index / 2) (s.tail.index / 2)

/-- `drain`. -/
def drain (s : Store α) : Option (Store α × Result α) := popBatch size fuel (len s) s

/-- The loop that pops until the queue is empty. -/
def popAll : ℕ → Store α → Option (Store α × List α)
  | 0, _ => none
  | k + 1, s =>
    match popInternal s with
    | none => none
    | some (s, none) => some (s, [])
    | some (s, some v) => (popAll k s).map fun r ↦ (r.1, v :: r.2)

/-- `reset_with`: both ends are set to one block. -/
def rewind (block : ℕ) (s : Store α) : Store α :=
  { s with
    tail := { s.tail with block := block }
    head := { s.head with block := block } }.cacheSet 0 block

/-- `reset_with`, with the values its initializer yields. -/
def resetWith (cap : ℕ) (init : ℕ → α) (s : Store α) : Option (Store α × ℕ) :=
  match popAll fuel s with
  | none => none
  | some (s, _) =>
    match reclaimRetired fuel s with
    | none => none
    | some s =>
      let oldBlock := s.head.block
      let s := { s with head := { s.head with index := 0 }, tail := { s.tail with index := 0 } }
      let s := (List.range blockCap).foldl (fun s i ↦ s.cacheSet i 0) s
      let rewound :=
        if oldBlock ≠ 0 then
          match s.heap oldBlock with
          | none => none
          | some b => some (rewind oldBlock (s.setBlock oldBlock (some (Block.reset b))))
        else
          match acquireBlock alloc s with
          | none => none
          | some (s, block) => some (rewind block s)
      match rewound with
      | none => none
      | some s => (pushBatch alloc ((List.range cap).map init) s).map fun s ↦ (s, cap)

/-- `as_vec`, which empties the queue. -/
def asVec (s : Store α) : Option (Store α × Result α) :=
  if isizeMax < len s * size then some (s, .panicked)
  else
    match popAll fuel s with
    | none => none
    | some (s, out) => (reclaimRetired fuel s).map fun s ↦ (s, .list out)

/-- `remove_inner`. -/
def remove (index : ℕ) (s : Store α) : Option (Store α × Result α) :=
  if len s ≤ index then some (s, .value none)
  else if isizeMax < len s * size then some (s, .panicked)
  else
    match popAll fuel s with
    | none => none
    | some (s, elements) =>
      match elements[index]? with
      | none => (pushBatch alloc elements s).map fun s ↦ (s, .value none)
      | some removed => (pushBatch alloc (elements.eraseIdx index) s).map fun s ↦
        (s, .value (some removed))

/-- `reverse_inner`. -/
def reverse (s : Store α) : Option (Store α) :=
  match popAll fuel s with
  | none => none
  | some (s, elements) => pushBatch alloc elements.reverse s

/-- The queue of `new`, before it has a block. -/
def Store.empty : Store α where
  head := ⟨0, 0⟩
  tail := ⟨0, 0⟩
  cacheTag := fun _ ↦ none
  cachePtr := fun _ ↦ 0
  freeList := .empty 512
  retired := 0
  retiredCount := 0
  heap := fun _ ↦ none
  allocs := 0

/-- `new`. -/
def new : Store α :=
  let (s, block) := newBlock alloc .empty
  rewind block s

/-- `with_capacity`: the loop that fills the pool. -/
def fillPool : ℕ → Store α → Option (Store α)
  | 0, s => some s
  | n + 1, s =>
    let (s, block) := newBlock alloc s
    match AtomicBuffer.pushAlone block s.freeList with
    | none => none
    | some (l, true) => fillPool n { s with freeList := l }
    | some (l, false) => fillPool n ({ s with freeList := l }.setBlock block none)

/-- `with_capacity`. -/
def withCapacity (cap : ℕ) : Option (Store α) :=
  fillPool alloc (min ((cap + (blockCap - 1)) / blockCap) 65 - 1) (new alloc)

/-- `from_iter`. -/
def fromIter (vs : List α) : Option (Store α) := pushBatch alloc vs (new alloc)

/-- The calls. -/
inductive Cmd (α : Type*) where
  | push (v : α)
  | pushBatch (vs : List α)
  | pop
  | popBatch (count : ℕ)
  | drain
  | asVec
  | remove (index : ℕ)
  | reverse
  | resetWith (cap : ℕ) (init : ℕ → α)
  | len

/-- One call. -/
def exec (cmd : Cmd α) (s : Store α) : Option (Store α × Result α) :=
  match cmd with
  | .push v => (pushInternal alloc v s).map fun s ↦ (s, .unit)
  | .pushBatch vs => (pushBatch alloc vs s).map fun s ↦ (s, .unit)
  | .pop => (pop fuel s).map fun r ↦ (r.1, .value r.2)
  | .popBatch count => popBatch size fuel count s
  | .drain => drain size fuel s
  | .asVec => asVec size fuel s
  | .remove index => remove size alloc fuel index s
  | .reverse => (reverse alloc fuel s).map fun s ↦ (s, .unit)
  | .resetWith cap init => (resetWith alloc fuel cap init s).map fun r ↦ (r.1, .nat r.2)
  | .len => some (s, .nat (len s))

/-- A sequence of calls. -/
def run : List (Cmd α) → Store α → Option (Store α × List (Result α))
  | [], s => some (s, [])
  | cmd :: cmds, s =>
    match exec size alloc fuel cmd s with
    | none => none
    | some (s, r) => (run cmds s).map fun x ↦ (x.1, r :: x.2)

/-- How a queue comes into being. -/
inductive Start (α : Type*) where
  | new
  | withCapacity (cap : ℕ)
  | fromIter (vs : List α)

/-- A queue as its constructor leaves it. -/
def start : Start α → Option (Store α)
  | .new => some (new alloc)
  | .withCapacity cap => withCapacity alloc cap
  | .fromIter vs => fromIter alloc vs

end Code

/-! ### The plain list

What each call makes of a list and returns. -/

namespace Spec

variable {α : Type*} (size : ℕ)

/-- A call that sets aside a vector for `n` values and takes the first `n` from the list. -/
def takeFront (n : ℕ) (q : List α) : List α × Result α :=
  if isizeMax < n * size then (q, .panicked) else (q.drop n, .list (q.take n))

/-- A call that sets the whole list aside and takes one value out of it. -/
def remove (index : ℕ) (q : List α) : List α × Result α :=
  if index < q.length ∧ isizeMax < q.length * size then (q, .panicked)
  else (q.eraseIdx index, .value q[index]?)

/-- What a call does to a plain list, and what it returns. Values without a size never overflow a
vector. -/
def exec (cmd : Cmd α) (q : List α) : List α × Result α :=
  match cmd with
  | .push v => (q ++ [v], .unit)
  | .pushBatch vs => (q ++ vs, .unit)
  | .pop => (q.tail, .value q.head?)
  | .popBatch count => takeFront size count q
  | .drain | .asVec => takeFront size q.length q
  | .remove index => remove size index q
  | .reverse => (q.reverse, .unit)
  | .resetWith cap init => ((List.range cap).map init, .nat cap)
  | .len => (q, .nat q.length)

/-- A sequence of calls. -/
def run : List (Cmd α) → List α → List α × List (Result α)
  | [], q => (q, [])
  | cmd :: cmds, q =>
    let (q, r) := exec size cmd q
    let (q, rs) := run cmds q
    (q, r :: rs)

/-- What a constructor leaves. -/
def start : Start α → List α
  | .new => []
  | .withCapacity _ => []
  | .fromIter vs => vs

end Spec

end Alone

end AtomicVec

end Crossync
