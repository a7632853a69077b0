import Crossync.Interleave.System
import Mathlib.Algebra.Ring.Nat
import Mathlib.Order.Bounds.Basic

/-!
# The bounded queue `AtomicBuffer`

A ring of slots, each with a sequence word that says whose turn it is: a push may take position
`pos` when the word of its slot is `pos`, a pop when it is `pos + 1`. A reservation, the move of the
pointer and the publication of the new sequence are three separate accesses, and a thread may stall
between any two of them.

## Words and positions

`head`, `tail`, the sequence words and every position a thread has in hand are 64-bit words in the
source and wrap around. Here each of them is kept as the unbounded number of the reservation it
stands for, and the code **sees only its low 64 bits** (`word`): every comparison below is one of
words, and every value stored has the word that the source stores. A capacity of `1` takes a
different path through one pointer.

## What is not code

A pointer in a slot carries the position it was stored for, so that a value can be traced from the
push that brought it to the pop that returns it; `pushes` lists the pointers by reserved position
and `returned` what each completed pop reserved and returned. The code reads none of these.

## Capacity one

The constructor takes any power of two. With one slot the sequence words cannot tell a full ring
from an empty one, and the source has a separate path with one pointer that is exchanged. Both paths
are in the model, and the results about the ring say that they are for a capacity of at least two
where they are.
-/

open Interleave

namespace Crossync

namespace AtomicBuffer

/-- The low 64 bits of a position. -/
def word (n : ℕ) : BitVec 64 := BitVec.ofNat 64 n

/-- The shared store of a buffer of pointers to `α`. -/
structure Store (α : Type*) where
  cap : ℕ
  /-- Positions reserved by pops. -/
  head : ℕ
  /-- Positions reserved by pushes. -/
  tail : ℕ
  /-- `Slot::sequence`. -/
  sequence : ℕ → ℕ
  /-- `Slot::value`, with the position it was stored for. -/
  value : ℕ → Option (ℕ × α)
  /-- The pointer of a buffer of capacity `1`. -/
  single : Option α
  /-- The pointers given to the pushes, by reserved position. -/
  pushes : List α
  /-- The position each completed pop reserved, and what it returned. -/
  returned : List (ℕ × Option (ℕ × α))

/-- The operations. A null pointer is `none`. -/
inductive Op (α : Type*) where
  | push (value : Option α)
  | pop
  deriving DecidableEq

/-- How an operation ends. -/
inductive Ret (α : Type*) where
  /-- `push` returned `Ok`. -/
  | ok
  /-- `push` returned `Err` with the pointer it was given. -/
  | err (value : Option α)
  /-- `pop` returned `None`. -/
  | empty
  /-- `pop` returned what it took from the slot. -/
  | popped (value : Option α)
  deriving DecidableEq, Repr

/-- Program points, named after the access that comes next. -/
inductive Pc (α : Type*) where
  /-- `push`: load of `tail`. -/
  | pushTail (value : α)
  /-- `push`: load of the slot's sequence. -/
  | pushSequence (value : α) (pos : ℕ)
  /-- `push`: the reserving compare-exchange. -/
  | pushCas (value : α) (pos : ℕ)
  /-- `push`: store of the pointer. -/
  | pushStore (value : α) (pos : ℕ)
  /-- `push`: store of the sequence. -/
  | pushPublish (pos : ℕ)
  /-- `push` on a buffer of capacity `1`. -/
  | pushSingle (value : α)
  /-- `pop`: load of `head`. -/
  | popHead
  /-- `pop`: load of the slot's sequence. -/
  | popSequence (pos : ℕ)
  /-- `pop`: the reserving compare-exchange. -/
  | popCas (pos : ℕ)
  /-- `pop`: load of `tail` when the slot is behind. -/
  | popTail (pos : ℕ)
  /-- `pop`: the pointer is taken out of the slot. -/
  | popTake (pos : ℕ)
  /-- `pop`: store of the sequence; the pointer is in hand. -/
  | popPublish (pos : ℕ) (value : Option (ℕ × α))
  /-- `pop` on a buffer of capacity `1`. -/
  | popSingle
  deriving DecidableEq

section Code

variable {ι α : Type*} [DecidableEq α]

open Outcome

/-- A power of two that fits a 64-bit word. -/
def IsPowerOfTwo (n : ℕ) : Prop := ∃ k, k < 64 ∧ n = 2 ^ k

instance (n : ℕ) : Decidable (IsPowerOfTwo n) :=
  inferInstanceAs (Decidable (∃ k, k < 64 ∧ n = 2 ^ k))

/-- An empty buffer. -/
def Store.empty (cap : ℕ) : Store α := ⟨cap, 0, 0, id, fun _ ↦ none, none, [], []⟩

/-- `with_capacity`; `none` when one of its assertions fails. The allocation of the slots, which
panics when `cap` of them are more than an allocation can have, is left out. -/
def withCapacity (cap : ℕ) : Option (Store α) :=
  if IsPowerOfTwo cap ∧ cap ≤ 2 ^ 63 - 1 then some (.empty cap) else none

/-- `pos & (cap - 1)`: the slot of a position. -/
def slot (s : Store α) (pos : ℕ) : ℕ := (word pos &&& word (s.cap - 1)).toNat

/-- `len_approx` on the two words it loads. -/
def lenApprox (cap head tail : ℕ) : ℕ := min (word tail - word head).toNat cap

/-- Start of a `push` of a non-null pointer. -/
def pushPc (s : Store α) (v : α) : Pc α := if s.cap = 1 then .pushSingle v else .pushTail v

/-- Start of a `pop`. -/
def popPc (s : Store α) : Pc α := if s.cap = 1 then .popSingle else .popHead

/-- Start of a call. -/
def enter (_ : ι) (op : Op α) (s : Store α) : Option (Store α × Outcome (Pc α) (Ret α)) :=
  match op with
  | .push none => some (s, ret (.err none))
  | .push (some v) => some (s, goto (pushPc s v))
  | .pop => some (s, goto (popPc s))

/-- The access at a program point. -/
def exec (_ : ι) (ch : Choice ι) (s : Store α) : Pc α → Option (Store α × Outcome (Pc α) (Ret α))
  | .pushTail v => some (s, goto (.pushSequence v s.tail))
  | .pushSequence v pos =>
    let diff := word (s.sequence (slot s pos)) - word pos
    if diff = 0 then some (s, goto (.pushCas v pos))
    else if diff.toInt < 0 then some (s, ret (.err (some v)))
    else some (s, goto (.pushTail v))
  | .pushCas v pos =>
    match casWeak ch (word s.tail) (word pos) (word (pos + 1)) with
    | .ok _ => some ({ s with tail := s.tail + 1, pushes := s.pushes ++ [v] },
        goto (.pushStore v pos))
    | .error _ => some (s, goto (.pushSequence v s.tail))
  | .pushStore v pos =>
    some ({ s with value := Function.update s.value (slot s pos) (some (pos, v)) },
      goto (.pushPublish pos))
  | .pushPublish pos =>
    some ({ s with sequence := Function.update s.sequence (slot s pos) (pos + 1) }, ret .ok)
  | .pushSingle v =>
    match cas s.single none (some v) with
    | .ok w => some ({ s with single := w }, ret .ok)
    | .error _ => some (s, ret (.err (some v)))
  | .popHead => some (s, goto (.popSequence s.head))
  | .popSequence pos =>
    let diff := word (s.sequence (slot s pos)) - word (pos + 1)
    if diff = 0 then some (s, goto (.popCas pos))
    else if diff.toInt < 0 then some (s, goto (.popTail pos))
    else some (s, goto .popHead)
  | .popCas pos =>
    match casWeak ch (word s.head) (word pos) (word (pos + 1)) with
    | .ok _ => some ({ s with head := s.head + 1 }, goto (.popTake pos))
    | .error _ => some (s, goto (.popSequence s.head))
  | .popTail pos =>
    if word s.tail = word pos then some (s, ret .empty) else some (s, goto .popHead)
  | .popTake pos =>
    some ({ s with value := Function.update s.value (slot s pos) none },
      goto (.popPublish pos (s.value (slot s pos))))
  | .popPublish pos v =>
    some ({ s with
      sequence := Function.update s.sequence (slot s pos) (pos + s.cap)
      returned := s.returned ++ [(pos, v)] }, ret (.popped (v.map Prod.snd)))
  | .popSingle =>
    match s.single with
    | none => some (s, ret .empty)
    | some v => some ({ s with single := none }, ret (.popped (some v)))

/-- `AtomicBuffer`. -/
def atomicBuffer : Object ι (Store α) (Pc α) (Op α) (Ret α) where
  enter := enter
  exec := exec

end Code

end AtomicBuffer

end Crossync
