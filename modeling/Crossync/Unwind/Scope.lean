import Mathlib.Data.Bool.Basic

/-!
# Code that may unwind

A piece of code takes a state to a state and ends in one of three ways: it is done, a panic is
unwinding out of it, or a second panic struck while the first was being cleaned up, which aborts.
Code that touches what is not there has no meaning (`none`).

There are two ways to put pieces together. `seq` goes on only when the first piece is done. `owning`
is what a local with a destructor adds: if the code unwinds, the local is dropped on the way out.

The usual owner is dropped either way, by the code itself when it gets there and by the unwinding
when it does not. That shape is `seq (owning c d) d`, and `Ends.owning_seq` is its rule: `d` runs
exactly once, after `c`, and the panic, if there was one, goes on.

## What the two pieces cover

A destructor of a container runs the destructors of its elements, any of which may panic. The
language then goes on with the remaining ones while it unwinds, and aborts at a second panic.
Written with `seq` and `owning` the code of a destructor keeps the shape of the source, and that
every element is destroyed once is an induction over the loop with `Ends.owning_seq` at each step.
-/

namespace Unwind

variable {S : Type*}

/-- How code ends. -/
inductive Exit where
  | done
  | unwinding
  | aborted
  deriving DecidableEq, Repr

/-- What a panic, or its absence, means for the caller. -/
def Exit.of (panics : Bool) : Exit := if panics then .unwinding else .done

/-- Code over a state. -/
abbrev Code (S : Type*) := S → Option (S × Exit)

/-- One piece after the other. -/
def seq (c d : Code S) : Code S := fun s ↦
  match c s with
  | none => none
  | some (s, .done) => d s
  | some (s, .unwinding) => some (s, .unwinding)
  | some (s, .aborted) => some (s, .aborted)

/-- Code with a local in scope that `drop` destroys: unwinding drops it, and another panic there
aborts. -/
def owning (c drop : Code S) : Code S := fun s ↦
  match c s with
  | none => none
  | some (s, .done) => some (s, .done)
  | some (s, .aborted) => some (s, .aborted)
  | some (s, .unwinding) =>
    match drop s with
    | none => none
    | some (s, .done) => some (s, .unwinding)
    | some (s, .unwinding) => some (s, .aborted)
    | some (s, .aborted) => some (s, .aborted)

/-- **The code ends** in a state, done or unwinding. -/
def Ends (c : Code S) (s s' : S) (panics : Bool) : Prop := c s = some (s', .of panics)

variable {c d : Code S} {s s' s'' : S} {x y : Bool}

/-- **An owner dropped either way**: by the code after `c` or by the unwinding out of `c`. If not
both pieces panic, both run, in this order, and a panic of either goes on. -/
theorem Ends.owning_seq (hc : Ends c s s' x) (hd : Ends d s' s'' y) (hone : x = true → y = false) :
    Ends (seq (owning c d) d) s s'' (x || y) := by
  unfold Ends at hc hd ⊢
  cases x with
  | false =>
    simp only [seq, owning, hc, Exit.of, Bool.false_eq_true, if_false, Bool.false_or]
    exact hd
  | true =>
    obtain rfl := hone rfl
    simp only [Exit.of, Bool.false_eq_true, if_false] at hd
    simp only [seq, owning, hc, hd, Exit.of, if_true, Bool.or_false]

end Unwind
