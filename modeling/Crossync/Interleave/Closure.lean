import Mathlib.Data.List.Basic

/-!
# Closures over a guarded value

Code that a lock runs with a reference to the value it guards: it may read the value, write it if
the reference is mutable, panic, and **call back** into the lock with another closure. A closure is
the tree of what it does next, so nothing about it is fixed but the order of its accesses; a panic
of the inner call is delivered to the outer closure as `none`, which may go on (`catch_unwind`) or
panic in turn.

Whether the reference is shared is an index of the type (`read`), and only a closure with a mutable
reference can `set`.

## Meaning

`Closure.eval` runs a closure on a plain value. A call back is admitted only from a shared reference
to another shared one, and only while fewer than `limit` references are out; `depth` is their
number. A refused call panics. `evalStack` goes on with the closures that wait for a call back.

## What the lock has to give

`eval` knows no lock and no other thread. That a method of a lock computes it is the claim of a
simulation: the pieces of a closure between two accesses of the lock compose to `evalStack`,
provided nobody else writes the value in between. `Nested` is the invariant of the stack that the
lock's own rules maintain, and what makes the value stable under a call back.
-/

namespace Interleave

universe u v

/-- A closure over a value in `α` with results in `ρ`; `read` says that its reference is shared. -/
inductive Closure (α : Type u) (ρ : Type v) : Bool → Type (max u v) where
  | ret {read : Bool} (r : ρ) : Closure α ρ read
  | panic {read : Bool} : Closure α ρ read
  | get {read : Bool} (k : α → Closure α ρ read) : Closure α ρ read
  | set (x : α) (k : Closure α ρ false) : Closure α ρ false
  | call {read : Bool} (inner : Bool) (f : Closure α ρ inner) (k : Option ρ → Closure α ρ read) :
      Closure α ρ read

namespace Closure

variable {α : Type u} {ρ : Type v}

/-- A call back that the lock admits. -/
def Admits (limit depth : ℕ) (read inner : Bool) : Prop :=
  read = true ∧ inner = true ∧ depth < limit

instance (limit depth : ℕ) (read inner : Bool) : Decidable (Admits limit depth read inner) :=
  inferInstanceAs (Decidable (_ ∧ _))

/-- **What a closure does to a value**: its result, `none` for a panic, and the value it leaves. -/
def eval (limit : ℕ) : {read : Bool} → Closure α ρ read → ℕ → α → Option ρ × α
  | _, ret r, _, x => (some r, x)
  | _, panic, _, x => (none, x)
  | _, get k, depth, x => (k x).eval limit depth x
  | _, set y k, depth, _ => k.eval limit depth y
  | read, call inner f k, depth, x =>
    if Admits limit depth read inner then
      let y := f.eval limit (depth + 1) x
      (k y.1).eval limit depth y.2
    else (k none).eval limit depth x

/-- A closure with a mutable reference goes on when another one has returned. -/
def thenMut : {read : Bool} → Closure α ρ read → (ρ → Closure α ρ false) → Closure α ρ false
  | _, ret r, q => q r
  | _, panic, _ => panic
  | _, get k, q => get fun x ↦ (k x).thenMut q
  | _, set x k, q => set x (k.thenMut q)
  | _, call inner f k, q => call inner f fun r ↦ (k r).thenMut q

end Closure

/-- A closure that waits for the result of a call back. -/
structure Frame (α : Type u) (ρ : Type v) where
  read : Bool
  k : Option ρ → Closure α ρ read

variable {α : Type u} {ρ : Type v}

/-- The closures that wait go on, from the innermost one; the last result is that of the whole. -/
def evalStack (limit : ℕ) : List (Frame α ρ) → Option ρ × α → Option ρ × α
  | [], y => y
  | fr :: st, y => evalStack limit st ((fr.k y.1).eval limit (st.length + 1) y.2)

/-- **Nesting.** A mutable reference is alone: only shared ones wait for a call back that runs. -/
def Nested (read : Bool) (st : List (Frame α ρ)) : Prop :=
  (∀ fr ∈ st, fr.read = true) ∧ (st ≠ [] → read = true)

end Interleave
