import Crossync.Interleave.System

/-!
# Sequential histories

What a concurrent object does is compared with a plain value and a function `seq` that says what one
operation makes of it. A **history** lists operations in the order in which they took effect, each
with the thread that called it and the result it got. It is `Legal` if these are the results that
`seq` gives one operation after the other, and `final` is the value that is left.

A call is linearized if its operation enters the history once, with the result that the call
returns, between the start of the call and its end: `ownSince t n` are the operations of a thread
after the first `n`.

## What is checked where

Legality speaks of the results alone and knows no time. That the history respects the order of calls
that do not overlap is a matter of where an operation enters it: between the start of its call and
its end. Both halves are stated by the objects that record a history; here are only the operations
on lists that such statements need.
-/

namespace Interleave

universe u v w

/-- An operation that took effect, with its caller and its result. -/
structure Occurrence (ι : Type u) (O : Type v) (R : Type w) where
  thread : ι
  op : O
  result : R

variable {ι : Type*} {O : Type*} {R : Type*} {σ : Type*} (seq : O → σ → R × σ)

/-- The results are those of `seq`, one operation after the other. -/
def Legal (x : σ) : List (Occurrence ι O R) → Prop
  | [] => True
  | e :: es => (seq e.op x).1 = e.result ∧ Legal (seq e.op x).2 es

/-- The value that a history leaves. -/
def final (x : σ) (es : List (Occurrence ι O R)) : σ := es.foldl (fun y e ↦ (seq e.op y).2) x

variable {seq} {x : σ} {es : List (Occurrence ι O R)} {e : Occurrence ι O R}

theorem final_concat : final seq x (es ++ [e]) = (seq e.op (final seq x es)).2 := by
  simp [final]

/-- One more operation, with the result it has to get. -/
theorem Legal.concat (h : Legal seq x es) (he : (seq e.op (final seq x es)).1 = e.result) :
    Legal seq x (es ++ [e]) := by
  induction es generalizing x with
  | nil => exact ⟨he, trivial⟩
  | cons d es ih => exact ⟨h.1, ih h.2 he⟩

theorem final_append {es' : List (Occurrence ι O R)} :
    final seq x (es ++ es') = final seq (final seq x es) es' := by
  simp [final]

/-- One history after another. -/
theorem Legal.append {es' : List (Occurrence ι O R)} (h : Legal seq x es)
    (h' : Legal seq (final seq x es) es') : Legal seq x (es ++ es') := by
  induction es generalizing x with
  | nil => exact h'
  | cons d es ih => exact ⟨h.1, ih h.2 h'⟩

variable [DecidableEq ι]

/-- What `t` did after the first `n` operations. -/
def ownSince (t : ι) (n : ℕ) (es : List (Occurrence ι O R)) : List (Occurrence ι O R) :=
  (es.drop n).filter fun e ↦ e.thread = t

variable {t : ι} {n : ℕ}

theorem ownSince_length : ownSince t es.length es = [] := by
  rw [ownSince, List.drop_length, List.filter_nil]

/-- What `t` did goes on with what it does next. -/
theorem ownSince_append {es' : List (Occurrence ι O R)} (hn : n ≤ es.length) :
    ownSince t n (es ++ es') = ownSince t n es ++ es'.filter fun e ↦ e.thread = t := by
  rw [ownSince, ownSince, List.drop_append_of_le_length hn, List.filter_append]

theorem ownSince_concat_self (hn : n ≤ es.length) (he : e.thread = t) :
    ownSince t n (es ++ [e]) = ownSince t n es ++ [e] := by
  rw [ownSince_append hn]
  simp [he]

theorem ownSince_concat_of_ne (hn : n ≤ es.length) (he : e.thread ≠ t) :
    ownSince t n (es ++ [e]) = ownSince t n es := by
  rw [ownSince_append hn]
  simp [he]

end Interleave
