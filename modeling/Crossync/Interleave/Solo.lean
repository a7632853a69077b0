import Crossync.Interleave.System

/-!
# A call run alone

What one call does when no other thread takes a step until it has returned. `Object.solo` runs the
call through a list of choices, one for each access, and `Object.Returns` says that the call has
returned after at most so many accesses, whatever the choices were: a total result, so a call that
waits for another thread does not have it.

## What it is for

A refinement by a plain object (a list, a finite map) is about calls that do not overlap. Rather
than writing the code a second time as a function, the same `exec` is run alone. That the call
returns is then part of the statement, with a bound on its accesses that holds whatever a weak
compare-exchange does.
-/

namespace Interleave

variable {ι S P O R : Type*} (A : Object ι S P O R) (t : ι)

/-- Run a call of thread `t` alone, until it returns or the choices are used up. -/
def Object.solo : List (Choice ι) → S × Outcome P R → Option (S × R)
  | _, (s, .ret r) => some (s, r)
  | [], (_, .goto _) => none
  | ch :: chs, (s, .goto p) => (A.exec t ch s p).bind (solo chs)

/-- **Run alone, the call returns** within `n` accesses, and `Q` holds of the result. -/
def Object.Returns (n : ℕ) (Q : S → R → Prop) (x : S × Outcome P R) : Prop :=
  ∀ chs : List (Choice ι), n ≤ chs.length → ∃ s r, A.solo t chs x = some (s, r) ∧ Q s r

namespace Object.Returns

variable {A t} {n : ℕ} {Q : S → R → Prop} {s : S}

/-- A call that has returned. -/
theorem ret {r : R} (h : Q s r) : A.Returns t n Q (s, .ret r) := fun chs _ ↦
  ⟨s, r, by cases chs <;> rfl, h⟩

/-- One access, which the choice does not block. -/
theorem step {p : P} (h : ∀ ch, ∃ x, A.exec t ch s p = some x ∧ A.Returns t n Q x) :
    A.Returns t (n + 1) Q (s, .goto p) := by
  intro chs hlen
  cases chs with
  | nil => exact absurd hlen (by simp)
  | cons ch chs =>
    obtain ⟨x, hx, hret⟩ := h ch
    obtain ⟨s', r, hs, hq⟩ := hret chs (by simpa using hlen)
    refine ⟨s', r, ?_, hq⟩
    rw [Object.solo, hx]
    exact hs

/-- More accesses do no harm. -/
theorem mono {m : ℕ} {x : S × Outcome P R} (h : A.Returns t n Q x) (hnm : n ≤ m) :
    A.Returns t m Q x := fun chs hlen ↦ h chs (hnm.trans hlen)

end Object.Returns

end Interleave
