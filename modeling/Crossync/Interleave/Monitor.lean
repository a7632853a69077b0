import Mathlib.Data.Finset.Basic
import Crossync.Interleave.System

/-!
# A mutex with a condition variable

The blocking mutex and the condition variable of a standard library, as far as their callers can
rely on them: the mutex has at most one holder and `lock` waits for it to be free, `wait` gives the
mutex up and starts to wait in **one** step, and a waiter comes back when it has been notified, or
at any moment spuriously, and then has to lock again.

## What is left out

Poisoning, fairness and timed waits. A caller that panics inside its critical section is not in the
model, and no order among the waiters is promised; what is proved over a monitor therefore holds for
every order.
-/

namespace Interleave

/-- A mutex and the threads waiting on its condition variable. -/
structure Monitor (ι : Type*) where
  holder : Option ι
  waiters : Finset ι

namespace Monitor

variable {ι : Type*} [DecidableEq ι]

/-- A free mutex nobody waits for. -/
def new : Monitor ι := ⟨none, ∅⟩

/-- Take the mutex; not enabled while it is held. -/
def lock (m : Monitor ι) (t : ι) : Option (Monitor ι) :=
  if m.holder = none then some { m with holder := some t } else none

/-- Give the mutex up. -/
def unlock (m : Monitor ι) : Monitor ι := { m with holder := none }

/-- Give the mutex up and wait. -/
def wait (m : Monitor ι) (t : ι) : Monitor ι := ⟨none, insert t m.waiters⟩

/-- A waiter comes back: after a notification, or spuriously. -/
def resume (m : Monitor ι) (t : ι) : Choice ι → Option (Monitor ι)
  | .spurious => some { m with waiters := m.waiters.erase t }
  | _ => if t ∈ m.waiters then none else some m

/-- Notify every waiter. -/
def notifyAll (m : Monitor ι) : Monitor ι := { m with waiters := ∅ }

omit [DecidableEq ι] in
theorem lock_eq_some {m m' : Monitor ι} {t : ι} (h : m.lock t = some m') :
    m.holder = none ∧ m'.holder = some t := by
  unfold lock at h
  split at h
  · rename_i hn
    cases h
    exact ⟨hn, rfl⟩
  · cases h

/-- Coming back does not touch the mutex. -/
theorem resume_holder {m m' : Monitor ι} {t : ι} {ch : Choice ι} (h : m.resume t ch = some m') :
    m'.holder = m.holder := by
  unfold resume at h
  split at h
  · cases h
    rfl
  · split at h
    · cases h
    · cases h
      rfl

end Monitor

end Interleave
