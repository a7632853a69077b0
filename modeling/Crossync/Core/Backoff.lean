import Mathlib.Data.Nat.Notation

/-!
# Backoff

The spin/yield counter used by the retry loops. What it does to the processor is invisible to the
shared store; what matters to a lock is only **how many** rounds a loop makes before it may park, so
the model keeps the counter and its two limits.

## Where it decides something

A loop that consults the counter before it parks goes to sleep only when the counter is complete, so
the counter bounds the accesses of the spinning phase. In a loop that never parks it decides nothing
but delay, and the models of such loops leave it out.
-/

namespace Crossync

/-- `Backoff`: the step counter and the limits fixed when it is created. -/
structure Backoff where
  step : ℕ
  spinLimit : ℕ
  yieldLimit : ℕ
  deriving DecidableEq, Repr

namespace Backoff

/-- `Backoff::new` on a machine reporting `adaptive` units of parallelism. -/
def new (adaptive : ℕ) : Backoff :=
  let spinLimit :=
    if 1 ≤ adaptive ∧ adaptive ≤ 2 then 6
    else if 3 ≤ adaptive ∧ adaptive ≤ 8 then 8
    else if 9 ≤ adaptive ∧ adaptive ≤ 32 then 10
    else 12
  let yieldLimit :=
    (if 1 ≤ adaptive ∧ adaptive ≤ 2 then 2
    else if 3 ≤ adaptive ∧ adaptive ≤ 8 then 4
    else if 9 ≤ adaptive ∧ adaptive ≤ 32 then 6
    else 10) + spinLimit
  ⟨0, spinLimit, yieldLimit⟩

/-- `Backoff::reset`. -/
def reset (b : Backoff) : Backoff := { b with step := 0 }

/-- `Backoff::snooze`: one round, counted up to just past the yield limit. -/
def snooze (b : Backoff) : Backoff :=
  if b.step ≤ b.yieldLimit then { b with step := b.step + 1 } else b

/-- `Backoff::spin`: one round without yielding, counted up to just past the spin limit. -/
def spin (b : Backoff) : Backoff :=
  if b.step ≤ b.spinLimit then { b with step := b.step + 1 } else b

/-- `Backoff::is_completed`. -/
def isCompleted (b : Backoff) : Bool := b.yieldLimit < b.step

/-- `Backoff::is_yielding`. -/
def isYielding (b : Backoff) : Bool := b.spinLimit ≤ b.step

end Backoff

end Crossync
