import Mathlib.Data.Finset.Basic
import Crossync.Interleave.System

/-!
# A futex word

A word together with the set of threads asleep on it. Two facts about the platform are built in and
no others: going to sleep and comparing the word are **one** step (`wait`), and a sleeper returns
when it has been taken out of the set by a wake, or at any moment spuriously (`resume`).

A thread is *blocked* on the futex exactly while it is in `waiters`; a thread that has been taken
out has been unblocked, even if it has not run since.

## What a wake promises

`wakeOne` takes some sleeper out of the set, which one is a `Choice`; `wakeAll` takes out all of
them. Neither is lost or delayed, and neither reaches a thread that is not in the set. So every
question about lost wakeups is a question about the order of the word's changes and the set's, and
that is what `Interleave.Parking` answers for the common pattern.
-/

namespace Interleave

/-- A futex word and the threads asleep on it. -/
structure Futex (ι V : Type*) where
  value : V
  waiters : Finset ι

namespace Futex

variable {ι V : Type*} [DecidableEq ι]

/-- A futex nobody sleeps on. -/
def new (v : V) : Futex ι V := ⟨v, ∅⟩

/-- `futex_wait`: sleep if the word still holds `expected`; `none` when the call returns at once. -/
def wait [DecidableEq V] (f : Futex ι V) (t : ι) (expected : V) : Option (Futex ι V) :=
  if f.value = expected then some { f with waiters := insert t f.waiters } else none

/-- A sleeper returns from `futex_wait`: after a wake, or spuriously. -/
def resume (f : Futex ι V) (t : ι) : Choice ι → Option (Futex ι V)
  | .spurious => some { f with waiters := f.waiters.erase t }
  | _ => if t ∈ f.waiters then none else some f

/-- Wake every sleeper. -/
def wakeAll (f : Futex ι V) : Futex ι V := { f with waiters := ∅ }

/-- Wake the chosen sleeper, or nobody if nobody sleeps. -/
def wakeOne (f : Futex ι V) : Choice ι → Option (Futex ι V)
  | .pick u => if u ∈ f.waiters then some { f with waiters := f.waiters.erase u } else none
  | _ => if f.waiters = ∅ then some f else none

omit [DecidableEq ι] in
@[simp] theorem wakeAll_value (f : Futex ι V) : f.wakeAll.value = f.value := rfl

omit [DecidableEq ι] in
@[simp] theorem wakeAll_waiters (f : Futex ι V) : f.wakeAll.waiters = ∅ := rfl

/-- Returning from sleep leaves the word alone and takes out at most the returning thread. -/
theorem resume_eq_some {f f' : Futex ι V} {t : ι} {ch : Choice ι} (h : f.resume t ch = some f') :
    f'.value = f.value ∧ f'.waiters = f.waiters.erase t := by
  unfold resume at h
  split at h
  · cases h
    exact ⟨rfl, rfl⟩
  · split at h
    · cases h
    · rename_i hmem
      cases h
      exact ⟨rfl, (Finset.erase_eq_of_notMem hmem).symm⟩

/-- A wake-one leaves the word alone. -/
theorem wakeOne_value {f f' : Futex ι V} {ch : Choice ι} (h : f.wakeOne ch = some f') :
    f'.value = f.value := by
  unfold wakeOne at h
  split at h
  all_goals
    split at h
    · cases h
      rfl
    · cases h

/-- A wake-one takes one sleeper out, if there is one. -/
theorem wakeOne_waiters {f f' : Futex ι V} {ch : Choice ι} (h : f.wakeOne ch = some f') :
    f'.waiters = ∅ ∨ ∃ u ∈ f.waiters, f'.waiters = f.waiters.erase u := by
  unfold wakeOne at h
  split at h
  · split_ifs at h with hu
    cases h
    exact Or.inr ⟨_, hu, rfl⟩
  · split_ifs at h with hempty
    cases h
    exact Or.inl hempty

theorem wait_eq_some [DecidableEq V] {f f' : Futex ι V} {t : ι} {v : V} (h : f.wait t v = some f') :
    f.value = v ∧ f' = { f with waiters := insert t f.waiters } := by
  unfold wait at h
  split at h
  · rename_i hv
    cases h
    exact ⟨hv, rfl⟩
  · cases h

end Futex

end Interleave
