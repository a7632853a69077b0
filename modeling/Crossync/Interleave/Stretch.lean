import Crossync.Interleave.System

/-!
# A stretch of a run inside one piece of code

A claim about a function that a call goes through speaks of the time from its start to its end, with
the steps of other threads anywhere in between. `Stretch A t inside c₀ n c` is such a time: the run
leads from `c₀` to `c`, thread `t` has taken `n` steps, and each of them began at a program point
that `inside` accepts. So at `c` the thread is still inside or has just left.

`Stretch.invariant` proves a property along the stretch from the steps of `t` and those of the
others. A property that mentions `n` bounds the number of own steps.

## Own steps and foreign steps

The number `n` counts the steps of `t` only, since the others may take any number in between. A
bound on `n` together with the fact that `t` can always take its next step is what "returns after a
bounded number of its own steps" means in an interleaving.

`Stretch` differs from `Call` in where it begins: at a program point in the middle of a call, for
code that a call goes through and not for the call itself.
-/

namespace Interleave

variable {ι S P O R : Type*} [DecidableEq ι]

/-- A run in which `t` only moves inside a piece of code. -/
inductive Stretch (A : Object ι S P O R) (t : ι) (inside : P → Prop) (c₀ : Config ι S P) :
    ℕ → Config ι S P → Prop where
  | start : Stretch A t inside c₀ 0 c₀
  | own {n : ℕ} {c c' : Config ι S P} {ch : Choice ι} {p : P} : Stretch A t inside c₀ n c →
      c.pcs t = some p → inside p → A.next c (.exec t ch) = some c' →
        Stretch A t inside c₀ (n + 1) c'
  | other {n : ℕ} {c c' : Config ι S P} {l : Label ι O} {p : P} : Stretch A t inside c₀ n c →
      c.pcs t = some p → inside p → l.thread ≠ t → A.next c l = some c' → Stretch A t inside c₀ n c'

namespace Stretch

variable {A : Object ι S P O R} {t : ι} {inside : P → Prop} {c₀ c d : Config ι S P} {m n : ℕ}

/-- A stretch of a run is a run. -/
theorem reach (h : Stretch A t inside c₀ n c) : Reach A Always c₀ c := by
  induction h with
  | start => exact .refl
  | own _ _ _ hn ih => exact ih.tail trivial hn
  | other _ _ _ _ hn ih => exact ih.tail trivial hn

theorem trans (h : Stretch A t inside c₀ m d) (h' : Stretch A t inside d n c) :
    Stretch A t inside c₀ (m + n) c := by
  induction h' with
  | start => exact h
  | own _ hpc hin hn ih => exact ih.own hpc hin hn
  | other _ hpc hin hne hn ih => exact ih.other hpc hin hne hn

/-- **The invariant rule of a stretch.** -/
theorem invariant {I : ℕ → Config ι S P → Prop} (hstart : I 0 c₀)
    (hown : ∀ n c ch p r, Stretch A t inside c₀ n c → I n c → c.pcs t = some p → inside p →
      A.exec t ch c.shared p = some r → I (n + 1) (c.put t r))
    (henter : ∀ n c u op p r, Stretch A t inside c₀ n c → I n c → c.pcs t = some p →
      inside p → u ≠ t →
      c.pcs u = none → A.enter u op c.shared = some r → I n (c.put u r))
    (hexec : ∀ n c u ch p q r, Stretch A t inside c₀ n c → I n c → c.pcs t = some p →
      inside p → u ≠ t →
      c.pcs u = some q → A.exec u ch c.shared q = some r → I n (c.put u r))
    (h : Stretch A t inside c₀ n c) : I n c := by
  induction h with
  | start => exact hstart
  | own h hpc hin hn ih =>
    obtain ⟨u, op, r, hl, -, -, -⟩ | ⟨u, ch, q, r, hl, hq, hr, rfl⟩ := Object.next_cases hn
    · cases hl
    · cases hl
      rw [hpc] at hq
      cases hq
      exact hown _ _ _ _ _ h ih hpc hin hr
  | other h hpc hin hne hn ih =>
    obtain ⟨u, op, r, rfl, hu, hr, rfl⟩ | ⟨u, ch, q, r, rfl, hu, hr, rfl⟩ := Object.next_cases hn
    · exact henter _ _ _ _ _ _ h ih hpc hin hne hu hr
    · exact hexec _ _ _ _ _ _ _ h ih hpc hin hne hu hr

end Stretch

end Interleave
