import Crossync.Interleave.System

/-!
# One call inside a run

A claim about what a call does and returns speaks of the steps of one thread between the start of
the call and its return, with the steps of other threads anywhere in between. `Calls A ok c₀ t op ss
c` is a run from `c₀` in which `t` has started `op` and has not started anything else since; `ss`
are the stores before and after each of its own steps, the start included, in order. What the call
returns is the outcome of the last of them.

`Calls.invariant` proves a property of the call from its start, its own steps, and the steps of the
others.

## Why the stores are kept

"Some access of the call found the store in such a state" is how a verdict is justified: a pop that
reports an empty buffer has seen it empty at one of its own steps, not at its start or its end. The
list `ss` gives that statement a place to live, and nothing in the code depends on it.

The rule asks for three facts, and keeps them apart on purpose. The start and the steps of `t` may
extend the list; a step of another thread may change the store and may not extend it.
-/

namespace Interleave

variable {ι S P O R : Type*} [DecidableEq ι]

/-- A run with the own steps of one call. -/
inductive Calls (A : Object ι S P O R) (ok : Config ι S P → Label ι O → Prop)
    (c₀ : Config ι S P) (t : ι) (op : O) : List (S × S) → Config ι S P → Prop where
  | start {c : Config ι S P} {r : S × Outcome P R} : Reach A ok c₀ c → ok c (.call t op) →
    c.pcs t = none →
      A.enter t op c.shared = some r → Calls A ok c₀ t op [(c.shared, r.1)] (c.put t r)
  | own {ss : List (S × S)} {c : Config ι S P} {ch : Choice ι} {p : P} {r : S × Outcome P R} :
      Calls A ok c₀ t op ss c → ok c (.exec t ch) → c.pcs t = some p →
        A.exec t ch c.shared p = some r →
      Calls A ok c₀ t op (ss ++ [(c.shared, r.1)]) (c.put t r)
  | other {ss : List (S × S)} {c c' : Config ι S P}
    {l : Label ι O} : Calls A ok c₀ t op ss c → ok c l →
      l.thread ≠ t → A.next c l = some c' → Calls A ok c₀ t op ss c'

namespace Calls

variable {A : Object ι S P O R} {ok : Config ι S P → Label ι O → Prop} {c₀ c : Config ι S P}
  {t : ι} {op : O}
  {ss : List (S × S)}

/-- A run with a call is a run. -/
theorem reach (h : Calls A ok c₀ t op ss c) : Reach A ok c₀ c := by
  induction h with
  | start hc hok hpc he => exact hc.tail hok (Object.next_call hpc he)
  | own _ hok hpc he ih => exact ih.tail hok (Object.next_exec hpc he)
  | other _ hok _ hn ih => exact ih.tail hok hn

/-- **The invariant rule of a call**, for an assertion `I` about its own steps so far, the store and
its program point. -/
theorem invariant {I : List (S × S) → S → P → Prop}
    (hstart : ∀ c s' o, Reach A ok c₀ c → A.enter t op c.shared = some (s', o) →
      ∀ p, o.pc = some p → I [(c.shared, s')] s' p)
    (hown : ∀ ss c ch p s' o, Reach A ok c₀ c → I ss c.shared p → ok c (.exec t ch) →
      c.pcs t = some p →
      A.exec t ch c.shared p = some (s', o) → ∀ q, o.pc = some q → I (ss ++ [(c.shared, s')]) s' q)
    (hother : ∀ ss c c' l p, Reach A ok c₀ c → I ss c.shared p → c.pcs t = some p → ok c l →
      l.thread ≠ t →
      A.next c l = some c' → I ss c'.shared p)
    (h : Calls A ok c₀ t op ss c) : ∀ p, c.pcs t = some p → I ss c.shared p := by
  induction h with
  | start hc _ _ he =>
    intro p hp
    rw [Config.put_pcs_self] at hp
    exact hstart _ _ _ hc he p hp
  | own h hok hpc he ih =>
    intro q hq
    rw [Config.put_pcs_self] at hq
    exact hown _ _ _ _ _ _ h.reach (ih _ hpc) hok hpc he q hq
  | @other ss c c' l h hok hne hn ih =>
    intro p hp
    have hsame : c.pcs t = some p := by
      obtain ⟨u, op', r, rfl, -, -, rfl⟩ | ⟨u, ch, q, r, rfl, -, -, rfl⟩ := Object.next_cases hn
      · have hut : t ≠ u := fun htu ↦ hne htu.symm
        rwa [Config.put_pcs_of_ne _ _ hut] at hp
      · have hut : t ≠ u := fun htu ↦ hne htu.symm
        rwa [Config.put_pcs_of_ne _ _ hut] at hp
    exact hother _ _ _ _ _ h.reach (ih p hsame) hsame hok hne hn

/-- A call goes on along a schedule in which its thread starts nothing. -/
theorem of_replay [∀ c l, Decidable (ok c l)] {ls : List (Label ι O)} {c' : Config ι S P}
    (h : Calls A ok c₀ t op ss c) (hls : ∀ l ∈ ls, ∀ op', l ≠ .call t op')
    (hr : A.replay ok c ls = some c') : ∃ ss', Calls A ok c₀ t op (ss ++ ss') c' := by
  induction ls generalizing c ss with
  | nil =>
    cases hr
    exact ⟨[], by rwa [List.append_nil]⟩
  | cons l ls ih =>
    have hrest : ∀ l ∈ ls, ∀ op', l ≠ .call t op' := fun l hl ↦ hls l (List.mem_cons_of_mem _ hl)
    simp only [Object.replay] at hr
    split at hr
    · rename_i hok
      split at hr
      · cases hr
      · rename_i d hd
        by_cases hl : l.thread = t
        · obtain ⟨u, op', r, rfl, -, -, -⟩ | ⟨u, ch, p, r, rfl, hpc, he, rfl⟩ :=
            Object.next_cases hd
          · exact absurd (hl ▸ rfl) (hls _ (List.mem_cons_self ..) op')
          · obtain rfl : u = t := hl
            obtain ⟨ss', h'⟩ := ih (h.own hok hpc he) hrest hr
            exact ⟨_, by rwa [List.append_assoc] at h'⟩
        · exact ih (h.other hok hl hd) hrest hr
    · cases hr

end Calls

end Interleave
