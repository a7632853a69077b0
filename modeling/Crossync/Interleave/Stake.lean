import Crossync.Interleave.System

/-!
# Stakes

Many accesses are safe because exactly one thread may make them: the thread that has reserved a
slot, that is linking a block, that has taken a value and not handed it over yet. A *stake* on a key
`k` at a stage is such a responsibility; the program points say which stakes their threads have, and
a function `φ` of the keys says whose stake each key is, if anybody's.

`Staked held claim φ pcs` says that the two agree. It is kept by every step as long as a thread has
at most the one stake it moves (`Staked.update`), so each step of the program only has to say how
the phase of its own key moves.

## The three moves

A stake is taken (`none` before, `some` after), given up (the other way round) or moved to another
stage of the same key. `Staked.update` is the general form and covers all three; a step that has no
stake before or after it leaves `φ` as it is. Keys need not be bounded: a slot index, a block
address and a place in a chain are all used as keys.
-/

namespace Interleave

variable {ι K X St P : Type*} [DecidableEq ι]

/-- The function `φ` records exactly the stakes of the threads: `held st t` is the phase of a key on
which `t` has a stake at stage `st`. -/
def Staked (held : St → ι → X) (claim : P → Option (K × St)) (φ : K → X)
    (pcs : ι → Option P) : Prop :=
  ∀ t k st, φ k = held st t ↔ (pcs t).bind claim = some (k, st)

namespace Staked

variable {held : St → ι → X} {claim : P → Option (K × St)} {φ : K → X} {pcs : ι → Option P} {t : ι}
  {q' : Option P}

omit [DecidableEq ι] in
theorem phase (h : Staked held claim φ pcs) {q : P} {k : K} {st : St} (hpc : pcs t = some q)
    (hq : claim q = some (k, st)) : φ k = held st t :=
  (h t k st).2 (by rw [hpc]; exact hq)

/-- A step that moves no stake. -/
theorem same (h : Staked held claim φ pcs) (hq : q'.bind claim = (pcs t).bind claim) :
    Staked held claim φ (Function.update pcs t q') := by
  intro u k st
  by_cases hu : u = t
  · subst hu
    rw [Function.update_self, hq]
    exact h u k st
  · rw [Function.update_of_ne hu]
    exact h u k st

/-- **A stake moves with its thread.** If `t` had no stake but one on `k`, nobody else had one on
`k`, and `t` has no stake but one on `k` afterwards, only the phase of `k` changes. -/
theorem update [DecidableEq K] {k : K} {x : X} (h : Staked held claim φ pcs)
    (hbefore : ∀ k' st, (pcs t).bind claim = some (k', st) → k' = k)
    (hothers : ∀ st u, φ k = held st u → u = t) (hx : ∀ st u, x = held st u → u = t)
    (hafter : ∀ k' st, q'.bind claim = some (k', st) ↔ k' = k ∧ x = held st t) :
    Staked held claim (Function.update φ k x) (Function.update pcs t q') := by
  intro u k' st
  by_cases hu : u = t
  · subst hu
    rw [Function.update_self, hafter]
    by_cases hk : k' = k
    · subst hk
      simp
    · rw [Function.update_of_ne hk, h u k' st]
      exact ⟨fun hc ↦ absurd (hbefore k' st hc) hk, fun hc ↦ absurd hc.1 hk⟩
  · rw [Function.update_of_ne hu, ← h u k' st]
    by_cases hk : k' = k
    · subst hk
      rw [Function.update_self]
      exact ⟨fun hc ↦ absurd (hx st u hc) hu, fun hc ↦ absurd (hothers st u hc) hu⟩
    · rw [Function.update_of_ne hk]

end Staked

end Interleave
