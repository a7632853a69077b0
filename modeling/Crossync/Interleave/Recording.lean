import Crossync.Interleave.System

/-!
# Recorded runs

What the calls of an object amount to is often a history that no step of its code keeps.
`A.recording onCall onExec` is the object `A` with such a history beside its store: every step
appends what it is said to contribute. No step reads the history, so nothing else changes: a
recorded run without its history is a run of `A` (`Reach.erase`), and every run of `A` is one
(`Reach.exists_recorded`).

## Erasure and completeness

The two directions are used for different things. A property of recorded runs is read off with
`erase`, since what it says about the store and the program points is about the run without the
record. `exists_recorded` is what makes a theorem about recorded runs a theorem about all runs: it
would be worth little if some run had no record.
-/

namespace Interleave

universe u v

/-- A store, and a history of what was done to it. -/
structure Recorded (S : Type u) (E : Type v) where
  store : S
  log : List E

variable {ι S P O R E : Type*} [DecidableEq ι]

/-- The object with a history, from what the start of a call contributes and what an access
contributes. -/
def Object.recording (A : Object ι S P O R) (onCall : ι → O → S → Outcome P R → List E)
    (onExec : ι → P → S → Outcome P R → List E) : Object ι (Recorded S E) P O R where
  enter t op s := (A.enter t op s.store).map fun r ↦ (⟨r.1, s.log ++ onCall t op s.store r.2⟩, r.2)
  exec t ch s p := (A.exec t ch s.store p).map fun r ↦ (⟨r.1, s.log ++ onExec t p s.store r.2⟩, r.2)

/-- A configuration without its history. -/
def Config.erase (c : Config ι (Recorded S E) P) : Config ι S P := ⟨c.shared.store, c.pcs⟩

variable {A : Object ι S P O R} {onCall : ι → O → S → Outcome P R → List E}
  {onExec : ι → P → S → Outcome P R → List E} {t : ι} {s s' : Recorded S E} {o : Outcome P R}

omit [DecidableEq ι] in
/-- A recorded start of a call is one, and has contributed. -/
theorem Object.recording_enter {op : O}
    (h : (A.recording onCall onExec).enter t op s = some (s', o)) :
    A.enter t op s.store = some (s'.store, o) ∧ s'.log = s.log ++ onCall t op s.store o := by
  obtain ⟨r, hr, he⟩ := Option.map_eq_some_iff.1 h
  cases he
  exact ⟨hr, rfl⟩

omit [DecidableEq ι] in
/-- A recorded access is one, and has contributed. -/
theorem Object.recording_exec {ch : Choice ι} {p : P}
    (h : (A.recording onCall onExec).exec t ch s p = some (s', o)) :
    A.exec t ch s.store p = some (s'.store, o) ∧ s'.log = s.log ++ onExec t p s.store o := by
  obtain ⟨r, hr, he⟩ := Option.map_eq_some_iff.1 h
  cases he
  exact ⟨hr, rfl⟩

variable {ok : Config ι S P → Label ι O → Prop} {ok' : Config ι (Recorded S E) P → Label ι O → Prop}
  {c₀ c : Config ι (Recorded S E) P}

/-- **A recorded run is a run.** -/
theorem Reach.erase (hok : ∀ c l, ok' c l → ok c.erase l)
    (h : Reach (A.recording onCall onExec) ok' c₀ c) : Reach A ok c₀.erase c.erase := by
  induction h with
  | refl => exact .refl
  | @tail c _ _ _ hl hn ih =>
    obtain ⟨t, op, ⟨s', o⟩, rfl, hpc, hr, rfl⟩ | ⟨t, ch, p, ⟨s', o⟩, rfl, hpc, hr, rfl⟩ :=
      Object.next_cases hn
    · have hstep : A.next c.erase (.call t op) = some (c.erase.put t (s'.store, o)) :=
        Object.next_call hpc (Object.recording_enter hr).1
      exact ih.tail (hok _ _ hl) hstep
    · have hstep : A.next c.erase (.exec t ch) = some (c.erase.put t (s'.store, o)) :=
        Object.next_exec hpc (Object.recording_exec hr).1
      exact ih.tail (hok _ _ hl) hstep

/-- **Every run can be recorded.** -/
theorem Reach.exists_recorded (hok : ∀ c l, ok c.erase l → ok' c l) {d : Config ι S P}
    (h : Reach A ok c₀.erase d) : ∃ c, Reach (A.recording onCall onExec) ok' c₀ c ∧
      c.erase = d := by
  induction h with
  | refl => exact ⟨c₀, .refl, rfl⟩
  | tail _ hl hn ih =>
    obtain ⟨c, hc, rfl⟩ := ih
    obtain ⟨t, op, ⟨s', o⟩, rfl, hpc, hr, rfl⟩ | ⟨t, ch, p, ⟨s', o⟩, rfl, hpc, hr, rfl⟩ :=
      Object.next_cases hn
    · have hstep : (A.recording onCall onExec).enter t op c.shared =
          some (⟨s', c.shared.log ++ onCall t op c.shared.store o⟩, o) :=
        Option.map_eq_some_iff.2 ⟨_, hr, rfl⟩
      exact ⟨_, hc.tail (hok _ _ hl) (Object.next_call hpc hstep), rfl⟩
    · have hstep : (A.recording onCall onExec).exec t ch c.shared p =
          some (⟨s', c.shared.log ++ onExec t p c.shared.store o⟩, o) :=
        Option.map_eq_some_iff.2 ⟨_, hr, rfl⟩
      exact ⟨_, hc.tail (hok _ _ hl) (Object.next_exec hpc hstep), rfl⟩

end Interleave
