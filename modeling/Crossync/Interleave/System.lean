import Mathlib.Logic.Function.Basic
import Mathlib.Data.Finset.Basic

/-!
# Interleaved runs of a shared object

The scheduling substrate of the whole development: an *object* is a shared store together with the
code of its operations, cut into **one step per atomic access**, and a *run* is any interleaving of
those steps by any number of threads. Everything is sequentially consistent: a step reads and writes
the one current store.

## Calls, outcomes and choices

A thread is either outside the object (`none`) or at a program point `p` inside one call. `enter`
starts a call and carries the caller's obligation — an operation whose obligation is not met in the
current store is not enabled — and `exec` performs the next access of a running call. Both end in an
`Outcome`: the next program point, or the value returned. A `Choice` is what the code does not
decide: whether a weak compare-exchange fails spuriously, whether a sleeper returns spuriously,
which sleeper a wake-one picks, and which address an allocation returns.

## Guarded runs

`Reach A ok c₀ c` are the configurations reached from `c₀` by steps that each satisfy `ok` in the
configuration **before** the step; `ok := Always` gives all runs. The guard is how a result about
"every run in which no step does such-and-such" is stated, and `Reach.mono` compares two guards.

The step function is executable, so a schedule is a list of labels; `Object.replay` runs one and
`Reach.of_replay` turns the replay into a reachable configuration.

## Two ways to an invariant

`Reach.invariant` is the plain rule, for a property of whole configurations. `Reach.invariant_local`
splits it by threads: one assertion about the store and one for each program point, and every step
has to give its own thread the next assertion and leave the assertions of the others true.
Developments over this file use the second for what a thread relies on between two accesses, and the
first for what counts over all threads.

A result about every run names the guard it needs and no more. Where a claim holds in all runs the
guard is `Always`, and the rule then has nothing to check about it.
-/

namespace Interleave

/-- What the scheduler and the platform decide at a step. -/
inductive Choice (ι : Type*) where
  /-- The access does what the code asks for. -/
  | go
  /-- A weak compare-exchange fails although the word matches, or a sleeper returns unwoken. -/
  | spurious
  /-- The sleeper picked by a wake-one. -/
  | pick (u : ι)
  /-- The address returned by an allocation. -/
  | addr (n : ℕ)
  deriving DecidableEq, Repr

/-- Where a call stands after a step: at a further program point, or returned. -/
inductive Outcome (P R : Type*) where
  | goto (p : P)
  | ret (r : R)
  deriving DecidableEq, Repr

/-- The program point a thread is at after an outcome; a returned thread is outside. -/
def Outcome.pc {P R : Type*} : Outcome P R → Option P
  | goto p => some p
  | ret _ => none

@[simp] theorem Outcome.pc_goto {P R : Type*} (p : P) : (goto p : Outcome P R).pc = some p := rfl

@[simp] theorem Outcome.pc_ret {P R : Type*} (r : R) : (ret r : Outcome P R).pc = none := rfl

/-- Result of a compare-exchange on a word holding `cur`: the new word, or the word found. -/
def cas {W : Type*} [DecidableEq W] (cur expected new : W) : Except W W :=
  if cur = expected then .ok new else .error cur

/-- A weak compare-exchange may also fail on a matching word. -/
def casWeak {ι W : Type*} [DecidableEq W] (ch : Choice ι) (cur expected new : W) : Except W W :=
  match ch with
  | .spurious => .error cur
  | _ => cas cur expected new

section Cas

variable {ι W : Type*} [DecidableEq W] {cur expected new w : W}

/-- A strong compare-exchange succeeds exactly on the expected value. -/
theorem cas_eq_ok : cas cur expected new = .ok w ↔ cur = expected ∧ w = new := by
  unfold cas
  split <;> simp_all [eq_comm]

/-- A strong compare-exchange fails exactly on another value, which it returns. -/
theorem cas_eq_error : cas cur expected new = .error w ↔ cur ≠ expected ∧ w = cur := by
  unfold cas
  split <;> simp_all [eq_comm]

/-- A weak compare-exchange succeeds only on the expected value. -/
theorem casWeak_eq_ok {ch : Choice ι} (h : casWeak ch cur expected new = .ok w) :
    cur = expected ∧ w = new := by
  unfold casWeak at h
  split at h
  · cases h
  · exact cas_eq_ok.1 h

/-- A weak compare-exchange that fails returns the value it found, which may be the expected one. -/
theorem casWeak_eq_error {ch : Choice ι} (h : casWeak ch cur expected new = .error w) :
    w = cur := by
  unfold casWeak at h
  split at h
  · cases h; rfl
  · exact (cas_eq_error.1 h).2

end Cas

/-- A shared object: how a call starts, and how a running call performs its next access. `none` is
a step that is not enabled. -/
structure Object (ι S P O R : Type*) where
  /-- Thread `t` starts operation `op`. -/
  enter : ι → O → S → Option (S × Outcome P R)
  /-- Thread `t`, at a program point, performs the access there. -/
  exec : ι → Choice ι → S → P → Option (S × Outcome P R)

/-- A configuration: the shared store and where every thread stands. -/
@[ext]
structure Config (ι S P : Type*) where
  shared : S
  pcs : ι → Option P

/-- A scheduled step. -/
inductive Label (ι O : Type*) where
  | call (t : ι) (op : O)
  | exec (t : ι) (ch : Choice ι)
  deriving DecidableEq, Repr

/-- The thread that a label schedules. -/
def Label.thread {ι O : Type*} : Label ι O → ι
  | call t _ => t
  | exec t _ => t

variable {ι S P O R : Type*} [DecidableEq ι]

namespace Config

/-- The configuration after thread `t` left the store `s` and ended in `o`. -/
def put (c : Config ι S P) (t : ι) (r : S × Outcome P R) : Config ι S P :=
  ⟨r.1, Function.update c.pcs t r.2.pc⟩

/-- The store after a step is what the step returned. -/
@[simp] theorem put_shared (c : Config ι S P) (t : ι) (r : S × Outcome P R) :
    (c.put t r).shared = r.1 := rfl

@[simp] theorem put_pcs_self (c : Config ι S P) (t : ι) (r : S × Outcome P R) :
    (c.put t r).pcs t = r.2.pc := by
  simp [put]

theorem put_pcs_of_ne (c : Config ι S P) {t u : ι} (r : S × Outcome P R) (h : u ≠ t) :
    (c.put t r).pcs u = c.pcs u := by
  simp [put, h]

/-- The program points after a step, as one update. -/
theorem put_pcs (c : Config ι S P) (t : ι) (r : S × Outcome P R) :
    (c.put t r).pcs = Function.update c.pcs t r.2.pc := rfl

/-- A thread that is where the moving thread cannot have come has not moved. -/
theorem pcs_of_put {c : Config ι S P} {t u : ι} {r : S × Outcome P R} {q : P} (hr : r.2.pc ≠ some q)
    (hu : (c.put t r).pcs u = some q) : c.pcs u = some q := by
  have hut : u ≠ t := by
    rintro rfl
    rw [put_pcs_self] at hu
    exact hr hu
  rwa [put_pcs_of_ne _ _ hut] at hu

/-- A reading of the program points moves at the thread that moved. -/
theorem comp_put_pcs {α : Type*} (f : Option P → α) (c : Config ι S P) (t : ι)
    (r : S × Outcome P R) :
    (fun u ↦ f ((c.put t r).pcs u)) = Function.update (fun u ↦ f (c.pcs u)) t (f r.2.pc) := by
  funext u
  by_cases hu : u = t
  · subst hu
    simp
  · rw [put_pcs_of_ne _ _ hu, Function.update_of_ne hu]

/-- Assertions about the threads hold after a step of `t` if they hold for `t` and for the threads
that did not move. -/
theorem forall_put {L : ι → S → P → Prop} {c : Config ι S P} {t : ι} {s' : S} {o : Outcome P R}
    (hself : ∀ p, o.pc = some p → L t s' p)
    (hother : ∀ u q, u ≠ t → c.pcs u = some q → L u s' q) :
    ∀ u q, (c.put t (s', o)).pcs u = some q → L u s' q := by
  intro u q hq
  by_cases hut : u = t
  · subst hut
    exact hself q (by simpa using hq)
  · rw [put_pcs_of_ne _ _ hut] at hq
    exact hother u q hut hq

/-- No thread is inside a call. -/
def Quiet (c : Config ι S P) : Prop := ∀ t, c.pcs t = none

end Config

namespace Object

variable (A : Object ι S P O R)

/-- The configuration after a scheduled step, if the step is enabled. -/
def next (c : Config ι S P) : Label ι O → Option (Config ι S P)
  | .call t op =>
    match c.pcs t with
    | none => (A.enter t op c.shared).map (c.put t)
    | some _ => none
  | .exec t ch =>
    match c.pcs t with
    | none => none
    | some p => (A.exec t ch c.shared p).map (c.put t)

/-- **What a step can do**: start a call of an outside thread, or perform one access of a running
call. -/
theorem next_cases {A : Object ι S P O R} {c c' : Config ι S P} {l : Label ι O}
    (h : A.next c l = some c') :
    (∃ t op r, l = .call t op ∧ c.pcs t = none ∧ A.enter t op c.shared = some r ∧
      c' = c.put t r) ∨
    (∃ t ch p r, l = .exec t ch ∧ c.pcs t = some p ∧ A.exec t ch c.shared p = some r ∧
      c' = c.put t r) := by
  cases l with
  | call t op =>
    left
    simp only [next] at h
    split at h
    · rename_i hpc
      obtain ⟨r, hr, rfl⟩ := Option.map_eq_some_iff.1 h
      exact ⟨t, op, r, rfl, hpc, hr, rfl⟩
    · cases h
  | exec t ch =>
    right
    simp only [next] at h
    split at h
    · cases h
    · rename_i p hpc
      obtain ⟨r, hr, rfl⟩ := Option.map_eq_some_iff.1 h
      exact ⟨t, ch, p, r, rfl, hpc, hr, rfl⟩

/-- A call whose obligation is met is a step. -/
theorem next_call {A : Object ι S P O R} {c : Config ι S P} {t : ι} {op : O} {r : S × Outcome P R}
    (hpc : c.pcs t = none) (h : A.enter t op c.shared = some r) :
    A.next c (.call t op) = some (c.put t r) := by
  simp [next, hpc, h]

/-- An access of a running call is a step. -/
theorem next_exec {A : Object ι S P O R} {c : Config ι S P} {t : ι} {ch : Choice ι} {p : P}
    {r : S × Outcome P R} (hpc : c.pcs t = some p) (h : A.exec t ch c.shared p = some r) :
    A.next c (.exec t ch) = some (c.put t r) := by
  simp [next, hpc, h]

/-- Replay a schedule, checking `ok` before every step. -/
def replay (ok : Config ι S P → Label ι O → Prop) [∀ c l, Decidable (ok c l)] (c : Config ι S P) :
    List (Label ι O) → Option (Config ι S P)
  | [] => some c
  | l :: ls =>
    if ok c l then
      match A.next c l with
      | none => none
      | some c' => replay ok c' ls
    else none

end Object

/-- The guard that every step satisfies. -/
def Always {α β : Type*} : α → β → Prop := fun _ _ ↦ True

instance {α β : Type*} (a : α) (b : β) : Decidable (Always a b) := isTrue trivial

/-- The configurations reached from `c₀` by steps that each satisfy `ok` beforehand. -/
inductive Reach (A : Object ι S P O R) (ok : Config ι S P → Label ι O → Prop) (c₀ : Config ι S P) :
    Config ι S P → Prop where
  | refl : Reach A ok c₀ c₀
  | tail {c c' : Config ι S P} {l : Label ι O} :
      Reach A ok c₀ c → ok c l → A.next c l = some c' → Reach A ok c₀ c'

namespace Reach

variable {A : Object ι S P O R} {ok ok' : Config ι S P → Label ι O → Prop}
  {c₀ c c' : Config ι S P}

/-- A run under a stronger guard is a run under a weaker one. -/
theorem mono (hok : ∀ c l, ok c l → ok' c l) (h : Reach A ok c₀ c) : Reach A ok' c₀ c := by
  induction h with
  | refl => exact .refl
  | tail _ hl hn ih => exact .tail ih (hok _ _ hl) hn

theorem trans (h : Reach A ok c₀ c) (h' : Reach A ok c c') : Reach A ok c₀ c' := by
  induction h' with
  | refl => exact h
  | tail _ hl hn ih => exact .tail ih hl hn

/-- **The invariant rule.** A property of the initial configuration that every enabled call start
and every enabled access keep holds of everything reachable. Facts already known of reachable
configurations may be used at each step. -/
theorem invariant {I : Config ι S P → Prop} (h₀ : I c₀)
    (henter : ∀ c t op r, Reach A ok c₀ c → I c → ok c (.call t op) → c.pcs t = none →
      A.enter t op c.shared = some r → I (c.put t r))
    (hexec : ∀ c t ch p r, Reach A ok c₀ c → I c → ok c (.exec t ch) → c.pcs t = some p →
      A.exec t ch c.shared p = some r → I (c.put t r))
    (h : Reach A ok c₀ c) : I c := by
  induction h with
  | refl => exact h₀
  | tail hc hl hn ih =>
    obtain ⟨t, op, r, rfl, hpc, hr, rfl⟩ | ⟨t, ch, p, r, rfl, hpc, hr, rfl⟩ :=
      Object.next_cases hn
    · exact henter _ t op r hc ih hl hpc hr
    · exact hexec _ t ch p r hc ih hl hpc hr

/-- **The local-assertion rule.** A store invariant `G` and one assertion `L` per program point hold
along every run if each step establishes them for the thread that moves and does not interfere with
the assertion any other thread relies on. -/
theorem invariant_local {G : S → Prop} {L : ι → S → P → Prop} (hG : G c₀.shared)
    (hL : ∀ t p, c₀.pcs t = some p → L t c₀.shared p)
    (henter : ∀ t op s s' o, G s → A.enter t op s = some (s', o) →
      G s' ∧ (∀ p, o.pc = some p → L t s' p) ∧ ∀ u q, u ≠ t → L u s q → L u s' q)
    (hexec : ∀ t ch s p s' o, G s → L t s p → A.exec t ch s p = some (s', o) →
      G s' ∧ (∀ p', o.pc = some p' → L t s' p') ∧ ∀ u q, u ≠ t → L u s q → L u s' q)
    (h : Reach A ok c₀ c) : G c.shared ∧ ∀ t p, c.pcs t = some p → L t c.shared p := by
  refine h.invariant (I := fun c ↦ G c.shared ∧ ∀ t p, c.pcs t = some p → L t c.shared p)
    ⟨hG, hL⟩ ?_ ?_
  · rintro c t op ⟨s', o⟩ - ⟨hg, hl⟩ - - hr
    obtain ⟨h₁, h₂, h₃⟩ := henter t op _ s' o hg hr
    exact ⟨h₁, Config.forall_put h₂ fun u q hu hq ↦ h₃ u q hu (hl u q hq)⟩
  · rintro c t ch p ⟨s', o⟩ - ⟨hg, hl⟩ - hpc hr
    obtain ⟨h₁, h₂, h₃⟩ := hexec t ch _ p s' o hg (hl t p hpc) hr
    exact ⟨h₁, Config.forall_put h₂ fun u q hu hq ↦ h₃ u q hu (hl u q hq)⟩

end Reach

/-- A run together with the configurations it passes through, the first and the last included. -/
inductive Passes (A : Object ι S P O R) (ok : Config ι S P → Label ι O → Prop) (c₀ : Config ι S P) :
    List (Config ι S P) → Config ι S P → Prop where
  | refl : Passes A ok c₀ [c₀] c₀
  | tail {cs : List (Config ι S P)} {c c' : Config ι S P} {l : Label ι O} :
      Passes A ok c₀ cs c → ok c l → A.next c l = some c' → Passes A ok c₀ (cs ++ [c']) c'

namespace Passes

variable {A : Object ι S P O R} {ok : Config ι S P → Label ι O → Prop}
  {c₀ c : Config ι S P} {cs : List (Config ι S P)}

/-- A run passes the configuration it ends in. -/
theorem mem_last (h : Passes A ok c₀ cs c) : c ∈ cs := by
  cases h with
  | refl => exact List.mem_singleton_self _
  | tail => exact List.mem_append_right _ (List.mem_singleton_self _)

/-- A run that avoids `Q` is one whose steps start outside of `Q`. -/
theorem reach_of_avoids {Q : Config ι S P → Prop} (h : Passes A ok c₀ cs c) (hQ : ∀ d ∈ cs, ¬ Q d) :
    Reach A (fun d l ↦ ok d l ∧ ¬ Q d) c₀ c := by
  induction h with
  | refl => exact .refl
  | tail hrun hok hn ih =>
    have hbefore : ∀ d ∈ _, ¬ Q d := fun d hd ↦ hQ d (List.mem_append_left _ hd)
    exact .tail (ih hbefore) ⟨hok, hbefore _ hrun.mem_last⟩ hn

end Passes

/-! ### Components

Code built on a component runs the component's accesses from inside its own program points. What the
component sees of a configuration is a *view*: its own part of the store, and the component's
program point inside each thread's, if there is one. If every step moves the view by a step of the
component or not at all, the view of a reachable configuration is reachable for the component, and
everything proved about the component's runs holds of it. -/

/-- What a component sees: its part `f` of the store and its program point inside each thread's. -/
def Config.view {S' P' : Type*} (f : S → S') (g : P → Option P') (c : Config ι S P) :
    Config ι S' P' :=
  ⟨f c.shared, fun t ↦ (c.pcs t).bind g⟩

section View

variable {S' P' O' R' : Type*} {f : S → S'} {g : P → Option P'} {c : Config ι S P} {t : ι}
  {r : S × Outcome P R}

omit [DecidableEq ι] in
@[simp] theorem Config.view_shared : (c.view f g).shared = f c.shared := rfl

omit [DecidableEq ι] in
@[simp] theorem Config.view_pcs (u : ι) : (c.view f g).pcs u = (c.pcs u).bind g := rfl

/-- What the component sees of a step is the step it would have made itself. -/
theorem Config.view_put {o : Outcome P' R'} (ho : o.pc = r.2.pc.bind g) :
    (c.put t r).view f g = (c.view f g).put t (f r.1, o) := by
  refine Config.ext rfl (funext fun u ↦ ?_)
  by_cases hu : u = t
  · subst hu
    simp [ho]
  · rw [view_pcs, put_pcs_of_ne _ _ hu, put_pcs_of_ne _ _ hu, view_pcs]

/-- A step that does not concern the component. -/
theorem Config.view_put_of_same (hs : f r.1 = f c.shared) (hp : r.2.pc.bind g = (c.pcs t).bind g) :
    (c.put t r).view f g = c.view f g := by
  refine Config.ext hs (funext fun u ↦ ?_)
  by_cases hu : u = t
  · subst hu
    simpa using hp
  · rw [view_pcs, put_pcs_of_ne _ _ hu, view_pcs]

variable {B : Object ι S' P' O' R'} {ok' : Config ι S' P' → Label ι O' → Prop} {b₀ : Config ι S' P'}

/-- A step that performs an access of the component. -/
theorem Reach.view_exec (h : Reach B ok' b₀ (c.view f g)) (ch : Choice ι) {p : P}
    {p' : P'} {o : Outcome P' R'} (hok : ok' (c.view f g) (.exec t ch)) (hpc : c.pcs t = some p)
    (hp : g p = some p') (he : B.exec t ch (f c.shared) p' = some (f r.1, o))
    (ho : o.pc = r.2.pc.bind g) : Reach B ok' b₀ ((c.put t r).view f g) := by
  refine h.tail (l := .exec t ch) hok ?_
  rw [Config.view_put ho]
  exact Object.next_exec (by simp [hpc, hp]) he

/-- A step that starts a call of the component. -/
theorem Reach.view_call (h : Reach B ok' b₀ (c.view f g)) (op : O') {o : Outcome P' R'}
    (hok : ok' (c.view f g) (.call t op)) (hpc : (c.pcs t).bind g = none)
    (he : B.enter t op (f c.shared) = some (f r.1, o)) (ho : o.pc = r.2.pc.bind g) :
    Reach B ok' b₀ ((c.put t r).view f g) := by
  refine h.tail (l := .call t op) hok ?_
  rw [Config.view_put ho]
  exact Object.next_call hpc he

/-- A step that performs the last access of a call of the component and starts the next call. -/
theorem Reach.view_exec_call (h : Reach B ok' b₀ (c.view f g)) (ch : Choice ι) (op : O')
    {p : P} {p' : P'} {s₁ : S'} {e : R'} {o : Outcome P' R'} (hok : ok' (c.view f g) (.exec t ch))
    (hok' : ok' ((c.view f g).put t (s₁, (.ret e : Outcome P' R'))) (.call t op))
    (hpc : c.pcs t = some p) (hp : g p = some p')
    (he : B.exec t ch (f c.shared) p' = some (s₁, .ret e)) (he' : B.enter t op s₁ = some (f r.1, o))
    (ho : o.pc = r.2.pc.bind g) :
    Reach B ok' b₀ ((c.put t r).view f g) := by
  have h₁ : Reach B ok' b₀ ((c.view f g).put t (s₁, (.ret e : Outcome P' R'))) :=
    h.tail hok (Object.next_exec (by simp [hpc, hp]) he)
  refine h₁.tail hok' ?_
  rw [Object.next_call (by simp) he', Config.view_put ho]
  refine congrArg some (Config.ext rfl ?_)
  exact (Function.update_idem ..).trans rfl

/-- A step that does not concern the component. -/
theorem Reach.view_same (h : Reach B ok' b₀ (c.view f g)) (hs : f r.1 = f c.shared)
    (hp : r.2.pc.bind g = (c.pcs t).bind g) : Reach B ok' b₀ ((c.put t r).view f g) := by
  rwa [Config.view_put_of_same hs hp]

end View

namespace Reach

variable {A : Object ι S P O R} {ok : Config ι S P → Label ι O → Prop} {c c' : Config ι S P}

/-- A replayed schedule reaches its last configuration. -/
theorem of_replay [∀ c l, Decidable (ok c l)] {ls : List (Label ι O)}
    (h : A.replay ok c ls = some c') : Reach A ok c c' := by
  induction ls generalizing c with
  | nil =>
    cases h
    exact .refl
  | cons l ls ih =>
    simp only [Object.replay] at h
    split at h
    · rename_i hl
      split at h
      · cases h
      · rename_i d hd
        exact (Reach.tail .refl hl hd).trans (ih h)
    · cases h

variable (A ok c) in
/-- A replayed schedule, with a test on the configuration it ends in. -/
theorem exists_of_replay [∀ c l, Decidable (ok c l)] (ls : List (Label ι O))
    (test : Config ι S P → Bool) (h : (A.replay ok c ls).any test = true) :
    ∃ c', Reach A ok c c' ∧ test c' = true := by
  cases hr : A.replay ok c ls with
  | none =>
    rw [hr] at h
    cases h
  | some c' =>
    rw [hr] at h
    exact ⟨c', of_replay hr, h⟩

end Reach

end Interleave
