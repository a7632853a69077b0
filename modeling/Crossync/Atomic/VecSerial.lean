import Crossync.Core.SerialParking
import Crossync.Atomic.VecDelivery
import Crossync.Atomic.VecOrder

/-!
# `AtomicVec` under a lock

A caller that makes its calls one at a time, each call running to its end before another thread
starts one, sees a plain queue: `pop` takes the oldest value and finds nothing only when there is
nothing, `len` is exact, and no call panics. The calls still run access by access; that they do not
overlap is a guard on the run (`OneAtATime`), and a caller meets it by holding a lock around each
call.

`Sole` is what the running call knows while it is alone: the word of `head` that a pop has loaded is
still the current one, and a pin is never withdrawn, because nobody holds the queue exclusively.

## What changes without overlap

Under arbitrary interleaving a pop can reserve a slot that no push has reserved (`Atomic.VecOrder`).
Under a lock it cannot, since a call finds the ends where the last one left them, and no call is in
the middle of moving one. This module is what the channel needs, and it is proved about the
interleaved code, not about the one of `Atomic.VecAlone`.
-/

open Interleave

namespace Crossync

namespace AtomicVec

variable {ι α : Type*} [DecidableEq ι] {ids : Coord.ThreadIds ι} {adaptive : ℕ}

/-- **Calls do not overlap**: a thread takes a step only while nobody else is inside a call, except
that it may turn to another structure at any moment. -/
def OneAtATime (c : Config ι (Store ι α) (Pc ι α)) : Label ι (Op α) → Prop
  | .call _ .evict => True
  | l => ∀ u, u ≠ l.thread → c.pcs u = none

/-! ### The code of a call

Which program points belong to which operation, and that a call stays in its own. -/

/-- The program points of a call. -/
def During : Op α → Pc ι α → Prop
  | .push v, .pushPin w _ => w = v
  | .push v, .pushTail w _ => w = v
  | .push v, .pushBlock w _ _ => w = v
  | .push v, .push f _ => f.value = v
  | .push _, .pushUnpin _ => True
  | .pop, .popPin _ => True
  | .pop, .popHead _ => True
  | .pop, .popBlock _ _ => True
  | .pop, .pop _ _ => True
  | .pop, .popUnpin _ _ _ => True
  | .pop, .reclaim (.popped _) _ => True
  | .tryReclaim, .reclaim .unit _ => True
  | .len, .lenHead => True
  | .len, .lenTail _ => True
  | _, _ => False

/-- What a call can return. -/
def Answers : Op α → Ret α → Prop
  | .push _, r => r = .unit
  | .pop, r => ∃ res, r = .popped res
  | .tryReclaim, r => r = .unit
  | .len, r => ∃ n, r = .len n
  | .evict, r => r = .unit

/-- A push has reserved its slot. -/
def reserved : Pc ι α → Bool
  | .push _ .cas => false
  | .push _ _ | .pushUnpin _ => true
  | _ => false

/-- How a call may go on: in its own code, or by returning. -/
def Continues (op : Op α) (o : Outcome (Pc ι α) (Ret α)) : Prop :=
  (∃ q, o = .goto q ∧ During op q) ∨ (∃ r, o = .ret r ∧ Answers op r) ∨ o = .ret .panicked

section During

variable {op : Op α} {t : ι} {ch : Choice ι} {s s' : Store ι α} {p : Pc ι α}
  {o : Outcome (Pc ι α) (Ret α)}

omit [DecidableEq ι] in
theorem coordStep_continues {r : Option (Coord.Store ι × Outcome (Coord.Pc ι) Coord.Ret)}
    {stay : Coord.Pc ι → Pc ι α}
    {done : Store ι α → Coord.Ret → Store ι α × Outcome (Pc ι α) (Ret α)}
    (h : coordStep s r stay done = some (s', o)) (hstay : ∀ q, During op (stay q))
    (hdone : ∀ s' e, Continues op (done s' e).2) : Continues op o := by
  obtain ⟨l, ⟨q, -, rfl, rfl⟩ | ⟨e, -, hd⟩⟩ := coordStep_cases h
  · exact Or.inl ⟨_, rfl, hstay q⟩
  · have := hdone { s with coordLock := l } e
    rwa [← hd] at this

omit [DecidableEq ι] in
theorem finish_continues {r : Ret α} (hr : Answers op r) (s : Store ι α) :
    Continues op (finish s r).2 := by
  unfold finish
  split
  · exact Or.inr (Or.inl ⟨_, rfl, hr⟩)
  · exact Or.inr (Or.inl ⟨_, rfl, hr⟩)

/-- **What a step of a reclaiming call can do**: it stays in the reclaiming code, panics at the
lock, or returns. -/
theorem execReclaim_cases {r : Ret α} {pt : ReclaimPoint ι}
    (he : execReclaim ids adaptive t ch s r pt = some (s', o)) :
    (s'.returned = s.returned ∧ ((∃ pt', o = .goto (.reclaim r pt')) ∨
      o = .ret .panicked ∧ ∃ q l e, pt = .enter q ∧
        Coord.exec ids adaptive t ch s.coordLock q = some (l, .ret e) ∧ e ≠ .exclusive ∧
          e ≠ .busy)) ∨
      ∃ l, (s', o) = finish { s with coordLock := l } r := by
  have hloop : ∀ block, ∃ pt', reclaimLoop t r block = (.reclaim r pt' : Pc ι α) := by
    intro block
    unfold reclaimLoop
    split_ifs
    · exact ⟨_, rfl⟩
    · exact ⟨_, rfl⟩
  cases pt with
  | count =>
    simp only [execReclaim] at he
    split_ifs at he
    · exact Or.inr ⟨s.coordLock, (Option.some.inj he).symm⟩
    · cases he
      exact Or.inl ⟨rfl, Or.inl ⟨_, rfl⟩⟩
    · cases he
      exact Or.inl ⟨rfl, Or.inl ⟨_, rfl⟩⟩
  | enter q =>
    simp only [execReclaim] at he
    obtain ⟨l, ⟨q', -, rfl, rfl⟩ | ⟨e, hq, hd⟩⟩ := coordStep_cases he
    · exact Or.inl ⟨rfl, Or.inl ⟨_, rfl⟩⟩
    · cases e with
      | exclusive =>
        cases hd
        exact Or.inl ⟨rfl, Or.inl ⟨_, rfl⟩⟩
      | busy => exact Or.inr ⟨l, hd⟩
      | _ =>
        cases hd
        exact Or.inl ⟨rfl, Or.inr ⟨rfl, q, l, _, rfl, hq, by simp, by simp⟩⟩
  | leave q =>
    simp only [execReclaim] at he
    obtain ⟨l, ⟨q', -, rfl, rfl⟩ | ⟨e, -, hd⟩⟩ := coordStep_cases he
    · exact Or.inl ⟨rfl, Or.inl ⟨_, rfl⟩⟩
    · exact Or.inr ⟨l, hd⟩
  | zero b =>
    cases he
    obtain ⟨pt', hpt⟩ := hloop b
    exact Or.inl ⟨rfl, Or.inl ⟨pt', by rw [hpt]⟩⟩
  | free b n =>
    cases he
    obtain ⟨pt', hpt⟩ := hloop n
    exact Or.inl ⟨rfl, Or.inl ⟨pt', by rw [hpt]⟩⟩
  | poolPush b n q =>
    simp only [execReclaim] at he
    split at he
    all_goals cases he
    · exact Or.inl ⟨rfl, Or.inl ⟨_, rfl⟩⟩
    · obtain ⟨pt', hpt⟩ := hloop n
      exact Or.inl ⟨rfl, Or.inl ⟨pt', by rw [hpt]⟩⟩
    · exact Or.inl ⟨rfl, Or.inl ⟨_, rfl⟩⟩
  | resetSlot b n i =>
    cases he
    split_ifs
    · exact Or.inl ⟨rfl, Or.inl ⟨_, rfl⟩⟩
    · exact Or.inl ⟨rfl, Or.inl ⟨_, rfl⟩⟩
  | _ =>
    simp only [execReclaim] at he
    repeat' split at he
    all_goals cases he
    all_goals exact Or.inl ⟨rfl, Or.inl ⟨_, rfl⟩⟩

theorem execReclaim_continues {r : Ret α} {pt : ReclaimPoint ι}
    (hd : ∀ pt, During op (.reclaim r pt : Pc ι α)) (hr : Answers op r)
    (he : execReclaim ids adaptive t ch s r pt = some (s', o)) : Continues op o := by
  obtain ⟨-, ⟨pt', rfl⟩ | ⟨rfl, -⟩⟩ | ⟨l, hl⟩ := execReclaim_cases he
  · exact Or.inl ⟨_, rfl, hd pt'⟩
  · exact Or.inr (Or.inr rfl)
  · have := finish_continues hr { s with coordLock := l }
    rwa [← hl] at this

/-- **A call stays in its own code until it returns.** -/
theorem exec_continues (hp : During op p) (he : exec ids adaptive t ch s p = some (s', o)) :
    Continues op o := by
  cases op with
  | push v =>
    cases p with
    | pushPin w q =>
      simp only [exec] at he
      refine coordStep_continues he (fun q ↦ hp) fun s' e ↦ ?_
      cases e with
      | pinned lane => exact Or.inl ⟨_, rfl, hp⟩
      | _ => exact Or.inr (Or.inr rfl)
    | pushTail w lane =>
      cases he
      exact Or.inl ⟨_, rfl, hp⟩
    | pushBlock w lane tail =>
      cases he
      unfold pushLoop
      split_ifs
      · exact Or.inl ⟨_, rfl, hp⟩
      · exact Or.inl ⟨_, rfl, hp⟩
    | push f pt =>
      simp only [exec] at he
      cases pt with
      | publish =>
        cases he
        exact Or.inl ⟨_, rfl, trivial⟩
      | _ =>
        simp only [execPush] at he
        repeat' split at he
        all_goals cases he
        all_goals exact Or.inl ⟨_, rfl, hp⟩
    | pushUnpin q =>
      simp only [exec] at he
      exact coordStep_continues he (fun q ↦ trivial) fun s' e ↦ Or.inr (Or.inl ⟨_, rfl, rfl⟩)
    | _ => exact absurd hp id
  | pop =>
    cases p with
    | popPin q =>
      simp only [exec] at he
      refine coordStep_continues he (fun q ↦ trivial) fun s' e ↦ ?_
      cases e with
      | pinned lane => exact Or.inl ⟨_, rfl, trivial⟩
      | _ => exact Or.inr (Or.inr rfl)
    | popHead lane =>
      cases he
      exact Or.inl ⟨_, rfl, trivial⟩
    | popBlock lane head =>
      cases he
      unfold popLoop
      split_ifs
      all_goals exact Or.inl ⟨_, rfl, trivial⟩
    | pop f pt =>
      simp only [exec] at he
      cases pt with
      | count v =>
        cases he
        split_ifs
        all_goals exact Or.inl ⟨_, rfl, trivial⟩
      | _ =>
        simp only [execPop] at he
        repeat' split at he
        all_goals cases he
        all_goals exact Or.inl ⟨_, rfl, trivial⟩
    | popUnpin res b q =>
      simp only [exec] at he
      refine coordStep_continues he (fun q ↦ trivial) fun s' e ↦ ?_
      split_ifs
      · exact Or.inl ⟨_, rfl, trivial⟩
      · exact finish_continues (show Answers (.pop : Op α) (.popped res) from ⟨res, rfl⟩) _
    | reclaim r pt =>
      cases r with
      | popped res =>
        have hr : Answers (.pop : Op α) (.popped res) := ⟨res, rfl⟩
        refine execReclaim_continues ?_ hr he
        intro pt
        trivial
      | _ => exact absurd hp id
    | _ => exact absurd hp id
  | tryReclaim =>
    cases p with
    | reclaim r pt =>
      cases r with
      | unit =>
        have hr : Answers (.tryReclaim : Op α) .unit := rfl
        refine execReclaim_continues ?_ hr he
        intro pt
        trivial
      | _ => exact absurd hp id
    | _ => exact absurd hp id
  | len =>
    cases p with
    | lenHead =>
      cases he
      exact Or.inl ⟨_, rfl, trivial⟩
    | lenTail head =>
      cases he
      exact Or.inr (Or.inl ⟨_, rfl, _, rfl⟩)
    | _ => exact absurd hp id
  | evict =>
    cases p <;> exact absurd hp id

end During

/-! ### The record of the pops

What a step puts on record is what the call returns. -/

/-- The slot that a pop holds. -/
def claimed (p : Pc ι α) : Option ℕ := (popClaim p).map Prod.fst

/-- What a step other than a reservation does to the record of the pops: nothing, or the pop that
holds a slot returns, with what it took there. -/
inductive Records (s s' : Store ι α) (p : Pc ι α) (o : Outcome (Pc ι α) (Ret α)) : Prop where
  | keeps (hr : s'.returned = s.returned) (hq : o.pc.bind claimed = claimed p)
  | finishes (k : ℕ) (x : Option (ℕ × α)) (hp : claimed p = some k)
      (hr : s'.returned = s.returned ++ [(k, x)]) (ho : o = .ret (.popped (some (k, x))))
  | panics (hr : s'.returned = s.returned) (ho : o = .ret .panicked)

section Records

variable {t : ι} {ch : Choice ι} {s s' : Store ι α} {p : Pc ι α} {o : Outcome (Pc ι α) (Ret α)}

omit [DecidableEq ι] in
theorem finish_records {r : Ret α} {l : Coord.Store ι}
    (hp : claimed p = claimed (.reclaim r .count : Pc ι α))
    (h : (s', o) = finish { s with coordLock := l } r) : Records s s' p o := by
  unfold finish at h
  split at h
  · rename_i e
    cases h
    exact .finishes e.1 e.2 hp rfl rfl
  · rename_i hne
    cases h
    refine .keeps rfl ?_
    rw [hp]
    cases r with
    | popped res =>
      cases res with
      | none => rfl
      | some e => exact absurd rfl (hne e)
    | _ => rfl

omit [DecidableEq ι] in
theorem claimed_reclaim (r : Ret α) (pt pt' : ReclaimPoint ι) :
    claimed (.reclaim r pt : Pc ι α) = claimed (.reclaim r pt' : Pc ι α) := by
  cases r with
  | popped res => cases res <;> rfl
  | _ => rfl

theorem execReclaim_records {r : Ret α} {pt : ReclaimPoint ι}
    (he : execReclaim ids adaptive t ch s r pt = some (s', o)) :
    Records s s' (.reclaim r pt) o := by
  obtain ⟨hr, ⟨pt', rfl⟩ | ⟨rfl, -⟩⟩ | ⟨l, hl⟩ := execReclaim_cases he
  · exact .keeps hr (claimed_reclaim r pt' pt)
  · exact .panics hr rfl
  · exact finish_records (claimed_reclaim r pt .count) hl

/-- **What a step does to the record of the pops.** -/
theorem exec_records (hcas : ∀ f n, p ≠ .pop f (.cas n))
    (he : exec ids adaptive t ch s p = some (s', o)) : Records s s' p o := by
  cases p with
  | pushPin v q | popPin q =>
    simp only [exec] at he
    obtain ⟨l, ⟨q', -, rfl, rfl⟩ | ⟨e, -, hd⟩⟩ := coordStep_cases he
    · exact .keeps rfl rfl
    · cases e with
      | pinned lane =>
        cases hd
        exact .keeps rfl rfl
      | _ =>
        cases hd
        exact .panics rfl rfl
  | pushUnpin q =>
    simp only [exec] at he
    obtain ⟨l, ⟨q', -, rfl, rfl⟩ | ⟨e, -, hd⟩⟩ := coordStep_cases he
    · exact .keeps rfl rfl
    · cases hd
      exact .keeps rfl rfl
  | popUnpin res b q =>
    have hclaim : claimed (.popUnpin res b q : Pc ι α) =
        claimed (.reclaim (.popped res) .count : Pc ι α) := by cases res <;> rfl
    simp only [exec] at he
    obtain ⟨l, ⟨q', -, rfl, rfl⟩ | ⟨e, -, hd⟩⟩ := coordStep_cases he
    · refine .keeps rfl ?_
      cases res <;> rfl
    · split_ifs at hd
      · cases hd
        exact .keeps rfl hclaim.symm
      · exact finish_records hclaim hd
  | push f pt =>
    simp only [exec] at he
    cases pt
    all_goals
      simp only [execPush] at he
      repeat' split at he
    all_goals cases he
    all_goals exact .keeps rfl rfl
  | pop f pt =>
    simp only [exec] at he
    cases pt with
    | cas n => exact absurd rfl (hcas f n)
    | count v =>
      cases he
      split_ifs
      · exact .keeps rfl rfl
      · exact .keeps rfl rfl
    | _ =>
      simp only [execPop] at he
      repeat' split at he
      all_goals cases he
      all_goals exact .keeps rfl rfl
  | reclaim r pt => exact execReclaim_records he
  | pushTail v lane | lenHead | lenTail | popHead =>
    cases he
    exact .keeps rfl rfl
  | pushBlock v lane tail =>
    cases he
    refine .keeps rfl ?_
    unfold pushLoop
    split_ifs <;> rfl
  | popBlock lane head =>
    cases he
    refine .keeps rfl ?_
    unfold popLoop
    split_ifs <;> rfl

end Records

/-! ### A call that is alone

With nobody else inside, the words that a call has loaded are the current ones. -/

/-- The accesses of `shared` while nobody holds the queue exclusively. -/
def Prompt : Coord.Pc ι → Prop
  | .register _ | .add _ | .check _ => True
  | _ => False

/-- What a call knows while it is the only one. -/
def Sole (s : Store ι α) : Pc ι α → Prop
  | .pushPin _ q => Prompt q
  | .popPin q => Prompt q
  | .popBlock _ head => head = s.head.index
  | .pop f .tail => f.head = s.head.index
  | .pop f (.cas _) => f.head = s.head.index
  | .popUnpin none _ _ => s.pops = s.pushes.length
  | .reclaim (.popped none) _ => s.pops = s.pushes.length
  | .lenTail head => head = s.head.index / 2
  | _ => True

/-- **The queue between and during calls that do not overlap**: the pops have returned the slots in
order, and the running pop, if it holds a slot, holds the next one. -/
structure Serial (c : Config ι (Store ι α) (Pc ι α)) : Prop where
  lone : ∀ t u, (c.pcs t).isSome → (c.pcs u).isSome → t = u
  sole : ∀ t p, c.pcs t = some p → Sole c.shared p
  inOrder : c.shared.returned.map Prod.fst = List.range c.shared.returned.length
  idle : (∀ t, (c.pcs t).bind claimed = none) → c.shared.pops = c.shared.returned.length
  claims : ∀ t k, (c.pcs t).bind claimed = some k →
    k = c.shared.returned.length ∧ c.shared.pops = k + 1

section Alone

variable {c : Config ι (Store ι α) (Pc ι α)} {t : ι} {ch : Choice ι} {s' : Store ι α} {p : Pc ι α}
  {o : Outcome (Pc ι α) (Ret α)} {first : ℕ}

omit [DecidableEq ι] in
theorem prompt_sharedPc (last : Option ℕ) : Prompt (Coord.sharedPc last : Coord.Pc ι) := by
  cases last <;> trivial

/-- `shared` goes on without waiting, and does not panic. -/
theorem exec_prompt {s l : Coord.Store ι} {q : Coord.Pc ι} {o : Outcome (Coord.Pc ι) Coord.Ret}
    (hq : Prompt q) (hw : s.writing = false) (he : Coord.exec ids adaptive t ch s q = some (l, o)) :
    (∃ q', o = .goto q' ∧ Prompt q') ∨ ∃ lane, o = .ret (.pinned lane) := by
  cases q with
  | register off =>
    simp only [Coord.exec] at he
    repeat' split at he
    all_goals cases he
    all_goals exact Or.inl ⟨_, rfl, trivial⟩
  | add lane =>
    cases he
    exact Or.inl ⟨_, rfl, trivial⟩
  | check lane =>
    simp only [Coord.exec, hw] at he
    cases he
    exact Or.inr ⟨lane, rfl⟩
  | _ => exact absurd hq id

/-- Nobody holds the queue exclusively while the only call is at its pin. -/
theorem writing_of_sole (h : Coordinated ids adaptive c) (hpc : c.pcs t = some p)
    (hother : ∀ u, u ≠ t → c.pcs u = none) (hin : inside p = false)
    (hq : ∀ q, coordPc p = some q → ¬ Coord.Raising q) : c.shared.coordLock.writing = false := by
  by_contra hw
  obtain ⟨a, u, hau⟩ | ⟨u, q, hu, hr⟩ := Coord.reach_raised h.run (by simpa using hw)
  · have hpos : 0 < c.shared.coordLock.exclusives a u := hau
    have hx := h.exclusives a u
    have hno : insideAt (c.pcs u) = false := by
      by_cases hut : u = t
      · rw [hut, hpc]
        exact hin
      · rw [hother u hut]
        rfl
    rw [hno] at hx
    simp only [Bool.false_eq_true, and_false, if_false] at hx
    omega
  · by_cases hut : u = t
    · subst hut
      rw [Config.view_pcs, hpc] at hu
      exact hq q hu hr
    · rw [Config.view_pcs, hother u hut] at hu
      cases hu

/-- A pop moves `head` on only after `tail` has left the block. -/
theorem crossed_of_sole (hE : Ends c) (hother : ∀ u, u ≠ t → c.pcs u = none) :
    Crossed c (.exec t ch) := by
  unfold Crossed
  split
  · trivial
  · rename_i heq
    cases heq
    split
    · rename_i f n hpc
      have hoff : c.shared.tail.index / 2 % 32 ≠ 31 := by
        refine hE.linking.closed fun u ↦ ?_
        by_cases hut : u = t
        · rw [hut, hpc]
          rfl
        · rw [hother u hut]
          rfl
      simp only [blockCap]
      exact ⟨by omega, fun _ ↦ by omega⟩
    · trivial

theorem reach_crossed (h : Reach (atomicVec ids adaptive) OneAtATime (init first) c) :
    Reach (atomicVec ids adaptive) Crossed (init first) c := by
  induction h with
  | refl => exact .refl
  | tail hc hl hn ih =>
    refine ih.tail ?_ hn
    rename_i c c' l
    cases l with
    | call t op => trivial
    | exec t ch => exact crossed_of_sole (reach_ends hc) hl

omit [DecidableEq ι] in
/-- What a call does not know cannot be lost. -/
theorem sole_reclaim {s : Store ι α} {r : Ret α} (h : r = .popped none → s.pops = s.pushes.length)
    (pt : ReclaimPoint ι) : Sole s (.reclaim r pt) := by
  cases r with
  | popped res =>
    cases res with
    | none => exact h rfl
    | some e => trivial
  | _ => trivial

/-- Reclaiming moves no end. -/
theorem execReclaim_sole {s : Store ι α} {r : Ret α} {pt : ReclaimPoint ι}
    (h : Sole s (.reclaim r pt)) (he : execReclaim ids adaptive t ch s r pt = some (s', o)) :
    ∀ q, o.pc = some q → Sole s' q := by
  have hs := execReclaim_stays he
  have hnone : r = .popped none → s'.pops = s'.pushes.length := by
    rintro rfl
    rw [hs.pops, hs.pushes]
    exact h
  obtain ⟨-, ⟨pt', rfl⟩ | ⟨rfl, -⟩⟩ | ⟨l, hl⟩ := execReclaim_cases he
  · rintro _ ⟨⟩
    exact sole_reclaim hnone pt'
  · rintro _ ⟨⟩
  · intro q hq
    rw [show o = (finish { s with coordLock := l } r).2 from congrArg Prod.snd hl, finish_pc] at hq
    cases hq

/-- **A step keeps what the call knows**, as long as the call is alone. -/
theorem exec_sole (hC : Coordinated ids adaptive c) (hE : Ends c) (h : Sole c.shared p)
    (hpc : c.pcs t = some p) (hother : ∀ u, u ≠ t → c.pcs u = none)
    (he : exec ids adaptive t ch c.shared p = some (s', o)) : ∀ q, o.pc = some q → Sole s' q := by
  cases p with
  | pushPin v q | popPin q =>
    have hw := writing_of_sole hC hpc hother rfl fun q' hq' hr ↦ by
      cases hq'
      cases q <;> first | exact hr | exact h
    simp only [exec] at he
    obtain ⟨l, ⟨q', hq', rfl, rfl⟩ | ⟨e, hq', hd⟩⟩ := coordStep_cases he
    · obtain ⟨_, ⟨⟩, hp⟩ | ⟨_, ⟨⟩⟩ := exec_prompt h hw hq'
      rintro _ ⟨⟩
      exact hp
    · obtain ⟨_, ⟨⟩, -⟩ | ⟨lane, ⟨⟩⟩ := exec_prompt h hw hq'
      cases hd
      rintro _ ⟨⟩
      trivial
  | popHead lane =>
    cases he
    rintro _ ⟨⟩
    rfl
  | popBlock lane head =>
    obtain rfl : head = c.shared.head.index := h
    cases he
    unfold popLoop
    split_ifs
    · rintro _ ⟨⟩
      trivial
    · rintro _ ⟨⟩
      rfl
    · rintro _ ⟨⟩
      rfl
  | pop f pt =>
    cases pt with
    | tail =>
      have hf : f.head = c.shared.head.index := h
      simp only [exec, execPop] at he
      split_ifs at he with heq
      · -- the ends meet: nothing is left
        cases he
        rintro _ ⟨⟩
        show c.shared.pops = c.shared.pushes.length
        rw [← hE.head_number, ← hE.tail_number, ← heq, hf]
      · cases he
        rintro _ ⟨⟩
        exact hf
      · cases he
        rintro _ ⟨⟩
        exact hf
    | cas n =>
      simp only [exec, execPop] at he
      split at he
      · cases he
        rintro _ ⟨⟩
        split_ifs <;> trivial
      · rename_i e hcas
        cases he
        rintro _ ⟨⟩
        exact casWeak_eq_error hcas
    | count v =>
      cases he
      rintro _ ⟨⟩
      split_ifs <;> trivial
    | _ =>
      simp only [exec, execPop] at he
      repeat' split at he
      all_goals cases he
      all_goals rintro _ ⟨⟩
      all_goals trivial
  | popUnpin res b q =>
    simp only [exec] at he
    obtain ⟨l, ⟨q', -, rfl, rfl⟩ | ⟨e, -, hd⟩⟩ := coordStep_cases he
    · rintro _ ⟨⟩
      cases res with
      | none => exact h
      | some e => trivial
    · split_ifs at hd
      · cases hd
        rintro _ ⟨⟩
        refine sole_reclaim (fun hr ↦ ?_) _
        cases hr
        exact h
      · rw [show o = (finish { c.shared with coordLock := l } (.popped res)).2 from
          congrArg Prod.snd hd]
        intro q hq
        rw [finish_pc] at hq
        cases hq
  | reclaim r pt => exact execReclaim_sole h he
  | lenHead =>
    cases he
    rintro _ ⟨⟩
    rfl
  | lenTail head =>
    cases he
    rintro _ ⟨⟩
  | pushTail v lane =>
    cases he
    rintro _ ⟨⟩
    trivial
  | pushBlock v lane tail =>
    cases he
    unfold pushLoop
    split_ifs
    all_goals
      rintro _ ⟨⟩
      trivial
  | push f pt =>
    simp only [exec] at he
    cases pt
    all_goals
      simp only [execPush] at he
      repeat' split at he
    all_goals cases he
    all_goals rintro _ ⟨⟩
    all_goals trivial
  | pushUnpin q =>
    simp only [exec] at he
    obtain ⟨l, ⟨q', -, rfl, rfl⟩ | ⟨e, -, hd⟩⟩ := coordStep_cases he
    · rintro _ ⟨⟩
      trivial
    · cases hd
      rintro _ ⟨⟩

/-- **No call panics.** -/
theorem exec_not_panicked [Fintype ι] {op : Op α} (hC : Coordinated ids adaptive c)
    (hd : During op p) (h : Sole c.shared p) (hpc : c.pcs t = some p)
    (hother : ∀ u, u ≠ t → c.pcs u = none) (he : exec ids adaptive t ch c.shared p = some (s', o)) :
    o ≠ .ret .panicked := by
  have hfin : ∀ {s : Store ι α} {r : Ret α}, r ≠ .panicked → (s', o) = finish s r →
      o ≠ .ret .panicked := by
    rintro s r hr hs rfl
    unfold finish at hs
    split at hs
    · cases hs
    · cases hs
      exact hr rfl
  cases p with
  | pushPin v q | popPin q =>
    have hw := writing_of_sole hC hpc hother rfl fun q' hq' hr ↦ by
      cases hq'
      cases q <;> first | exact hr | exact h
    simp only [exec] at he
    obtain ⟨l, ⟨q', hq', rfl, rfl⟩ | ⟨e, hq', hd⟩⟩ := coordStep_cases he
    · rintro ⟨⟩
    · obtain ⟨_, ⟨⟩, -⟩ | ⟨lane, ⟨⟩⟩ := exec_prompt h hw hq'
      cases hd
      rintro ⟨⟩
  | reclaim r pt =>
    have hr : r ≠ .panicked := by
      rintro rfl
      cases op <;> exact hd
    obtain ⟨-, ⟨pt', rfl⟩ | ⟨-, q, l, e, rfl, hq, hx, hb⟩⟩ | ⟨l, hl⟩ := execReclaim_cases he
    · rintro ⟨⟩
    · rcases hC.enter_not_panicked hpc hq with rfl | rfl
      · exact absurd rfl hx
      · exact absurd rfl hb
    · exact hfin hr hl
  | popUnpin res b q =>
    simp only [exec] at he
    obtain ⟨l, ⟨q', -, rfl, rfl⟩ | ⟨e, -, hd⟩⟩ := coordStep_cases he
    · rintro ⟨⟩
    · split_ifs at hd
      · cases hd
        rintro ⟨⟩
      · exact hfin (by simp) hd
  | pushUnpin q =>
    simp only [exec] at he
    obtain ⟨l, ⟨q', -, rfl, rfl⟩ | ⟨e, -, hd⟩⟩ := coordStep_cases he
    · rintro ⟨⟩
    · cases hd
      rintro ⟨⟩
  | push f pt =>
    simp only [exec] at he
    cases pt
    all_goals
      simp only [execPush] at he
      repeat' split at he
    all_goals cases he
    all_goals rintro ⟨⟩
  | pop f pt =>
    simp only [exec] at he
    cases pt
    all_goals
      simp only [execPop] at he
      repeat' split at he
    all_goals cases he
    all_goals rintro ⟨⟩
  | _ =>
    cases he
    rintro ⟨⟩

/-- The reservation of a pop. -/
theorem exec_pop_cas {f : PopFrame} {n : ℕ} {s : Store ι α}
    (he : exec ids adaptive t ch s (.pop f (.cas n)) = some (s', o)) :
    (∃ lane e, s' = s ∧ o = .goto (.popBlock lane e)) ∨
      (s.head.index = f.head ∧ s'.pushes = s.pushes ∧ s'.pops = s.pops + 1 ∧
        s'.returned = s.returned ∧ ∃ q, o = .goto q ∧ claimed q = some f.slot ∧
          reserved q = false) := by
  simp only [exec, execPop] at he
  split at he
  · rename_i w hcas
    cases he
    refine Or.inr ⟨(casWeak_eq_ok hcas).1, rfl, rfl, rfl, _, rfl, ?_⟩
    split_ifs
    · exact ⟨rfl, rfl⟩
    · exact ⟨rfl, rfl⟩
  · cases he
    exact Or.inl ⟨_, _, rfl, rfl⟩

/-- Only the reservations of the pops are counted as pops. -/
theorem exec_pops (hE : Ends c) (hpc : c.pcs t = some p) (hcas : ∀ f n, p ≠ .pop f (.cas n))
    (he : exec ids adaptive t ch c.shared p = some (s', o)) : s'.pops = c.shared.pops := by
  by_cases hturn : ∃ f n, p = .pop f (.headIndex n)
  · obtain ⟨f, n, rfl⟩ := hturn
    cases he
    rfl
  · by_cases hpush : ∃ f, p = .push f .cas ∨ p = .push f .linkIndex
    · obtain ⟨f, rfl | rfl⟩ := hpush
      · simp only [exec, execPush] at he
        split at he
        all_goals
          cases he
          rfl
      · cases he
        rfl
    · exact (exec_stays hE hpc
        (fun f ↦ ⟨fun hp ↦ hpush ⟨f, Or.inl hp⟩, fun hp ↦ hpush ⟨f, Or.inr hp⟩⟩)
        (fun f n ↦ ⟨hcas f n, fun hp ↦ hturn ⟨f, n, hp⟩⟩) he).pops

/-- Only the reservations of the pushes are entered as pushes. -/
theorem exec_pushes (hE : Ends c) (hpc : c.pcs t = some p) (hcas : ∀ f, p ≠ .push f .cas)
    (he : exec ids adaptive t ch c.shared p = some (s', o)) : s'.pushes = c.shared.pushes := by
  by_cases hturn : ∃ f n, p = .pop f (.cas n) ∨ p = .pop f (.headIndex n)
  · obtain ⟨f, n, rfl | rfl⟩ := hturn
    · simp only [exec, execPop] at he
      split at he
      all_goals
        cases he
        rfl
    · cases he
      rfl
  · by_cases hpush : ∃ f, p = .push f .linkIndex
    · obtain ⟨f, rfl⟩ := hpush
      cases he
      rfl
    · exact (exec_stays hE hpc (fun f ↦ ⟨hcas f, fun hp ↦ hpush ⟨f, hp⟩⟩)
        (fun f n ↦ ⟨fun hp ↦ hturn ⟨f, n, Or.inl hp⟩, fun hp ↦ hturn ⟨f, n, Or.inr hp⟩⟩) he).pushes

/-- A step of one thread, with nobody else inside, keeps the record of the pops in order. -/
theorem exec_serial [Fintype ι] {op : Op α} (h : Serial c) (hC : Coordinated ids adaptive c)
    (hE : Ends c) (hd : During op p) (hpc : c.pcs t = some p) (hother : ∀ u, u ≠ t → c.pcs u = none)
    (he : exec ids adaptive t ch c.shared p = some (s', o)) : Serial (c.put t (s', o)) := by
  have hsole := h.sole t p hpc
  have hclaim : (c.pcs t).bind claimed = claimed p := by rw [hpc]; rfl
  have hnone : claimed p = none → c.shared.pops = c.shared.returned.length := fun hp ↦ by
    refine h.idle fun u ↦ ?_
    by_cases hu : u = t
    · rw [hu, hclaim, hp]
    · rw [hother u hu]
      rfl
  have hput : ∀ u, u ≠ t → (c.put t (s', o)).pcs u = none := fun u hu ↦ by
    rw [Config.put_pcs_of_ne _ _ hu]
    exact hother u hu
  -- only the claim of the moving thread counts
  have hmake : s'.returned.map Prod.fst = List.range s'.returned.length →
      (o.pc.bind claimed = none → s'.pops = s'.returned.length) →
      (∀ k, o.pc.bind claimed = some k → k = s'.returned.length ∧ s'.pops = k + 1) →
      Serial (c.put t (s', o)) := by
    intro hr hi hk
    refine ⟨fun u w hu hw ↦ ?_, ?_, hr, fun hall ↦ ?_, fun u k hu ↦ ?_⟩
    · have hself : ∀ {v}, ((c.put t (s', o)).pcs v).isSome → v = t := by
        intro v hv
        by_contra hne
        rw [hput v hne] at hv
        cases hv
      rw [hself hu, hself hw]
    · refine Config.forall_put (L := fun _ s q ↦ Sole s q)
        (exec_sole hC hE hsole hpc hother he) fun u q hu hq ↦ ?_
      rw [hother u hu] at hq
      cases hq
    · refine hi ?_
      have := hall t
      rwa [Config.put_pcs_self] at this
    · by_cases hut : u = t
      · subst hut
        rw [Config.put_pcs_self] at hu
        exact hk k hu
      · rw [hput u hut] at hu
        cases hu
  by_cases hcas : ∃ f n, p = .pop f (.cas n)
  · obtain ⟨f, n, rfl⟩ := hcas
    have hf : f.head = c.shared.head.index := hsole
    obtain ⟨lane, e, rfl, rfl⟩ | ⟨-, -, hpo, hr, q, rfl, hq, -⟩ := exec_pop_cas he
    · exact hmake h.inOrder (fun _ ↦ hnone rfl) fun k hk ↦ by cases hk
    · refine hmake (by rw [hr]; exact h.inOrder) (fun hq' ↦ ?_) fun k hk ↦ ?_
      · exact absurd (hq.symm.trans hq') (by simp)
      · have hslot : f.slot = c.shared.pops := by
          rw [PopFrame.slot, hf]
          exact hE.head_number
        obtain rfl : f.slot = k := Option.some.inj (hq.symm.trans hk)
        rw [hr, hpo, hslot]
        exact ⟨hnone rfl, rfl⟩
  · have hcas' : ∀ f n, p ≠ .pop f (.cas n) := fun f n hp ↦ hcas ⟨f, n, hp⟩
    have hpops : s'.pops = c.shared.pops := exec_pops hE hpc hcas' he
    cases exec_records hcas' he with
    | keeps hr hq =>
      refine hmake (by rw [hr]; exact h.inOrder) (fun hn ↦ ?_) fun k hk ↦ ?_
      · rw [hr, hpops]
        exact hnone (hq.symm.trans hn)
      · rw [hr, hpops]
        exact h.claims t k (hclaim.trans (hq.symm.trans hk))
    | finishes k x hp hr ho =>
      obtain ⟨hk, hpo⟩ := h.claims t k (hclaim.trans hp)
      refine hmake ?_ (fun _ ↦ ?_) fun k' hk' ↦ ?_
      · rw [hr, List.map_append, h.inOrder, List.length_append, List.length_singleton,
          List.range_succ, hk]
        rfl
      · rw [hr, hpops, hpo, List.length_append, List.length_singleton, hk]
      · rw [ho] at hk'
        cases hk'
    | panics hr ho => exact absurd ho (exec_not_panicked hC hd hsole hpc hother he)

/-- Every running call is in the code of one of the calls. -/
theorem reach_during {ok : Config ι (Store ι α) (Pc ι α) → Label ι (Op α) → Prop}
    (h : Reach (atomicVec ids adaptive) ok (init first) c) :
    ∀ t p, c.pcs t = some p → ∃ op, During op p := by
  refine h.invariant (I := fun c ↦ ∀ t p, c.pcs t = some p → ∃ op, During op p)
    (by simp [init]) ?_ ?_
  · rintro c t op ⟨s', o⟩ - hc - - he
    refine Config.forall_put (L := fun _ _ q ↦ ∃ op, During op q) ?_ fun u q _ hq ↦ hc u q hq
    cases op with
    | push v =>
      cases he
      rintro _ ⟨⟩
      exact ⟨.push v, rfl⟩
    | pop =>
      cases he
      rintro _ ⟨⟩
      exact ⟨.pop, trivial⟩
    | tryReclaim =>
      cases he
      rintro _ ⟨⟩
      exact ⟨.tryReclaim, trivial⟩
    | len =>
      cases he
      rintro _ ⟨⟩
      exact ⟨.len, trivial⟩
    | evict =>
      cases he
      rintro _ ⟨⟩
  · rintro c t ch p ⟨s', o⟩ - hc - hpc he
    refine Config.forall_put (L := fun _ _ q ↦ ∃ op, During op q) ?_ fun u q _ hq ↦ hc u q hq
    obtain ⟨op, hd⟩ := hc t p hpc
    rintro q hq
    obtain ⟨q', rfl, hq'⟩ | ⟨r, rfl, -⟩ | rfl := exec_continues hd he
    · cases hq
      exact ⟨op, hq'⟩
    · cases hq
    · cases hq

/-- A thread outside that turns to another structure disturbs nobody. -/
theorem Serial.evict (h : Serial c) (hpc : c.pcs t = none) (l : Coord.Store ι) :
    Serial
      (c.put t ({ c.shared with coordLock := l }, (.ret .unit : Outcome (Pc ι α) (Ret α)))) := by
  have hpcs : ∀ u, (c.put t ({ c.shared with coordLock := l },
      (.ret .unit : Outcome (Pc ι α) (Ret α)))).pcs u = c.pcs u := by
    intro u
    by_cases hu : u = t
    · rw [hu, Config.put_pcs_self, hpc]
      rfl
    · rw [Config.put_pcs_of_ne _ _ hu]
  refine ⟨fun u w hu hw ↦ ?_, fun u p hp ↦ ?_, h.inOrder, fun hall ↦ ?_, fun u k hk ↦ ?_⟩
  · rw [hpcs] at hu hw
    exact h.lone u w hu hw
  · rw [hpcs] at hp
    have := h.sole u p hp
    cases p with
    | pop f pt => cases pt <;> exact this
    | popUnpin res b q => cases res <;> exact this
    | reclaim r pt =>
      cases r with
      | popped res => cases res <;> exact this
      | _ => trivial
    | _ => exact this
  · refine h.idle fun u ↦ ?_
    have := hall u
    rwa [hpcs] at this
  · rw [hpcs] at hk
    exact h.claims u k hk

/-- **Calls that do not overlap keep the queue serial.** -/
theorem reach_serial [Fintype ι] (h : Reach (atomicVec ids adaptive) OneAtATime (init first) c) :
    Serial c := by
  refine h.invariant (I := Serial) ?_ ?_ ?_
  · exact ⟨by simp [init], by simp [init], rfl, fun _ ↦ rfl, by simp [init]⟩
  · rintro c t op ⟨s', o⟩ hc hS hok hpc he
    by_cases hev : op = .evict
    · subst hev
      cases he
      exact hS.evict hpc _
    · have hother : ∀ u, u ≠ t → c.pcs u = none := by
        cases op with
        | evict => exact absurd rfl hev
        | _ => exact hok
      have hidle : c.shared.pops = c.shared.returned.length := by
        refine hS.idle fun u ↦ ?_
        by_cases hu : u = t
        · rw [hu, hpc]
          rfl
        · rw [hother u hu]
          rfl
      have hput : ∀ u, u ≠ t → (c.put t (s', o)).pcs u = none := fun u hu ↦ by
        rw [Config.put_pcs_of_ne _ _ hu]
        exact hother u hu
      obtain ⟨q, rfl, rfl, hsole, hcl⟩ : ∃ q, o = .goto q ∧ s' = c.shared ∧ Sole c.shared q ∧
          claimed q = none := by
        cases op with
        | push v =>
          cases he
          exact ⟨_, rfl, rfl, prompt_sharedPc _, rfl⟩
        | pop =>
          cases he
          exact ⟨_, rfl, rfl, prompt_sharedPc _, rfl⟩
        | tryReclaim =>
          cases he
          exact ⟨_, rfl, rfl, trivial, rfl⟩
        | len =>
          cases he
          exact ⟨_, rfl, rfl, trivial, rfl⟩
        | evict => exact absurd rfl hev
      refine ⟨fun u w hu hw ↦ ?_, ?_, hS.inOrder, fun _ ↦ hidle, fun u k hk ↦ ?_⟩
      · have hself : ∀ {v},
          ((c.put t (c.shared, (.goto q : Outcome (Pc ι α) (Ret α)))).pcs v).isSome →
            v = t := by
          intro v hv
          by_contra hne
          rw [hput v hne] at hv
          cases hv
        rw [hself hu, hself hw]
      · refine Config.forall_put (L := fun _ s q ↦ Sole s q) ?_ fun u q hu hq ↦ ?_
        · rintro _ ⟨⟩
          exact hsole
        · rw [hother u hu] at hq
          cases hq
      · by_cases hut : u = t
        · rw [hut, Config.put_pcs_self] at hk
          exact absurd (hcl.symm.trans hk) (by simp)
        · rw [hput u hut] at hk
          cases hk
  · rintro c t ch p ⟨s', o⟩ hc hS hok hpc he
    obtain ⟨op, hd⟩ := reach_during hc t p hpc
    exact exec_serial hS (reach_coordinated hc) (reach_ends hc) hd hpc hok he

end Alone

/-! ### What a call does

The effect of each call on the content, from its start to its return. -/

/-- **What a step of a call does to the queue**, when calls do not overlap: a push appends its value
when it reserves its slot, a pop takes the oldest one when it reserves its slot, and what is
returned is what the queue held. -/
inductive Effect (s s' : Store ι α) (p : Pc ι α) : Op α → Outcome (Pc ι α) (Ret α) → Prop where
  | inside {op : Op α} {q : Pc ι α} (hpu : s'.pushes = s.pushes) (hpo : s'.pops = s.pops)
      (hr : reserved q = reserved p) (hc : claimed q = claimed p) : Effect s s' p op (.goto q)
  | reserve {v : α} {q : Pc ι α} (hpu : s'.pushes = s.pushes ++ [v]) (hpo : s'.pops = s.pops)
      (hp : reserved p = false) (hq : reserved q = true) : Effect s s' p (.push v) (.goto q)
  | claim {k : ℕ} {q : Pc ι α} (hpu : s'.pushes = s.pushes) (hpo : s'.pops = s.pops + 1)
      (hp : claimed p = none) (hq : claimed q = some k) : Effect s s' p .pop (.goto q)
  | pushed {v : α} (hpu : s'.pushes = s.pushes) (hpo : s'.pops = s.pops) (hp : reserved p = true) :
      Effect s s' p (.push v) (.ret .unit)
  | empty (hpu : s'.pushes = s.pushes) (hpo : s'.pops = s.pops) (hp : claimed p = none)
      (h : s'.pops = s'.pushes.length) : Effect s s' p .pop (.ret (.popped none))
  | popped {k : ℕ} {v : α} (hpu : s'.pushes = s.pushes) (hpo : s'.pops = s.pops)
      (hp : claimed p = some k) (hk : s'.pops = k + 1) (hv : s'.pushes[k]? = some v) :
      Effect s s' p .pop (.ret (.popped (some (k, some (k, v)))))
  | measured (hpu : s'.pushes = s.pushes) (hpo : s'.pops = s.pops) :
      Effect s s' p .len (.ret (.len (s.pushes.length - s.pops)))
  | reclaimed (hpu : s'.pushes = s.pushes) (hpo : s'.pops = s.pops) :
      Effect s s' p .tryReclaim (.ret .unit)

section Effect

variable {c : Config ι (Store ι α) (Pc ι α)} {t : ι} {ch : Choice ι} {s' : Store ι α} {p : Pc ι α}
  {o : Outcome (Pc ι α) (Ret α)} {first : ℕ} {op : Op α}

omit [DecidableEq ι] in
theorem reserved_eq_false (hd : During op p) (h : ∀ v, op ≠ .push v) : reserved p = false := by
  cases op with
  | push v => exact absurd rfl (h v)
  | _ =>
    cases p with
    | push | pushUnpin => exact absurd hd id
    | _ => rfl

omit [DecidableEq ι] in
theorem claimed_eq_none (hd : During op p) (h : op ≠ .pop) : claimed p = none := by
  cases op with
  | pop => exact absurd rfl h
  | _ =>
    cases p with
    | pop | popUnpin => exact absurd hd id
    | reclaim r pt =>
      cases r with
      | popped res => exact absurd hd id
      | _ => rfl
    | _ => rfl

/-- A push reserves its slot by its compare-exchange and in no other way. -/
theorem exec_reserved {s : Store ι α} {v : α} (hd : During (.push v) p)
    (hcas : ∀ f, p ≠ .push f .cas) (he : exec ids adaptive t ch s p = some (s', o)) :
    (∃ q, o = .goto q ∧ reserved q = reserved p) ∨ o = .ret .panicked ∨
      (o = .ret .unit ∧ reserved p = true) := by
  cases p with
  | pushPin w q =>
    simp only [exec] at he
    obtain ⟨l, ⟨q', -, rfl, rfl⟩ | ⟨e, -, hd⟩⟩ := coordStep_cases he
    · exact Or.inl ⟨_, rfl, rfl⟩
    · cases e with
      | pinned lane =>
        cases hd
        exact Or.inl ⟨_, rfl, rfl⟩
      | _ =>
        cases hd
        exact Or.inr (Or.inl rfl)
  | pushTail w lane =>
    cases he
    exact Or.inl ⟨_, rfl, rfl⟩
  | pushBlock w lane tail =>
    cases he
    refine Or.inl ⟨_, rfl, ?_⟩
    unfold pushLoop
    split_ifs <;> rfl
  | push f pt =>
    simp only [exec] at he
    cases pt with
    | cas => exact absurd rfl (hcas f)
    | _ =>
      simp only [execPush] at he
      repeat' split at he
      all_goals cases he
      all_goals exact Or.inl ⟨_, rfl, rfl⟩
  | pushUnpin q =>
    simp only [exec] at he
    obtain ⟨l, ⟨q', -, rfl, rfl⟩ | ⟨e, -, hd⟩⟩ := coordStep_cases he
    · exact Or.inl ⟨_, rfl, rfl⟩
    · cases hd
      exact Or.inr (Or.inr ⟨rfl, rfl⟩)
  | _ => exact absurd hd id

/-- A pop returns from the drop of its pin or from reclaiming. -/
theorem exec_ret_popped {s : Store ι α} {res : Result α}
    (he : exec ids adaptive t ch s p = some (s', .ret (.popped res))) :
    ∃ l, (s', (.ret (.popped res) : Outcome (Pc ι α) (Ret α))) =
        finish { s with coordLock := l } (.popped res) ∧
      ((∃ b q, p = .popUnpin res b q) ∨ ∃ pt, p = .reclaim (.popped res) pt) := by
  have hfin : ∀ {s : Store ι α} {r : Ret α},
      (s', (.ret (.popped res) : Outcome (Pc ι α) (Ret α))) = finish s r → r = .popped res := by
    intro s r hs
    unfold finish at hs
    split at hs
    all_goals
      cases hs
      rfl
  cases p with
  | pushPin v q | popPin q =>
    simp only [exec] at he
    obtain ⟨l, ⟨q', -, -, ⟨⟩⟩ | ⟨e, -, hd⟩⟩ := coordStep_cases he
    cases e <;> cases hd
  | pushUnpin q =>
    simp only [exec] at he
    obtain ⟨l, ⟨q', -, -, ⟨⟩⟩ | ⟨e, -, hd⟩⟩ := coordStep_cases he
    cases hd
  | popUnpin res' b q =>
    simp only [exec] at he
    obtain ⟨l, ⟨q', -, -, ⟨⟩⟩ | ⟨e, -, hd⟩⟩ := coordStep_cases he
    split_ifs at hd
    · cases hd
    · cases hfin hd
      exact ⟨l, hd, Or.inl ⟨b, q, rfl⟩⟩
  | reclaim r pt =>
    obtain ⟨-, ⟨pt', ⟨⟩⟩ | ⟨⟨⟩, -⟩⟩ | ⟨l, hl⟩ := execReclaim_cases he
    cases hfin hl
    exact ⟨l, hl, Or.inr ⟨pt, rfl⟩⟩
  | push f pt =>
    simp only [exec] at he
    cases pt
    all_goals
      simp only [execPush] at he
      repeat' split at he
    all_goals cases he
  | pop f pt =>
    simp only [exec] at he
    cases pt
    all_goals
      simp only [execPop] at he
      repeat' split at he
    all_goals cases he
  | _ => cases he

/-- `len` is exact. -/
theorem calcLen_eq (hE : Ends c) (hO : InOrder c.shared) (hother : ∀ u, u ≠ t → c.pcs u = none)
    (hpc : c.pcs t = some (.lenTail (c.shared.head.index / 2))) :
    calcLen (c.shared.head.index / 2) (c.shared.tail.index / 2) =
      c.shared.pushes.length - c.shared.pops := by
  have hnone : ∀ (f : Pc ι α → Option ℕ), f (.lenTail (c.shared.head.index / 2)) = none →
      ∀ u, (c.pcs u).bind f = none := by
    intro f hf u
    by_cases hu : u = t
    · rw [hu, hpc]
      exact hf
    · rw [hother u hu]
      rfl
  have hhead := hE.turning.closed (hnone _ rfl)
  have htail := hE.linking.closed (hnone _ rfl)
  have hle := hO.le
  rw [← hE.head_number, ← hE.tail_number, number_eq, number_eq]
  unfold calcLen blockCap
  split_ifs with h
  · have : c.shared.tail.index / 2 = c.shared.head.index / 2 := by omega
    rw [this]
    omega
  · omega

/-- **The specification of a step of a call.** -/
theorem exec_effect [Fintype ι] (hfirst : first ≠ 0)
    (h : Reach (atomicVec ids adaptive) OneAtATime (init first) c) (hpc : c.pcs t = some p)
    (hother : ∀ u, u ≠ t → c.pcs u = none) (hd : During op p)
    (he : exec ids adaptive t ch c.shared p = some (s', o)) : Effect c.shared s' p op o := by
  have hE := reach_ends h
  have hC := reach_coordinated h
  have hS := reach_serial h
  have hO := (reach_ordered hfirst (reach_crossed h)).order
  have hsole := hS.sole t p hpc
  have hpanic := exec_not_panicked hC hd hsole hpc hother he
  have hcont := (exec_continues hd he).imp_right fun hr ↦ hr.resolve_right hpanic
  cases op with
  | push v =>
    by_cases hcas : ∃ f, p = .push f .cas
    · obtain ⟨f, rfl⟩ := hcas
      obtain rfl : f.value = v := hd
      simp only [exec, execPush] at he
      split at he
      · cases he
        refine .reserve rfl rfl rfl ?_
        split_ifs <;> rfl
      · cases he
        exact .inside rfl rfl rfl rfl
    · have hcas' : ∀ f, p ≠ .push f .cas := fun f hp ↦ hcas ⟨f, hp⟩
      have hpu := exec_pushes hE hpc hcas' he
      have hpo := exec_pops hE hpc (fun f n hp ↦ by rw [hp] at hd; exact hd) he
      obtain ⟨q, rfl, hq⟩ | hp | ⟨rfl, hp⟩ := exec_reserved hd hcas' he
      · obtain ⟨_, ⟨⟩, hq'⟩ | ⟨_, ⟨⟩, -⟩ := hcont
        exact .inside hpu hpo hq
          ((claimed_eq_none hq' (by simp)).trans (claimed_eq_none hd (by simp)).symm)
      · exact absurd hp hpanic
      · exact .pushed hpu hpo hp
  | pop =>
    have hpu := exec_pushes hE hpc (fun f hp ↦ by rw [hp] at hd; exact hd) he
    by_cases hcas : ∃ f n, p = .pop f (.cas n)
    · obtain ⟨f, n, rfl⟩ := hcas
      obtain ⟨lane, e, rfl, rfl⟩ | ⟨-, -, hpo, -, q, rfl, hq, -⟩ := exec_pop_cas he
      · exact .inside rfl rfl rfl rfl
      · exact .claim hpu hpo rfl hq
    · have hcas' : ∀ f n, p ≠ .pop f (.cas n) := fun f n hp ↦ hcas ⟨f, n, hp⟩
      have hpo := exec_pops hE hpc hcas' he
      have hrec := exec_records hcas' he
      obtain ⟨q, rfl, hq⟩ | ⟨r, rfl, res, rfl⟩ := hcont
      · cases hrec with
        | keeps hr hcl =>
          exact .inside hpu hpo ((reserved_eq_false hq (by simp)).trans
            (reserved_eq_false hd (by simp)).symm) hcl
        | finishes k x _ _ ho => cases ho
        | panics _ ho => cases ho
      · obtain ⟨l, hfin, hp⟩ := exec_ret_popped he
        cases res with
        | none =>
          have hcl : claimed p = none := by
            obtain ⟨b, q, rfl⟩ | ⟨pt, rfl⟩ := hp <;> rfl
          have hempty : c.shared.pops = c.shared.pushes.length := by
            obtain ⟨b, q, rfl⟩ | ⟨pt, rfl⟩ := hp <;> exact hsole
          exact .empty hpu hpo hcl (by rw [hpo, hpu]; exact hempty)
        | some e =>
          obtain ⟨k, x⟩ := e
          have hcl : claimed p = some k := by
            obtain ⟨b, q, rfl⟩ | ⟨pt, rfl⟩ := hp <;> rfl
          obtain ⟨-, hk⟩ := hS.claims t k (by rw [hpc]; exact hcl)
          obtain ⟨G, hI⟩ := reach_inv hfirst h
          have hcar : carries p = some (k, x) := by
            obtain ⟨b, q, rfl⟩ | ⟨pt, rfl⟩ := hp <;> rfl
          obtain ⟨⟨v, hv, rfl⟩, -⟩ := hI.carries_brings hpc hcar
          exact .popped hpu hpo hcl (hpo.trans hk) (by rw [hpu]; exact hv)
  | tryReclaim =>
    have hpu := exec_pushes hE hpc (fun f hp ↦ by rw [hp] at hd; exact hd) he
    have hpo := exec_pops hE hpc (fun f n hp ↦ by rw [hp] at hd; exact hd) he
    obtain ⟨q, rfl, hq⟩ | ⟨r, rfl, rfl⟩ := hcont
    · exact .inside hpu hpo
        ((reserved_eq_false hq (by simp)).trans (reserved_eq_false hd (by simp)).symm)
        ((claimed_eq_none hq (by simp)).trans (claimed_eq_none hd (by simp)).symm)
    · exact .reclaimed hpu hpo
  | len =>
    cases p with
    | lenHead =>
      cases he
      exact .inside rfl rfl rfl rfl
    | lenTail head =>
      obtain rfl : head = c.shared.head.index / 2 := hsole
      cases he
      rw [calcLen_eq hE hO hother hpc]
      exact .measured rfl rfl
    | _ => exact absurd hd id
  | evict =>
    cases p <;> exact absurd hd id

/-- No more pops than pushes. -/
theorem pops_le [Fintype ι] (hfirst : first ≠ 0)
    (h : Reach (atomicVec ids adaptive) OneAtATime (init first) c) :
    c.shared.pops ≤ c.shared.pushes.length := by
  have hE := reach_ends h
  rw [← hE.head_number, ← hE.tail_number]
  exact number_mono (reach_ordered hfirst (reach_crossed h)).order.le

/-- A sleeper of the coordination is in its lock. -/
theorem asleep_at [Fintype ι] {ok : Config ι (Store ι α) (Pc ι α) → Label ι (Op α) → Prop}
    (h : Reach (atomicVec ids adaptive) ok (init first) c)
    (ht : t ∈ c.shared.coordLock.writers.wake.waiters) :
    ∃ p q r b, c.pcs t = some p ∧ coordPc p = some q ∧
      Coord.serialPc q = some (.slowParked r b) := by
  have hrole :=
    (SerialMutex.lot_wake (Coord.reach_inv (reach_coordinated h).run).serial).asleep t ht
  unfold SerialMutex.role at hrole
  split at hrole
  all_goals try cases hrole
  rename_i r b hv
  obtain ⟨q, hq, hr⟩ := Option.bind_eq_some_iff.1 hv
  obtain ⟨p, hpc, hq⟩ := Option.bind_eq_some_iff.1 hq
  exact ⟨p, q, r, b, hpc, hq, hr⟩

/-- **A call that is alone does not sleep**: the lock of the coordination has nobody to wait for. -/
theorem awake_of_alone [Fintype ι] {ok : Config ι (Store ι α) (Pc ι α) → Label ι (Op α) → Prop}
    (h : Reach (atomicVec ids adaptive) ok (init first) c) (hother : ∀ u, u ≠ t → c.pcs u = none) :
    t ∉ c.shared.coordLock.writers.wake.waiters := by
  intro ht
  have hC := reach_coordinated h
  have hserial := (Coord.reach_inv hC.run).serial
  have hA := Coord.reach_accounted hC.run
  obtain ⟨p, q, r, b, hpc, hq, hr⟩ := asleep_at h ht
  have hview : ∀ u, u ≠ t → (c.view Store.coordLock coordPc).pcs u = none := fun u hu ↦ by
    rw [Config.view_pcs, hother u hu]
    rfl
  -- neither the sleeper nor anybody else has a guard
  have hwrites : ∀ a u, c.shared.coordLock.writers.writes a u = 0 := by
    intro a u
    refine (hA.writes a u).trans ?_
    by_cases hu : u = t
    · subst hu
      have hin : insideAt (c.pcs u) = false := by
        rw [hpc]
        cases p with
        | reclaim e pt =>
          cases pt with
          | leave _ =>
            cases hq
            cases q with
            | dropExclusive => cases hr
            | _ => rfl
          | enter _ => rfl
          | _ => cases hq
        | _ => rfl
      have hhand : Coord.inHand a u ((c.view Store.coordLock coordPc).pcs u) = 0 := by
        rw [Config.view_pcs, hpc]
        show Coord.inHand a u (coordPc p) = 0
        rw [hq]
        cases q with
        | locking | trying => rfl
        | unlocking e q' =>
          cases hr
          rfl
        | _ => cases hr
      rw [hhand]
      refine (hC.exclusives a u).trans ?_
      rw [if_neg (by rw [hin]; simp)]
    · rw [hview u hu]
      refine (hC.exclusives a u).trans ?_
      rw [if_neg (by rw [hother u hu]; simp [insideAt])]
  obtain ⟨hlive, -⟩ | ⟨u, hu⟩ := SerialMutex.asleep_covered hserial ht
  · have hreads : SerialMutex.liveReads c.shared.coordLock.writers = 0 :=
      tally_eq_zero_iff.2 fun a ↦ tally_eq_zero_iff.2 fun u ↦ hA.reads a u
    have hzero : SerialMutex.liveWrites c.shared.coordLock.writers = 0 :=
      tally_eq_zero_iff.2 fun a ↦ tally_eq_zero_iff.2 fun u ↦ hwrites a u
    exact absurd (Nat.add_eq_zero_iff.2 ⟨hreads, hzero⟩) hlive.ne'
  · have hut : u ≠ t := by
      rintro rfl
      exact SerialMutex.notifier_awake hserial hu ht
    have hnone : (Coord.serialView (c.view Store.coordLock coordPc)).pcs u = none := by
      rw [Coord.serialView, Config.view_pcs, hview u hut]
      rfl
    rw [hnone] at hu
    rcases hu with hu | hu <;> cases hu

end Effect

end AtomicVec

end Crossync
