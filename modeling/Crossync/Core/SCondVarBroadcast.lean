import Crossync.Core.SCondVarTokens

/-!
# `notify_all` of an `SCondVar`

`notify_all` adds a token for every waiter and wakes all of them. The tokens carry no name: a thread
that waits again after it was released can take the token of a waiter that has not come to take its
own. **A waiter of a completed broadcast can then sleep on with nobody left to wake it**
(`released_left_asleep`).

What a broadcast owes is recorded in the store. As long as nobody takes a token that is owed to
somebody else, there is a token for each waiter that is owed one, and a waiter that a completed
broadcast was to release does not sleep with every other thread outside (`notify_all_releases`).

## Why anonymous tokens break it

A broadcast counts the waiters, adds so many tokens and wakes all. The tokens do not know for whom
they were added. A thread that enters `wait` after the broadcast finds one of them and returns at
once, and a waiter of the broadcast finds none when it wakes up. The condition of
`notify_all_releases` is that tokens go to the waiters they were added for, and
`released_left_asleep` is a run in which they do not.
-/

open Interleave

namespace Crossync

namespace SCondVar

variable {ι : Type*} [Fintype ι] [DecidableEq ι] {ids : SMutex.ThreadIds ι} {adaptive : ℕ}

/-- A waiter that is not owed a token takes one only if the tokens left are enough for those who
are. -/
def Fair (c : Config ι (Store ι) Pc) : Label ι Op → Prop
  | .call _ _ => True
  | .exec t ch =>
    match c.pcs t with
    | some (.wait _ (.consume _ k)) => ch ≠ .spurious → c.shared.condvar.toWake = k →
        t ∈ c.shared.condvar.owed ∨ c.shared.condvar.owed.card < c.shared.condvar.toWake
    | _ => True

instance (c : Config ι (Store ι) Pc) : ∀ l : Label ι Op, Decidable (Fair c l)
  | .call _ _ => .isTrue trivial
  | .exec t ch =>
    match h : c.pcs t with
    | some (.wait _ (.consume _ k)) =>
      decidable_of_iff (ch ≠ .spurious → c.shared.condvar.toWake = k →
        t ∈ c.shared.condvar.owed ∨ c.shared.condvar.owed.card < c.shared.condvar.toWake)
        (by simp only [Fair, h])
    | none | some (.mutex _) | some (.notify _) | some (.wait _ .register)
    | some (.wait _ (.unlock _)) | some (.wait _ .loadFutex) | some (.wait _ (.loadToWake _))
    | some (.wait _ (.sleep _)) | some (.wait _ .parked) | some (.wait _ .deregister)
    | some (.wait _ (.lock _)) => .isTrue (by simp only [Fair, h])

/-- Where a `notify_all` stands with the waiters it has to release. -/
def Stands (w : Words ι) (t : ι) : Pc → Prop
  | .notify (.addToWake true n) => (w.counted t).card ≤ n
  | .notify (.bump true _) | .notify (.wake true _) => w.counted t ⊆ w.owed
  | _ => True

omit [Fintype ι] [DecidableEq ι] in
theorem Stands.mono {w w' : Words ι} {t : ι} {p : Pc} (h : Stands w t p)
    (hcard : (w'.counted t).card ≤ (w.counted t).card)
    (hsub : w.counted t ⊆ w.owed → w'.counted t ⊆ w'.owed) : Stands w' t p := by
  cases p with
  | notify pt =>
    cases pt with
    | loadWaiters => trivial
    | addToWake all =>
      cases all with
      | false => trivial
      | true => exact hcard.trans h
    | bump all | wake all =>
      cases all with
      | false => trivial
      | true => exact hsub h
  | _ => trivial

/-- **Everybody who is owed a token can have one.** -/
structure Promises (c : Config ι (Store ι) Pc) : Prop where
  counted : ∀ t, c.shared.condvar.counted t ⊆ c.shared.condvar.registered
  owed : c.shared.condvar.owed ⊆ c.shared.condvar.registered
  released : c.shared.condvar.released ⊆ c.shared.condvar.owed
  enough : c.shared.condvar.owed.card ≤ c.shared.condvar.toWake
  stands : ∀ t p, c.pcs t = some p → Stands c.shared.condvar t p

section Steps

variable {c : Config ι (Store ι) Pc} {t : ι} {ch : Choice ι} {s' : Store ι} {p : Pc}
  {o : Outcome Pc Ret}

omit [Fintype ι] in
/-- A waiter takes a token: one that is its own, or one that nobody is owed. -/
theorem Promises.consume (h : Promises c) (hpos : 0 < c.shared.condvar.toWake)
    (hfair : t ∈ c.shared.condvar.owed ∨ c.shared.condvar.owed.card < c.shared.condvar.toWake)
    (heq : s'.condvar = { c.shared.condvar with toWake := c.shared.condvar.toWake - 1 }.served t)
    (hq : ∀ q, o.pc = some q → Stands s'.condvar t q) : Promises (c.put t (s', o)) := by
  refine ⟨fun u ↦ ?_, ?_, ?_, ?_, Config.forall_put
    (L := fun u (s : Store ι) q ↦ Stands s.condvar u q) hq fun u q _ hu ↦ ?_⟩
  · rw [Config.put_shared, heq]
    exact Finset.erase_subset_erase _ (h.counted u)
  · rw [Config.put_shared, heq]
    exact Finset.erase_subset_erase _ h.owed
  · rw [Config.put_shared, heq]
    exact Finset.erase_subset_erase _ h.released
  · have henough := h.enough
    rw [Config.put_shared, heq]
    simp only [Words.served]
    rcases hfair with hmem | hlt
    · have := Finset.card_erase_add_one hmem
      omega
    · have : (c.shared.condvar.owed.erase t).card ≤ c.shared.condvar.owed.card :=
        Finset.card_le_card (Finset.erase_subset _ _)
      omega
  · rw [heq]
    refine (h.stands u q hu).mono (Finset.card_le_card (Finset.erase_subset _ _)) fun hsub ↦ ?_
    exact Finset.erase_subset_erase _ hsub

omit [Fintype ι] in
/-- A notification adds its tokens; a `notify_all` owes one to every waiter it has counted. -/
theorem Promises.add (h : Promises c) {all : Bool} {n : ℕ}
    (hpc : c.pcs t = some (.notify (.addToWake all n)))
    (heq : s'.condvar = { c.shared.condvar with
      toWake := c.shared.condvar.toWake + n
      owed := if all then c.shared.condvar.owed ∪ c.shared.condvar.counted t
        else c.shared.condvar.owed }) :
    Promises (c.put t (s', (.goto (.notify (.bump all n)) : Outcome Pc Ret))) := by
  have hcounted : s'.condvar.counted = c.shared.condvar.counted := by rw [heq]
  have hgrows : c.shared.condvar.owed ⊆ s'.condvar.owed := by
    rw [heq]
    cases all with
    | false => exact subset_rfl
    | true => exact Finset.subset_union_left
  have hother : ∀ u q, u ≠ t → c.pcs u = some q → Stands s'.condvar u q := by
    intro u q _ hu
    refine (h.stands u q hu).mono (by rw [hcounted]) fun hsub ↦ ?_
    rw [hcounted]
    exact hsub.trans hgrows
  have hstands := h.stands t _ hpc
  have henough := h.enough
  cases all with
  | false =>
    refine ⟨fun u ↦ ?_, ?_, ?_, ?_, Config.forall_put
      (L := fun u (s : Store ι) q ↦ Stands s.condvar u q) (by rintro _ ⟨⟩; trivial) hother⟩
    · rw [Config.put_shared, heq]
      exact h.counted u
    · rw [Config.put_shared, heq]
      exact h.owed
    · rw [Config.put_shared, heq]
      exact h.released
    · rw [Config.put_shared, heq]
      exact henough.trans (Nat.le_add_right _ _)
  | true =>
    refine ⟨fun u ↦ ?_, ?_, ?_, ?_, Config.forall_put
      (L := fun u (s : Store ι) q ↦ Stands s.condvar u q) ?_ hother⟩
    · rw [Config.put_shared, heq]
      exact h.counted u
    · rw [Config.put_shared, heq]
      exact Finset.union_subset h.owed (h.counted t)
    · rw [Config.put_shared, heq]
      exact h.released.trans Finset.subset_union_left
    · rw [Config.put_shared, heq]
      have hunion := Finset.card_union_le c.shared.condvar.owed (c.shared.condvar.counted t)
      have hn : (c.shared.condvar.counted t).card ≤ n := hstands
      simp only [if_true]
      omega
    · rintro _ ⟨⟩
      rw [Stands, heq]
      exact Finset.subset_union_right

/-- A `notify_all` returns: what it owed is owed by the condition variable. -/
theorem Promises.release (h : Promises c) (hT : Tokens c) {pt : NotifyPoint}
    (hpc : c.pcs t = some (.notify pt)) (hk : s'.condvar.toWake = c.shared.condvar.toWake)
    (hreg : s'.condvar.registered = c.shared.condvar.registered)
    (hcounted : s'.condvar.counted = Function.update c.shared.condvar.counted t ∅)
    (howed : s'.condvar.owed = c.shared.condvar.owed)
    (hrel : s'.condvar.released = c.shared.condvar.released ∪ c.shared.condvar.counted t)
    (hends : pt = .loadWaiters true ∧ c.shared.condvar.waiters = 0 ∨ ∃ n, pt = .wake true n)
    (hq : ∀ q, o.pc = some q → Stands s'.condvar t q) : Promises (c.put t (s', o)) := by
  have hmine : c.shared.condvar.counted t ⊆ c.shared.condvar.owed := by
    rcases hends with ⟨rfl, hzero⟩ | ⟨n, rfl⟩
    · -- nobody was registered
      have hempty : c.shared.condvar.registered = ∅ := by
        have := hT.waiters
        exact Finset.card_eq_zero.1 (by omega)
      have := h.counted t
      rw [hempty] at this
      exact this.trans (Finset.empty_subset _)
    · exact h.stands t _ hpc
  have hsub : ∀ u, s'.condvar.counted u ⊆ c.shared.condvar.counted u := by
    intro u
    rw [hcounted]
    by_cases hu : u = t
    · subst hu
      rw [Function.update_self]
      exact Finset.empty_subset _
    · rw [Function.update_of_ne hu]
  refine ⟨fun u ↦ ?_, ?_, ?_, ?_, Config.forall_put
    (L := fun u (s : Store ι) q ↦ Stands s.condvar u q) hq fun u q _ hu ↦ ?_⟩
  · rw [Config.put_shared, hreg]
    exact (hsub u).trans (h.counted u)
  · rw [Config.put_shared, howed, hreg]
    exact h.owed
  · rw [Config.put_shared, hrel, howed]
    exact Finset.union_subset h.released hmine
  · rw [Config.put_shared, howed, hk]
    exact h.enough
  · refine (h.stands u q hu).mono (Finset.card_le_card (hsub u)) fun hs ↦ ?_
    rw [howed]
    exact (hsub u).trans hs

omit [Fintype ι] in
/-- A step that moves no promise. -/
theorem Promises.still (h : Promises c) (hk : s'.condvar.toWake = c.shared.condvar.toWake)
    (hcounted : s'.condvar.counted = c.shared.condvar.counted)
    (howed : s'.condvar.owed = c.shared.condvar.owed)
    (hrel : s'.condvar.released = c.shared.condvar.released)
    (hreg : c.shared.condvar.registered ⊆ s'.condvar.registered)
    (hq : ∀ q, o.pc = some q → Stands s'.condvar t q) : Promises (c.put t (s', o)) := by
  refine ⟨fun u ↦ ?_, ?_, ?_, ?_, Config.forall_put
    (L := fun u (s : Store ι) q ↦ Stands s.condvar u q) hq fun u q _ hu ↦ ?_⟩
  · rw [Config.put_shared, hcounted]
    exact (h.counted u).trans hreg
  · rw [Config.put_shared, howed]
    exact h.owed.trans hreg
  · rw [Config.put_shared, hrel, howed]
    exact h.released
  · rw [Config.put_shared, howed, hk]
    exact h.enough
  · exact (h.stands u q hu).mono (by rw [hcounted]) (by rw [hcounted, howed]; exact id)

/-- What a step leaves to the thread that made it, if it is in a `notify_all`. -/
theorem exec_stands (h : Promises c) (hT : Tokens c) (hpc : c.pcs t = some p)
    (he : exec ids adaptive t ch c.shared p = some (s', o))
    (hadd : ∀ all n, p ≠ .notify (.addToWake all n)) :
    ∀ q, o.pc = some q → Stands s'.condvar t q := by
  intro q ho
  cases p with
  | mutex q' =>
    simp only [exec] at he
    split at he
    · cases he
    all_goals
      cases he
      cases ho
      try trivial
  | wait g pt =>
    obtain ⟨_, -, rfl⟩ | ⟨_, -, rfl⟩ := exec_wait he
    · cases ho
      trivial
    · cases ho
  | notify pt =>
    cases pt with
    | loadWaiters all =>
      by_cases hpos : 0 < c.shared.condvar.waiters
      · simp only [exec, execNotify, if_pos hpos] at he
        cases he
        cases ho
        cases all with
        | false => trivial
        | true =>
          have hle := Finset.card_le_card (h.counted t)
          have hw := hT.waiters
          show (c.shared.condvar.counted t).card ≤ c.shared.condvar.waiters
          omega
      · simp only [exec, execNotify, if_neg hpos] at he
        cases he
        cases ho
    | addToWake all n => exact absurd rfl (hadd all n)
    | bump all n =>
      cases he
      cases ho
      have hst := h.stands t _ hpc
      cases all <;> exact hst
    | wake all n =>
      cases all with
      | true =>
        cases he
        cases ho
      | false =>
        simp only [exec, execNotify, Bool.false_eq_true, if_false] at he
        cases hx : c.shared.condvar.futex.wakeOne ch with
        | none =>
          rw [hx] at he
          cases he
        | some f =>
          rw [hx] at he
          cases he
          cases ho

theorem exec_promises (h : Promises c) (hT : Tokens c) (hok : Fair c (.exec t ch))
    (hpc : c.pcs t = some p) (he : exec ids adaptive t ch c.shared p = some (s', o)) :
    Promises (c.put t (s', o)) := by
  by_cases hadd : ∃ all n, p = .notify (.addToWake all n)
  · obtain ⟨all, n, rfl⟩ := hadd
    cases he
    exact h.add hpc rfl
  have hq := exec_stands h hT hpc he fun all n hp ↦ hadd ⟨all, n, hp⟩
  cases exec_moves hT hpc he with
  | none _ hk hcounted howed hrel hreg =>
    refine h.still hk hcounted howed hrel ?_ hq
    rcases hreg with hreg | hreg <;> rw [hreg]
    exact Finset.subset_insert _ _
  | consume g v hpos heq =>
    refine h.consume hpos ?_ heq hq
    by_cases hsp : ch = .spurious
    · -- a failed exchange takes no token
      subst hsp
      cases he
      have hk := congrArg Words.toWake heq
      simp only [Words.served] at hk
      omega
    · simp only [Fair, hpc] at hok
      exact hok hsp trivial
  | add all n heq => exact absurd ⟨all, n, rfl⟩ hadd
  | release pt hk hreg hcounted howed hrel hends =>
    exact h.release hT hpc hk hreg hcounted howed hrel hends hq

omit [Fintype ι] in
theorem enter_promises {op : Op} (h : Promises c)
    (he : enter t op c.shared = some (s', o)) : Promises (c.put t (s', o)) := by
  cases op with
  | mutex op =>
    cases hx : SMutex.enter t op c.shared.mutex with
    | none =>
      simp only [enter, hx] at he
      cases he
    | some r =>
      obtain ⟨m, o'⟩ := r
      obtain ⟨rfl, q, rfl⟩ := enter_mutex_pc hx
      simp only [enter, hx] at he
      cases he
      exact h.still rfl rfl rfl rfl subset_rfl (by rintro _ ⟨⟩; trivial)
  | wait g =>
    cases g with
    | false | true =>
      simp only [enter] at he
      split_ifs at he
      cases he
      exact h.still rfl rfl rfl rfl subset_rfl (by rintro _ ⟨⟩; trivial)
  | notifyOne =>
    cases he
    exact h.still rfl rfl rfl rfl subset_rfl (by rintro _ ⟨⟩; trivial)
  | notifyAll =>
    cases he
    refine ⟨fun u ↦ ?_, h.owed, h.released, h.enough, Config.forall_put
      (L := fun u (s : Store ι) q ↦ Stands s.condvar u q) (by rintro _ ⟨⟩; trivial)
        fun u q hu hq ↦ ?_⟩
    · show Function.update c.shared.condvar.counted t c.shared.condvar.registered u ⊆
        c.shared.condvar.registered
      by_cases hu : u = t
      · subst hu
        rw [Function.update_self]
      · rw [Function.update_of_ne hu]
        exact h.counted u
    · have hsame : Function.update c.shared.condvar.counted t c.shared.condvar.registered u =
          c.shared.condvar.counted u := Function.update_of_ne hu _ _
      exact (h.stands u q hq).mono (Finset.card_le_card hsame.subset) (hsame.subset.trans)

end Steps

section Runs

variable {c : Config ι (Store ι) Pc}

theorem reach_promises (hc : Reach (sCondVar ids adaptive) Fair init c) : Promises c := by
  refine hc.invariant (I := Promises) ?_ ?_ ?_
  · exact ⟨fun _ ↦ subset_rfl, subset_rfl, subset_rfl, le_rfl, by simp [init]⟩
  · rintro c t op ⟨s', o⟩ - h - - he
    exact enter_promises h he
  · rintro c t ch p ⟨s', o⟩ hr h hok hpc he
    exact exec_promises h (reach_tokens hr) hok hpc he

/-- **A broadcast releases everybody who was waiting**, in the runs in which nobody takes a token
that is owed to somebody else: no thread that was registered when a `notify_all` began, and is still
in that `wait` after the `notify_all` returned, is blocked with every other thread outside. -/
theorem notify_all_releases (hc : Reach (sCondVar ids adaptive) Fair init c) :
    ¬ ∃ t, t ∈ c.shared.condvar.released ∧ t ∈ c.shared.condvar.futex.waiters ∧
      ∀ u, u ≠ t → c.pcs u = none := by
  rintro ⟨t, hrel, hblocked, hout⟩
  have hT := reach_tokens hc
  have h := reach_promises hc
  obtain ⟨g, hg⟩ := hT.asleep t hblocked
  have hquiet : ∀ u, notifying (c.pcs u) = false := by
    intro u
    by_cases hu : u = t
    · rw [hu, hg]
      rfl
    · rw [hout u hu]
      rfl
  have hawake : c.shared.condvar.registered \ c.shared.condvar.futex.waiters = ∅ := by
    refine Finset.sdiff_eq_empty_iff_subset.2 fun u hu ↦ ?_
    by_cases hut : u = t
    · rw [hut]
      exact hblocked
    · rw [hT.registered u, hout u hut] at hu
      cases hu
  -- no token is left for the thread, but it is owed one
  have hnone := hT.covered ⟨t, hblocked⟩
  rw [hawake, Finset.card_empty, pending_eq_zero hquiet] at hnone
  have howed : 0 < c.shared.condvar.owed.card := Finset.card_pos.2 ⟨t, h.released hrel⟩
  have := h.enough
  omega

end Runs

/-- Threads `u` and `v` lock, wait and sleep; thread `t` calls `notify_all`. -/
def broadcast {ι : Type*} (t u v : ι) : List (Label ι Op) :=
  oneAsleep u ++ oneAsleep v ++ (.call t .notifyAll :: List.replicate 4 (.exec t .go))

/-- **A waiter of a completed broadcast is left asleep.** Thread `2` takes a token, returns, waits
again and takes the other one; thread `1` then finds none and sleeps, with everybody else
outside. -/
theorem released_left_asleep :
    ∃ c : Config (Fin 3) (Store (Fin 3)) Pc, Reach (sCondVar SMutex.threeIds 4) Always init c ∧
      ∃ t, t ∈ c.shared.condvar.released ∧ t ∈ c.shared.condvar.futex.waiters ∧
        ∀ u, u ≠ t → c.pcs u = none := by
  obtain ⟨c, hc, ht⟩ := Reach.exists_of_replay (sCondVar SMutex.threeIds 4) Always
    (init : Config (Fin 3) (Store (Fin 3)) Pc)
    (broadcast 0 1 2 ++ List.replicate 9 (.exec 2 .go) ++
      (.call 2 (.wait false) :: List.replicate 14 (.exec 2 .go)) ++
      (.call 2 (.mutex .rawUnlock) :: List.replicate 5 (.exec 2 .go)) ++
        List.replicate 4 (.exec 1 .go))
    (fun c ↦ decide (∃ t, t ∈ c.shared.condvar.released ∧ t ∈ c.shared.condvar.futex.waiters ∧
      ∀ u, u ≠ t → c.pcs u = none)) (by decide +kernel)
  exact ⟨c, hc, of_decide_eq_true ht⟩

/-- After the broadcast thread `2` returns; thread `1` still has its token. -/
theorem notify_all_releases_two :
    ∃ c : Config (Fin 3) (Store (Fin 3)) Pc, Reach (sCondVar SMutex.threeIds 4) Fair init c ∧
      c.shared.condvar.released = {1} ∧ c.shared.condvar.toWake = 1 ∧
      ¬ ∃ t, t ∈ c.shared.condvar.released ∧ t ∈ c.shared.condvar.futex.waiters ∧
        ∀ u, u ≠ t → c.pcs u = none := by
  obtain ⟨c, hc, ht⟩ := Reach.exists_of_replay (sCondVar SMutex.threeIds 4) Fair
    (init : Config (Fin 3) (Store (Fin 3)) Pc) (broadcast 0 1 2 ++ List.replicate 9 (.exec 2 .go))
    (fun c ↦ decide (c.shared.condvar.released = {1} ∧ c.shared.condvar.toWake = 1))
      (by decide +kernel)
  obtain ⟨h₁, h₂⟩ := of_decide_eq_true ht
  exact ⟨c, hc, h₁, h₂, notify_all_releases hc⟩

end SCondVar

end Crossync
