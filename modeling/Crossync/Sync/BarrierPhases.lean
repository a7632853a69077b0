import Crossync.Interleave.Solo
import Crossync.Sync.Barrier

/-!
# The phases of `Barrier`

Late waiters of a phase may still be asleep while a later phase is filling, so the threads inside
`wait` are told apart by the epoch in which they arrived: those of the current one are exactly the
arrivals that `remaining` no longer asks for (`Inv.total`), and those of an earlier one only have to
notice that it is over.

Only the holder of the mutex changes a phase, so what a thread relies on (`Local`) either concerns
its own arrival, or is about the current phase while it holds the mutex.

## What the statement contains

`phases_exact` has a clause for each promise of a barrier: who may leave and when, how many arrivals
make a phase, when the generation moves, and what a `release` does. The clause about the generation
has both directions: it moves at the last arrival and at a release and at no other step, and at each
of these it does.

## Wakeups

A waiter sleeps only while its phase is the current one, and the step that ends the phase is
followed by a broadcast made by the same thread. The condition variable may wake it without a
reason; it then looks at the generation and sleeps again.
-/

open Interleave

namespace Crossync

namespace Barrier

variable {ι : Type*} [Fintype ι] [DecidableEq ι] {n bucket : ℕ}

/-! ### The invariant

The threads inside `wait`, told apart by the epoch of their arrival. -/

/-- Holding the mutex. -/
def critical : Option Pc → Bool
  | some .waitArrive | some (.waitCount _) | some .waitAdvance | some (.waitCheck _) => true
  | some .releaseAdvance | some .mirror | some .notify | some .unlock => true
  | _ => false

/-- About to store the mirror. -/
def stale : Option Pc → Bool
  | some (.waitCount _) | some .mirror => true
  | _ => false

/-- Possibly the last arrival, which has not completed the phase yet. -/
def closing : Option Pc → Bool
  | some (.waitCount _) | some .waitAdvance => true
  | _ => false

/-- One for each thread whose call in progress arrived in the current epoch. -/
def Store.present (s : Store ι) (t : ι) : ℕ := if s.arrived t = some s.epoch then 1 else 0

/-- What a thread relies on at a program point. -/
def Local (s : Store ι) (t : ι) : Pc → Prop
  | .waitLock | .waitArrive | .releaseLock | .releaseAdvance | .countLoad => s.arrived t = none
  | .waitCount generation =>
    s.arrived t = some s.epoch ∧ generation = BitVec.ofNat 64 s.epoch
  | .waitAdvance => s.arrived t = some s.epoch ∧ s.remaining = 0
  | .waitCheck generation | .waitParked generation | .waitRelock generation =>
    ∃ g, s.arrived t = some g ∧ generation = BitVec.ofNat 64 g ∧ g ≤ s.epoch
  | .mirror | .notify | .unlock => ∀ g, s.arrived t = some g → g < s.epoch

/-- **The invariant of a barrier.** -/
structure Inv (n bucket : ℕ) (c : Config ι (Store ι) Pc) : Prop where
  holder : ∀ t, critical (c.pcs t) = true ↔ c.shared.monitor.holder = some t
  generation : c.shared.generation = BitVec.ofNat 64 c.shared.epoch
  arrivals : c.shared.arrivals c.shared.epoch = tally c.shared.present
  future : ∀ g, c.shared.epoch < g → c.shared.arrivals g = 0
  total : tally c.shared.present + c.shared.remaining = required n bucket c.shared.epoch
  mirrored : (∀ t, stale (c.pcs t) = false) → c.shared.count = c.shared.remaining
  opened : c.shared.remaining = 0 →
    required n bucket c.shared.epoch = 0 ∨ ∃ t, closing (c.pcs t) = true
  idle : ∀ t, c.pcs t = none → c.shared.arrived t = none
  threads : ∀ t p, c.pcs t = some p → Local c.shared t p

omit [Fintype ι] [DecidableEq ι] in
/-- Nobody relies on the current phase without the mutex, and everything else survives a later
epoch. -/
theorem Local.mono {s s' : Store ι} {t : ι} {p : Pc} (h : Local s t p)
    (ha : s'.arrived t = s.arrived t) (he : s.epoch ≤ s'.epoch)
    (hp : critical (some p) = false ∨ s'.epoch = s.epoch ∧ s'.remaining = s.remaining) :
    Local s' t p := by
  cases p with
  | waitLock | waitArrive | releaseLock | releaseAdvance | countLoad => exact ha.trans h
  | waitCount generation =>
    obtain hp | ⟨hp, -⟩ := hp
    · cases hp
    · rw [Local, hp, ha]
      exact h
  | waitAdvance =>
    obtain hp | ⟨hp, hr⟩ := hp
    · cases hp
    · rw [Local, hp, ha, hr]
      exact h
  | waitCheck generation | waitParked generation | waitRelock generation =>
    obtain ⟨g, hg, hgen, hle⟩ := h
    exact ⟨g, ha.trans hg, hgen, hle.trans he⟩
  | mirror | notify | unlock =>
    intro g hg
    exact (h g (ha.symm.trans hg)).trans_le he

section Steps

variable {c : Config ι (Store ι) Pc} {t : ι} {p : Pc} {s' : Store ι} {o : Outcome Pc Ret}

omit [DecidableEq ι] in
/-- Of two threads one does not hold the mutex. -/
theorem Inv.not_critical (hI : Inv n bucket c) (hpc : c.pcs t = some p)
    (hp : critical (some p) = true) {u : ι} (hu : u ≠ t) : critical (c.pcs u) = false := by
  have ht := (hI.holder t).1 (by rw [hpc]; exact hp)
  rw [Bool.eq_false_iff]
  intro hcu
  have hu' := (hI.holder u).1 hcu
  rw [ht] at hu'
  exact hu (Option.some.inj hu').symm

theorem holder_put (hI : Inv n bucket c)
    (ht : critical o.pc = true ↔ s'.monitor.holder = some t)
    (hu : ∀ u, u ≠ t → (s'.monitor.holder = some u ↔ c.shared.monitor.holder = some u)) :
    ∀ u, critical ((c.put t (s', o)).pcs u) = true ↔ s'.monitor.holder = some u := by
  intro u
  by_cases hut : u = t
  · subst hut
    rw [Config.put_pcs_self]
    exact ht
  · rw [Config.put_pcs_of_ne _ _ hut, hu u hut]
    exact hI.holder u

/-- A thread that has the mutex keeps it. -/
theorem holder_put_same (hI : Inv n bucket c) (hpc : c.pcs t = some p)
    (hp : critical (some p) = critical o.pc) (hm : s'.monitor.holder = c.shared.monitor.holder) :
    ∀ u, critical ((c.put t (s', o)).pcs u) = true ↔ s'.monitor.holder = some u := by
  refine holder_put hI ?_ fun u _ ↦ by rw [hm]
  rw [← hp, hm, ← hI.holder t, hpc]

/-- The holder gives the mutex up. -/
theorem holder_put_free (hI : Inv n bucket c) (hpc : c.pcs t = some p)
    (hp : critical (some p) = true) (ho : critical o.pc = false) (hm : s'.monitor.holder = none) :
    ∀ u, critical ((c.put t (s', o)).pcs u) = true ↔ s'.monitor.holder = some u := by
  have hme := (hI.holder t).1 (by rw [hpc]; exact hp)
  refine holder_put hI (by rw [ho, hm]; simp) fun u hu ↦ ?_
  rw [hm, hme]
  simp [hu.symm]

theorem idle_put (hI : Inv n bucket c) (ho : o.pc = none → s'.arrived t = none)
    (ha : ∀ u, u ≠ t → s'.arrived u = c.shared.arrived u) :
    ∀ u, (c.put t (s', o)).pcs u = none → s'.arrived u = none := by
  intro u hu
  by_cases hut : u = t
  · subst hut
    rw [Config.put_pcs_self] at hu
    exact ho hu
  · rw [Config.put_pcs_of_ne _ _ hut] at hu
    rw [ha u hut]
    exact hI.idle u hu

/-- The other threads keep what they rely on, if the phase changes only under the mutex. -/
theorem threads_put (hI : Inv n bucket c) (hpc : c.pcs t = some p)
    (hq : ∀ q, o.pc = some q → Local s' t q)
    (ha : ∀ u, u ≠ t → s'.arrived u = c.shared.arrived u) (he : c.shared.epoch ≤ s'.epoch)
    (hp : critical (some p) = true ∨
      s'.epoch = c.shared.epoch ∧ s'.remaining = c.shared.remaining) :
    ∀ u q, (c.put t (s', o)).pcs u = some q → Local s' u q := by
  refine Config.forall_put (L := fun u s q ↦ Local s u q) hq fun u q hu hcu ↦ ?_
  refine (hI.threads u q hcu).mono (ha u hu) he ?_
  rcases hp with hp | hp
  · left
    have := hI.not_critical hpc hp hu
    rwa [hcu] at this
  · exact Or.inr hp

/-- **A step that leaves the phase alone**: it only moves the mutex and the waiters. -/
theorem Inv.put_same (hI : Inv n bucket c) (hpc : c.pcs t = some p)
    (hs : s' = { c.shared with monitor := s'.monitor })
    (hholder : ∀ u, critical ((c.put t (s', o)).pcs u) = true ↔ s'.monitor.holder = some u)
    (hp : stale (some p) = false ∧ closing (some p) = false)
    (ho : o.pc = none → c.shared.arrived t = none)
    (hq : ∀ q, o.pc = some q → Local c.shared t q) : Inv n bucket (c.put t (s', o)) := by
  have hloc : ∀ q, o.pc = some q → Local s' t q := fun q hq' ↦
    (hq q hq').mono (by rw [hs]) (by rw [hs]) (by rw [hs]; exact Or.inr ⟨rfl, rfl⟩)
  have harr : s'.arrived = c.shared.arrived := by rw [hs]
  refine ⟨hholder, ?_, ?_, ?_, ?_, fun hst ↦ ?_, fun hr ↦ ?_,
    idle_put hI (by rwa [harr]) (fun u _ ↦ by rw [harr]),
    threads_put hI hpc hloc (fun u _ ↦ by rw [harr]) (by rw [hs])
      (by rw [hs]; exact Or.inr ⟨rfl, rfl⟩)⟩
  · rw [Config.put_shared, hs]
    exact hI.generation
  · rw [Config.put_shared, hs]
    exact hI.arrivals
  · rw [Config.put_shared, hs]
    exact hI.future
  · rw [Config.put_shared, hs]
    exact hI.total
  · rw [Config.put_shared, hs]
    refine hI.mirrored fun u ↦ ?_
    by_cases hut : u = t
    · rw [hut, hpc]
      exact hp.1
    · rw [← hst u, Config.put_pcs_of_ne _ _ hut]
  · rw [Config.put_shared, hs] at hr ⊢
    refine (hI.opened hr).imp_right fun ⟨u, hu⟩ ↦ ⟨u, ?_⟩
    have hut : u ≠ t := by
      rintro rfl
      rw [hpc, hp.2] at hu
      cases hu
    rwa [Config.put_pcs_of_ne _ _ hut]

omit [DecidableEq ι] in
/-- Every call in progress arrived in the current epoch or before. -/
theorem Inv.arrived_le (hI : Inv n bucket c) {u : ι} {g : ℕ} (hg : c.shared.arrived u = some g) :
    g ≤ c.shared.epoch := by
  cases hp : c.pcs u with
  | none =>
    rw [hI.idle u hp] at hg
    cases hg
  | some p =>
    have hloc := hI.threads u p hp
    cases p with
    | waitLock | waitArrive | releaseLock | releaseAdvance | countLoad =>
      rw [show c.shared.arrived u = none from hloc] at hg
      cases hg
    | waitCount | waitAdvance =>
      rw [hloc.1] at hg
      cases hg
      exact le_rfl
    | waitCheck | waitParked | waitRelock =>
      obtain ⟨g', hg', -, hle⟩ := hloc
      rw [hg'] at hg
      cases hg
      exact hle
    | mirror | notify | unlock => exact (hloc g hg).le

/-- An arrival. -/
theorem Inv.arrive (hI : Inv n bucket c) (hpc : c.pcs t = some .waitArrive)
    (hr : c.shared.remaining ≠ 0) :
    Inv n bucket (c.put t (c.shared.arrive t,
      (.goto (.waitCount c.shared.generation) : Outcome Pc Ret))) := by
  have hnone : c.shared.arrived t = none := hI.threads t _ hpc
  have hpresent : (c.shared.arrive t).present = Function.update c.shared.present t 1 := by
    funext u
    by_cases hu : u = t
    · subst hu
      simp [Store.present, Store.arrive]
    · simp [Store.present, Store.arrive, hu]
  have htally := tally_update c.shared.present t 1
  have hzero : c.shared.present t = 0 := by simp [Store.present, hnone]
  refine ⟨holder_put_same hI hpc rfl rfl, hI.generation, ?_, ?_, ?_, ?_, ?_,
    idle_put hI (by simp) fun u hu ↦ ?_, threads_put hI hpc ?_ (fun u hu ↦ ?_) le_rfl (Or.inl rfl)⟩
  · rw [Config.put_shared, hpresent]
    have := hI.arrivals
    simp only [Store.arrive, Function.update_self]
    omega
  · intro g hg
    have hne : g ≠ c.shared.epoch := (Nat.ne_of_lt hg).symm
    simp only [Config.put_shared, Store.arrive, Function.update_of_ne hne]
    exact hI.future g hg
  · rw [Config.put_shared, hpresent]
    have := hI.total
    show _ + (c.shared.remaining - 1) = required n bucket c.shared.epoch
    omega
  · intro hst
    have := hst t
    rw [Config.put_pcs_self] at this
    cases this
  · intro _
    exact Or.inr ⟨t, by rw [Config.put_pcs_self]; rfl⟩
  · exact Function.update_of_ne hu _ _
  · rintro q ⟨⟩
    exact ⟨Function.update_self t _ _, hI.generation⟩
  · exact Function.update_of_ne hu _ _

/-- The mirror is stored. -/
theorem Inv.store (hI : Inv n bucket c) (hpc : c.pcs t = some p) (hp : critical (some p) = true)
    (ho : critical o.pc = true)
    (hclose : c.shared.remaining = 0 → closing (some p) = true → closing o.pc = true)
    (hq : ∀ q, o.pc = some q → Local c.shared t q) :
    Inv n bucket (c.put t ({ c.shared with count := c.shared.remaining }, o)) := by
  have hgo : o.pc ≠ none := by
    intro hn
    rw [hn] at ho
    cases ho
  refine ⟨holder_put_same hI hpc (hp.trans ho.symm) rfl, hI.generation, hI.arrivals, hI.future,
    hI.total, fun _ ↦ rfl, fun hr ↦ ?_, idle_put hI (fun hn ↦ absurd hn hgo) (fun u _ ↦ rfl),
    threads_put hI hpc (fun q hq' ↦ (hq q hq').mono rfl le_rfl (Or.inr ⟨rfl, rfl⟩))
      (fun u _ ↦ rfl) le_rfl (Or.inl hp)⟩
  refine (hI.opened hr).imp_right fun ⟨u, hu⟩ ↦ ⟨u, ?_⟩
  by_cases hut : u = t
  · subst hut
    rw [hpc] at hu
    rw [Config.put_pcs_self]
    exact hclose hr hu
  · rwa [Config.put_pcs_of_ne _ _ hut]

/-- The phase is completed: nobody has arrived in the next one. -/
theorem Inv.advance (hI : Inv n bucket c) (hpc : c.pcs t = some p)
    (hp : critical (some p) = true) :
    Inv n bucket (c.put t (c.shared.advance bucket, (.goto .mirror : Outcome Pc Ret))) := by
  have hpresent : (c.shared.advance bucket).present = fun _ ↦ 0 := by
    funext u
    refine if_neg fun hu ↦ ?_
    have := hI.arrived_le (u := u) hu
    simp only [Store.advance] at this
    omega
  refine ⟨holder_put_same hI hpc hp rfl, ?_, ?_, ?_, ?_, ?_, ?_,
    idle_put hI (by simp) (fun u _ ↦ rfl),
    threads_put hI hpc ?_ (fun u _ ↦ rfl) (Nat.le_succ _) (Or.inl hp)⟩
  · show c.shared.generation + 1 = BitVec.ofNat 64 (c.shared.epoch + 1)
    rw [hI.generation, BitVec.ofNat_add]
    rfl
  · rw [Config.put_shared, hpresent, tally_zero]
    exact hI.future _ (Nat.lt_succ_self _)
  · intro g hg
    exact hI.future g ((Nat.lt_succ_self _).trans hg)
  · rw [Config.put_shared, hpresent, tally_zero, Nat.zero_add]
    rfl
  · intro hst
    have := hst t
    rw [Config.put_pcs_self] at this
    cases this
  · intro hr
    exact Or.inl hr
  · rintro q ⟨⟩ g hg
    exact Nat.lt_succ_of_le (hI.arrived_le hg)

/-- The mutex is given up and the call returns. -/
theorem Inv.unlock (hI : Inv n bucket c) (hpc : c.pcs t = some .unlock) :
    Inv n bucket (c.put t ({ c.shared with
      monitor := c.shared.monitor.unlock
      arrived := Function.update c.shared.arrived t none }, (.ret .unit : Outcome Pc Ret))) := by
  have hpast : ∀ g, c.shared.arrived t = some g → g < c.shared.epoch := hI.threads t _ hpc
  have hpresent : { c.shared with
      monitor := c.shared.monitor.unlock
      arrived := Function.update c.shared.arrived t none }.present = c.shared.present := by
    funext u
    by_cases hu : u = t
    · subst hu
      have hne : c.shared.arrived u ≠ some c.shared.epoch := fun h ↦ (hpast _ h).ne rfl
      simp [Store.present, hne]
    · simp [Store.present, hu]
  refine ⟨holder_put_free hI hpc rfl rfl rfl, hI.generation, ?_,
    hI.future, ?_, fun hst ↦ hI.mirrored fun u ↦ ?_, fun hr ↦ ?_,
    idle_put hI (fun _ ↦ Function.update_self t _ _) fun u hu ↦ Function.update_of_ne hu _ _,
    threads_put hI hpc (by simp) (fun u hu ↦ Function.update_of_ne hu _ _) le_rfl (Or.inl rfl)⟩
  · rw [Config.put_shared, hpresent]
    exact hI.arrivals
  · rw [Config.put_shared, hpresent]
    exact hI.total
  · by_cases hut : u = t
    · rw [hut, hpc]
      rfl
    · rw [← hst u, Config.put_pcs_of_ne _ _ hut]
  · refine (hI.opened hr).imp_right fun ⟨u, hu⟩ ↦ ⟨u, ?_⟩
    have hut : u ≠ t := by
      rintro rfl
      rw [hpc] at hu
      cases hu
    rwa [Config.put_pcs_of_ne _ _ hut]

/-- The mutex is taken. -/
theorem Inv.lock (hI : Inv n bucket c) (hpc : c.pcs t = some p) {m : Monitor ι}
    (hm : c.shared.monitor.lock t = some m) (hp : stale (some p) = false ∧ closing (some p) = false)
    {q : Pc} (hcrit : critical (some q) = true) (hq : Local c.shared t q) :
    Inv n bucket (c.put t ({ c.shared with monitor := m }, (.goto q : Outcome Pc Ret))) := by
  obtain ⟨hfree, hheld⟩ := Monitor.lock_eq_some hm
  refine hI.put_same hpc rfl (holder_put hI ⟨fun _ ↦ hheld, fun _ ↦ hcrit⟩ fun u hu ↦ ?_)
    hp (by simp)
    (by rintro _ ⟨⟩; exact hq)
  rw [hfree, hheld]
  exact ⟨fun h ↦ absurd (Option.some.inj h).symm hu, fun h ↦ by cases h⟩

theorem exec_inv {ch : Choice ι} (hI : Inv n bucket c) (hpc : c.pcs t = some p)
    (he : exec bucket t ch c.shared p = some (s', o)) : Inv n bucket (c.put t (s', o)) := by
  have hloc := hI.threads t p hpc
  cases p with
  | waitLock | releaseLock | waitRelock generation =>
    simp only [exec] at he
    split at he
    · rename_i m hm
      cases he
      exact hI.lock hpc hm ⟨rfl, rfl⟩ rfl hloc
    · cases he
  | waitArrive =>
    simp only [exec] at he
    split_ifs at he with hr
    · -- a disabled phase
      cases he
      refine hI.put_same hpc rfl (holder_put_same hI hpc rfl rfl) ⟨rfl, rfl⟩ (by simp) ?_
      rintro q ⟨⟩ g hg
      rw [show c.shared.arrived t = none from hloc] at hg
      cases hg
    · cases he
      exact hI.arrive hpc hr
  | waitCount generation =>
    cases he
    refine hI.store hpc rfl ?_ ?_ ?_
    · split_ifs <;> rfl
    · intro hr _
      rw [if_pos hr]
      rfl
    · split_ifs with hr
      · rintro q ⟨⟩
        exact ⟨hloc.1, hr⟩
      · rintro q ⟨⟩
        exact ⟨_, hloc.1, hloc.2, le_rfl⟩
  | waitAdvance | releaseAdvance =>
    cases he
    exact hI.advance hpc rfl
  | waitCheck generation =>
    simp only [exec] at he
    split_ifs at he with hgen
    · cases he
      refine hI.put_same hpc rfl (holder_put_free hI hpc rfl rfl rfl) ⟨rfl, rfl⟩ (by simp) ?_
      rintro q ⟨⟩
      exact hloc
    · cases he
      refine hI.put_same hpc rfl (holder_put_same hI hpc rfl rfl) ⟨rfl, rfl⟩ (by simp) ?_
      -- the counter has moved since the arrival, so the epoch has
      obtain ⟨g, hg, rfl, hle⟩ := hloc
      rintro q ⟨⟩ g' hg'
      rw [hg] at hg'
      cases hg'
      refine lt_of_le_of_ne hle fun heq ↦ hgen ?_
      rw [heq, hI.generation]
  | waitParked generation =>
    simp only [exec] at he
    split at he
    · rename_i m hm
      cases he
      refine hI.put_same hpc rfl (holder_put_same hI hpc rfl (Monitor.resume_holder hm)) ⟨rfl, rfl⟩
        (by simp) ?_
      rintro q ⟨⟩
      exact hloc
    · cases he
  | mirror =>
    cases he
    refine hI.store hpc rfl rfl (fun _ h ↦ by cases h) ?_
    rintro q ⟨⟩
    exact hloc
  | notify =>
    cases he
    refine hI.put_same hpc rfl (holder_put_same hI hpc rfl rfl) ⟨rfl, rfl⟩ (by simp) ?_
    rintro q ⟨⟩
    exact hloc
  | unlock =>
    cases he
    exact hI.unlock hpc
  | countLoad =>
    cases he
    exact hI.put_same hpc rfl (holder_put_same hI hpc rfl rfl) ⟨rfl, rfl⟩ (fun _ ↦ hloc) (by simp)

end Steps

/-! ### Runs

What holds along a run, and what an arrival and a release do to the phase. -/

section Runs

variable {ok : Config ι (Store ι) Pc → Label ι Op → Prop} {c : Config ι (Store ι) Pc}

omit [DecidableEq ι] in
theorem init_inv : Inv n bucket (init n : Config ι (Store ι) Pc) := by
  have hp : (init n : Config ι (Store ι) Pc).shared.present = fun _ ↦ 0 := by
    funext t
    simp [Store.present, init, Store.withCapacity]
  exact {
    holder := fun t ↦ ⟨fun h ↦ (by cases h), fun h ↦ (by cases h)⟩
    generation := by simp [init, Store.withCapacity]
    arrivals := by rw [hp, tally_zero]; rfl
    future := fun _ _ ↦ rfl
    total := by rw [hp, tally_zero, Nat.zero_add]; rfl
    mirrored := fun _ ↦ rfl
    opened := fun hr ↦ Or.inl hr
    idle := fun _ _ ↦ rfl
    threads := fun t p hp ↦ by cases hp }

theorem reach_inv (hc : Reach (barrier bucket) ok (init n) c) : Inv n bucket c := by
  refine hc.invariant (I := Inv n bucket) init_inv ?_ ?_
  · rintro c t op ⟨s', o⟩ - hI - hpc he
    have hnone := hI.idle t hpc
    obtain ⟨q, rfl, rfl, hq, hcrit, hst, hcl⟩ : ∃ q, s' = c.shared ∧ o = .goto q ∧
        Local c.shared t q ∧ critical (some q) = false ∧ stale (some q) = false ∧
        closing (some q) = false := by
      cases op <;> cases he <;> exact ⟨_, rfl, rfl, hnone, rfl, rfl, rfl⟩
    refine ⟨holder_put hI ?_ fun u _ ↦ Iff.rfl, hI.generation, hI.arrivals, hI.future, hI.total,
      fun h ↦ hI.mirrored fun u ↦ ?_, fun hr ↦ ?_, idle_put hI (by simp) fun u _ ↦ rfl, ?_⟩
    · rw [← hI.holder t, hpc, Outcome.pc_goto, hcrit]
      rfl
    · by_cases hut : u = t
      · rw [hut, hpc]
        rfl
      · rw [← h u, Config.put_pcs_of_ne _ _ hut]
    · refine (hI.opened hr).imp_right fun ⟨u, hu⟩ ↦ ⟨u, ?_⟩
      have hut : u ≠ t := by
        rintro rfl
        rw [hpc] at hu
        cases hu
      rwa [Config.put_pcs_of_ne _ _ hut]
    · refine Config.forall_put (L := fun u s q ↦ Local s u q) ?_ fun u q _ hu ↦ hI.threads u q hu
      rintro _ ⟨⟩
      exact hq
  · rintro c t ch p ⟨s', o⟩ - hI - hpc he
    exact exec_inv hI hpc he

omit [Fintype ι] in
/-- Only the completion of a phase moves the epoch. -/
theorem exec_epoch {t : ι} {ch : Choice ι} {s s' : Store ι} {p : Pc} {o : Outcome Pc Ret}
    (he : exec bucket t ch s p = some (s', o)) :
    s'.epoch = s.epoch ∨ s'.epoch = s.epoch + 1 ∧ (p = .waitAdvance ∨ p = .releaseAdvance) := by
  cases p with
  | waitAdvance =>
    cases he
    exact Or.inr ⟨rfl, Or.inl rfl⟩
  | releaseAdvance =>
    cases he
    exact Or.inr ⟨rfl, Or.inr rfl⟩
  | waitLock | waitRelock | releaseLock | waitParked =>
    simp only [exec] at he
    split at he
    · cases he
      exact Or.inl rfl
    · cases he
  | waitArrive | waitCheck =>
    simp only [exec] at he
    split_ifs at he
    · cases he
      exact Or.inl rfl
    · cases he
      exact Or.inl rfl
  | waitCount | mirror | notify | unlock | countLoad =>
    cases he
    exact Or.inl rfl

omit [Fintype ι] in
/-- Only a call that holds the mutex to drop it, or that only reads the mirror, returns. -/
theorem exec_returns {t : ι} {ch : Choice ι} {s s' : Store ι} {p : Pc} {r : Ret}
    (he : exec bucket t ch s p = some (s', .ret r)) : p = .unlock ∨ p = .countLoad := by
  cases p with
  | unlock => exact Or.inl rfl
  | countLoad => exact Or.inr rfl
  | _ =>
    simp only [exec] at he
    repeat' split at he
    all_goals cases he

omit [Fintype ι] in
/-- A `wait` in a disabled phase, run alone, returns and leaves everything as it was. -/
theorem wait_disabled {s : Store ι} {t : ι} (hfree : s.monitor.holder = none)
    (hnone : s.arrived t = none) (hr : s.remaining = 0) :
    (barrier bucket).Returns t 3 (fun s' r ↦ s' = s ∧ r = .unit) (s, .goto .waitLock) := by
  have hlock : s.monitor.lock t = some { s.monitor with holder := some t } := by
    rw [Monitor.lock, if_pos hfree]
  refine .step fun ch ↦ ⟨({ s with monitor := { s.monitor with holder := some t } },
    .goto .waitArrive), by simp only [barrier, exec, hlock], ?_⟩
  refine .step fun ch ↦ ⟨({ s with monitor := { s.monitor with holder := some t } }, .goto .unlock),
    by simp only [barrier, exec, if_pos hr], ?_⟩
  refine .step fun ch ↦ ⟨_, rfl, .ret ⟨?_, rfl⟩⟩
  rw [← hnone, Function.update_eq_self, Monitor.unlock, ← hfree]

omit [Fintype ι] in
/-- The completion of a phase moves the generation and sets up the next phase. -/
theorem exec_completes {t : ι} {ch : Choice ι} {s s' : Store ι} {p : Pc} {o : Outcome Pc Ret}
    (hp : p = .releaseAdvance ∨ p = .waitAdvance) (he : exec bucket t ch s p = some (s', o)) :
    s'.epoch = s.epoch + 1 ∧ s'.generation = s.generation + 1 ∧ s'.remaining = bucket := by
  rcases hp with rfl | rfl
  · cases he
    exact ⟨rfl, rfl, rfl⟩
  · cases he
    exact ⟨rfl, rfl, rfl⟩

omit [Fintype ι] in
/-- A `release` that gets the mutex is about to complete the phase. -/
theorem exec_releaseLock {t : ι} {ch : Choice ι} {s s' : Store ι} {o : Outcome Pc Ret}
    (he : exec bucket t ch s .releaseLock = some (s', o)) : o = .goto .releaseAdvance := by
  simp only [exec] at he
  split at he
  · cases he
    rfl
  · cases he

omit [Fintype ι] in
/-- **A `release` completes the phase**, whatever is missing in it: run alone it returns with the
generation moved by one and `bucket` arrivals missing, and has given the mutex back. -/
theorem release_completes {s : Store ι} {t : ι} (hfree : s.monitor.holder = none) :
    (barrier bucket).Returns t 5 (fun s' r ↦ r = .unit ∧ s'.epoch = s.epoch + 1 ∧
      s'.generation = s.generation + 1 ∧ s'.remaining = bucket ∧ s'.count = bucket ∧
      s'.monitor.holder = none) (s, .goto .releaseLock) := by
  have hlock : s.monitor.lock t = some { s.monitor with holder := some t } := by
    rw [Monitor.lock, if_pos hfree]
  refine .step fun ch ↦ ⟨({ s with monitor := { s.monitor with holder := some t } },
    .goto .releaseAdvance), by simp only [barrier, exec, hlock], ?_⟩
  -- no other thread can be in its critical section meanwhile
  refine .step fun ch ↦ ⟨_, rfl, ?_⟩
  refine .step fun ch ↦ ⟨_, rfl, ?_⟩
  refine .step fun ch ↦ ⟨_, rfl, ?_⟩
  exact .step fun ch ↦ ⟨_, rfl, .ret ⟨rfl, rfl, rfl, rfl, rfl, rfl⟩⟩

/-- **Phases.** In every reachable configuration:

* between critical sections, `count` mirrors `remaining`, which does not exceed what the phase
  requires, and the calls in progress that arrived in it are exactly the arrivals no longer missing;
* a call returns only when the epoch in which it arrived is over;
* the epoch moves, by one, only when a `release` completes it or when the thread that made the last
  required arrival does, and between critical sections the last required arrival is always missing
  unless the phase is disabled;
* conversely a `release` that gets the mutex, and the thread that counts the last required arrival,
  are about to complete the phase, and doing so moves the epoch and the generation by one and leaves
  `bucket` arrivals missing;
* between critical sections, `release` run alone returns with all that done, `count` returns
  `remaining`, and a `wait` that finds `remaining` zero returns without changing anything. -/
theorem phases_exact (hc : Reach (barrier bucket) ok (init n) c) :
    (c.shared.generation = BitVec.ofNat 64 c.shared.epoch) ∧
    (c.shared.monitor.holder = none →
      c.shared.count = c.shared.remaining ∧
      c.shared.remaining ≤ required n bucket c.shared.epoch ∧
      tally (fun t ↦ if c.shared.arrived t = some c.shared.epoch then 1 else 0) =
        required n bucket c.shared.epoch - c.shared.remaining) ∧
    (∀ t p ch s' r g, c.pcs t = some p → c.shared.arrived t = some g →
      exec bucket t ch c.shared p = some (s', .ret r) → g < c.shared.epoch) ∧
    (∀ t p ch s' o, c.pcs t = some p → exec bucket t ch c.shared p = some (s', o) →
      s'.epoch ≠ c.shared.epoch → s'.epoch = c.shared.epoch + 1 ∧
      (p = .releaseAdvance ∨ p = .waitAdvance ∧ c.shared.arrived t = some c.shared.epoch ∧
        c.shared.arrivals c.shared.epoch = required n bucket c.shared.epoch)) ∧
    (c.shared.monitor.holder = none → 0 < required n bucket c.shared.epoch →
      c.shared.arrivals c.shared.epoch < required n bucket c.shared.epoch) ∧
    (∀ t p ch s' o, c.pcs t = some p → exec bucket t ch c.shared p = some (s', o) →
      (p = .releaseAdvance ∨ p = .waitAdvance → s'.epoch = c.shared.epoch + 1 ∧
        s'.generation = c.shared.generation + 1 ∧ s'.remaining = bucket) ∧
      (p = .releaseLock → o = .goto .releaseAdvance) ∧
      (∀ g, p = .waitCount g → c.shared.arrivals c.shared.epoch = required n bucket c.shared.epoch →
        o = .goto .waitAdvance)) ∧
    (∀ t, c.pcs t = none → c.shared.monitor.holder = none →
      (∃ x, enter t .release c.shared = some x ∧ (barrier bucket).Returns t 5
        (fun s' r ↦ r = .unit ∧ s'.epoch = c.shared.epoch + 1 ∧
          s'.generation = c.shared.generation + 1 ∧ s'.remaining = bucket ∧ s'.count = bucket ∧
          s'.monitor.holder = none) x) ∧
      (∃ x, enter t .count c.shared = some x ∧ (barrier bucket).Returns t 1
        (fun s' r ↦ s' = c.shared ∧ r = .count c.shared.remaining) x) ∧
      (c.shared.remaining = 0 → ∃ x, enter t .wait c.shared = some x ∧
        (barrier bucket).Returns t 3 (fun s' r ↦ s' = c.shared ∧ r = .unit) x)) := by
  have hI := reach_inv hc
  have hout : ∀ q : Option Pc → Bool, (∀ p, critical p = false → q p = false) →
      c.shared.monitor.holder = none → ∀ t, q (c.pcs t) = false := by
    intro q hq hfree t
    refine hq _ (Bool.eq_false_iff.2 fun hcrit ↦ ?_)
    have := (hI.holder t).1 hcrit
    rw [hfree] at this
    cases this
  have hstale : ∀ p, critical p = false → stale p = false := by
    intro p hp
    match p with
    | none => rfl
    | some q => cases q <;> first | rfl | cases hp
  have hclosing : ∀ p, critical p = false → closing p = false := by
    intro p hp
    match p with
    | none => rfl
    | some q => cases q <;> first | rfl | cases hp
  have htotal := hI.total
  have harr := hI.arrivals
  refine ⟨hI.generation, fun hfree ↦ ⟨hI.mirrored (hout _ hstale hfree), by omega, ?_⟩, ?_,
    ?_, ?_, ?_,
    ?_⟩
  · show tally c.shared.present = _
    omega
  · intro t p ch s' r g hpc hg he
    have hloc := hI.threads t p hpc
    rcases exec_returns he with rfl | rfl
    · exact hloc g hg
    · rw [show c.shared.arrived t = none from hloc] at hg
      cases hg
  · intro t p ch s' o hpc he hne
    have hloc := hI.threads t p hpc
    obtain heq | ⟨heq, rfl | rfl⟩ := exec_epoch he
    · exact absurd heq hne
    · obtain ⟨hat, hr⟩ := hloc
      exact ⟨heq, Or.inr ⟨rfl, hat, by omega⟩⟩
    · exact ⟨heq, Or.inl rfl⟩
  · intro hfree hpos
    have hr : c.shared.remaining ≠ 0 := by
      intro hr
      rcases hI.opened hr with hz | ⟨t, ht⟩
      · omega
      · rw [hout _ hclosing hfree t] at ht
        cases ht
    omega
  · intro t p ch s' o hpc he
    refine ⟨fun hp ↦ exec_completes hp he, ?_, ?_⟩
    · rintro rfl
      exact exec_releaseLock he
    · rintro g rfl hlast
      have hr : c.shared.remaining = 0 := by omega
      cases he
      rw [if_pos hr]
  · intro t hpc hfree
    refine ⟨⟨_, rfl, release_completes hfree⟩,
      ⟨_, rfl, .step fun ch ↦ ⟨_, rfl, .ret ⟨rfl, ?_⟩⟩⟩, fun hr ↦
      ⟨_, rfl, wait_disabled hfree (hI.idle t hpc) hr⟩⟩
    rw [hI.mirrored (hout _ hstale hfree)]

end Runs

/-- A late waiter of the first phase while the second one is filling. -/
theorem phases_exact_overlap :
    ∃ c, Reach (barrier 3) Always (init 2 : Config (Fin 3) (Store (Fin 3)) Pc) c ∧
      c.pcs 0 = some (.waitParked 0) ∧ c.shared.epoch = 1 ∧
      c.shared.count = c.shared.remaining ∧
      tally (fun t ↦ if c.shared.arrived t = some c.shared.epoch then 1 else 0) = 1 := by
  obtain ⟨c, hc, ht⟩ := Reach.exists_of_replay (barrier 3) Always
    (init 2 : Config (Fin 3) (Store (Fin 3)) Pc)
    (.call 0 .wait :: List.replicate 4 (.exec 0 .go) ++
      .call 1 .wait :: List.replicate 7 (.exec 1 .go) ++
      .call 2 .wait :: List.replicate 4 (.exec 2 .go))
    (fun c ↦ decide (c.pcs 0 = some (.waitParked 0) ∧ c.shared.epoch = 1 ∧
      c.shared.remaining = 2 ∧ c.shared.monitor.holder = none)) (by decide)
  obtain ⟨hpc, he, hr, hfree⟩ := of_decide_eq_true ht
  obtain ⟨hcount, -, htally⟩ := (phases_exact hc).2.1 hfree
  refine ⟨c, hc, hpc, he, hcount, ?_⟩
  rw [htally, he, hr]
  rfl

end Barrier

end Crossync
