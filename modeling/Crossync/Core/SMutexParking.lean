import Crossync.Core.SMutexExact

/-!
# Sleeping on an `SMutex`

A release wakes one sleeper, whatever it waits for. That is enough to keep somebody awake: a sleeper
went to sleep on a word that was not zero, the store that makes the word zero is followed by a wake,
and a woken thread either takes the lock, and will wake another one, or finds a word that is again
not zero. So while anybody sleeps, the word is not zero or somebody is stirring (`Covered`), and
nobody sleeps on a free lock with everybody else gone or asleep (`never_sleeps_on_free`).

It is not enough to let a whole group in. A thread of `lock_group` needs the bit `LOCKED` to be
clear and nothing else, but the release that clears the bit wakes one thread, and if that one joins
the group then nobody wakes the others (`group_left_asleep`). They are let in if every wake made on
a word without `LOCKED` leaves no thread of `lock_group` asleep (`admits_waiting_groups`).

## Who is stirring

A thread is stirring if it is about to look at the word again without being woken: a woken sleeper,
a thread that has not slept yet, and a release that still owes its wake. The step that puts the last
stirring thread to sleep is a futex wait on a word that is not zero, and the step that makes the
word zero leaves its thread stirring; so one of the two halves of `Covered` holds at any time.

For a group the same reasoning fails at one place. The wake goes to one sleeper, and if it leads
into the group then the word stays non-zero with nobody stirring, although others could join.
-/

open Interleave

namespace Crossync

namespace SMutex

variable {ι : Type*} [Fintype ι] [DecidableEq ι] {ids : ThreadIds ι} {adaptive : ℕ}

/-! ### Sleepers

The cover of the sleepers, step by step. -/

/-- In the sleeping call of `lock` or of `lock_group`. -/
def parked : Pc → Bool
  | .lockParked _ | .groupParked => true
  | _ => false

/-- Awake, the thread will try to take the lock, or wake a sleeper. A thread that has found the
group full will not. -/
def stirring : Pc → Bool
  | .lockCas _ | .lockLoad _ | .lockWait _ _ | .lockParked _ => true
  | .groupLoad | .groupCheck | .groupWait | .groupParked => true
  | .groupCas state => decide (state + oneGroup < 2 ^ 32)
  | .wake => true
  | _ => false

/-- What a thread that is about to sleep has found. -/
def Wary : Pc → Prop
  | .lockWait _ state => state ≠ 0
  | _ => True

/-- Somebody is awake and stirring. -/
def Stirred (c : Config ι (Store ι) Pc) : Prop :=
  ∃ u p, c.pcs u = some p ∧ stirring p = true ∧ u ∉ c.shared.state.waiters

/-- **While anybody sleeps, the word is not zero or somebody is stirring.** -/
structure Covered (c : Config ι (Store ι) Pc) : Prop where
  asleep : ∀ t ∈ c.shared.state.waiters, ∃ p, c.pcs t = some p ∧ parked p = true
  wary : ∀ t p, c.pcs t = some p → Wary p
  covered : c.shared.state.waiters.Nonempty → c.shared.state.value ≠ 0 ∨ Stirred c

section Steps

variable {h : Option ι} {c : Config ι (Store ι) Pc} {t : ι} {ch : Choice ι} {s' : Store ι} {p : Pc}
  {o : Outcome Pc Ret}

omit [Fintype ι] [DecidableEq ι] in
/-- A thread that is not in a sleeping call does not sleep. -/
theorem Covered.notMem (hC : Covered c) (hpc : c.pcs t = some p) (hp : parked p = false) :
    t ∉ c.shared.state.waiters := by
  intro ht
  obtain ⟨q, hq, hpq⟩ := hC.asleep t ht
  rw [hpc] at hq
  cases hq
  rw [hp] at hpq
  cases hpq

/-- How a step may leave the sleepers covered: the word is not zero, the moving thread is stirring,
or nothing that covered them is gone. -/
inductive Leaves (t : ι) (s s' : Store ι) (p : Pc) (q : Option Pc) : Prop where
  | held (h : s'.state.value ≠ 0)
  | stirs (r : Pc) (hq : q = some r) (hr : stirring r = true) (ht : t ∉ s'.state.waiters)
  | same (hv : s'.state.value = s.state.value) (hp : stirring p = false)

omit [Fintype ι] in
/-- A step that puts nobody to sleep. -/
theorem Covered.put (hC : Covered c) (hpc : c.pcs t = some p)
    (hsub : s'.state.waiters ⊆ c.shared.state.waiters) (ht : t ∉ s'.state.waiters)
    (hw : ∀ q, o.pc = some q → Wary q) (hl : Leaves t c.shared s' p o.pc) :
    Covered (c.put t (s', o)) := by
  refine ⟨fun u hu ↦ ?_, Config.forall_put (L := fun _ _ q ↦ Wary q) hw fun u q _ hq ↦
    hC.wary u q hq,
    fun hne ↦ ?_⟩
  · have hut : u ≠ t := ne_of_mem_of_not_mem hu ht
    rw [Config.put_pcs_of_ne _ _ hut]
    exact hC.asleep u (hsub hu)
  · cases hl with
    | held hv => exact Or.inl hv
    | stirs r hq hr htw => exact Or.inr ⟨t, r, by rw [Config.put_pcs_self]; exact hq, hr, htw⟩
    | same hv hp =>
      rcases hC.covered (hne.mono hsub) with hz | ⟨u, q, hq, hst, hu⟩
      · exact Or.inl (by rw [Config.put_shared, hv]; exact hz)
      · have hut : u ≠ t := by
          rintro rfl
          rw [hpc] at hq
          cases hq
          rw [hp] at hst
          cases hst
        exact Or.inr
          ⟨u, q, by rw [Config.put_pcs_of_ne _ _ hut]; exact hq, hst, fun hu' ↦ hu (hsub hu')⟩

omit [Fintype ι] in
/-- A thread goes to sleep on a word that is not zero. -/
theorem Covered.sleep (hC : Covered c) {q : Pc} (hq : parked q = true)
    (hv : c.shared.state.value ≠ 0) (hval : s'.state.value = c.shared.state.value)
    (hwait : s'.state.waiters = insert t c.shared.state.waiters) :
    Covered (c.put t (s', (.goto q : Outcome Pc Ret))) := by
  refine ⟨fun u hu ↦ ?_, Config.forall_put (L := fun _ _ q ↦ Wary q) ?_ fun u r _ hr ↦
    hC.wary u r hr,
    fun _ ↦ Or.inl (by rw [Config.put_shared, hval]; exact hv)⟩
  · by_cases hut : u = t
    · subst hut
      exact ⟨q, by rw [Config.put_pcs_self]; rfl, hq⟩
    · rw [Config.put_pcs_of_ne _ _ hut]
      rw [Config.put_shared, hwait, Finset.mem_insert] at hu
      exact hC.asleep u (hu.resolve_left hut)
  · rintro _ ⟨⟩
    cases q <;> trivial

omit [Fintype ι] in
/-- A sleeper goes on, and is then stirring. -/
theorem Covered.resume (hC : Covered c) (hpc : c.pcs t = some p) {f : Futex ι ℕ}
    (hf : c.shared.state.resume t ch = some f) {q : Pc} (hst : stirring q = true) (hw : Wary q) :
    Covered (c.put t ({ c.shared with state := f }, (.goto q : Outcome Pc Ret))) := by
  obtain ⟨-, hwait⟩ := Futex.resume_eq_some hf
  have ht : t ∉ f.waiters := by
    rw [hwait]
    exact Finset.notMem_erase t _
  refine hC.put hpc ?_ ht (by rintro _ ⟨⟩; exact hw) (.stirs q rfl hst ht)
  show f.waiters ⊆ _
  rw [hwait]
  exact Finset.erase_subset _ _

/-- A wake takes a sleeper out, who is then stirring. -/
theorem Covered.wake (hC : Covered c) (hpc : c.pcs t = some .wake) {f : Futex ι ℕ}
    (hf : c.shared.state.wakeOne ch = some f) :
    Covered (c.put t ({ c.shared with state := f }, (.ret .unit : Outcome Pc Ret))) := by
  have ht : t ∉ c.shared.state.waiters := hC.notMem hpc rfl
  have hval := Futex.wakeOne_value hf
  have hwary : ∀ u q,
    (c.put t ({ c.shared with state := f }, (.ret .unit : Outcome Pc Ret))).pcs u =
      some q → Wary q :=
    Config.forall_put (L := fun _ _ q ↦ Wary q) (by rintro _ ⟨⟩) fun u q _ hq ↦ hC.wary u q hq
  by_cases hpick : ∃ u, ch = .pick u
  · obtain ⟨u, rfl⟩ := hpick
    simp only [Futex.wakeOne] at hf
    split_ifs at hf with hu
    cases hf
    have hut : u ≠ t := ne_of_mem_of_not_mem hu ht
    obtain ⟨q, hq, hpq⟩ := hC.asleep u hu
    refine ⟨fun v hv ↦ ?_, hwary, fun _ ↦ Or.inr ⟨u, q, ?_, ?_, ?_⟩⟩
    · have hv' := Finset.mem_of_mem_erase hv
      rw [Config.put_pcs_of_ne _ _ (ne_of_mem_of_not_mem hv' ht)]
      exact hC.asleep v hv'
    · rw [Config.put_pcs_of_ne _ _ hut]
      exact hq
    · cases q <;> first | rfl | cases hpq
    · exact Finset.notMem_erase u _
  · -- nobody sleeps
    have hempty : c.shared.state.waiters = ∅ ∧ f = c.shared.state := by
      cases ch with
      | pick u => exact absurd ⟨u, rfl⟩ hpick
      | _ =>
        simp only [Futex.wakeOne] at hf
        split_ifs at hf with he
        exact ⟨he, (Option.some.inj hf).symm⟩
    obtain ⟨he, rfl⟩ := hempty
    refine ⟨fun v hv ↦ ?_, hwary, fun hne ↦ ?_⟩
    · rw [Config.put_shared, he] at hv
      exact absurd hv (Finset.notMem_empty v)
    · rw [Config.put_shared, he] at hne
      exact absurd hne Finset.not_nonempty_empty

omit [Fintype ι] [DecidableEq ι] in
/-- Where `lock_group` goes with the word it has loaded. -/
theorem leaves_groupLoop {s : Store ι} (ht : t ∉ s.state.waiters) (p : Pc) :
    Leaves t s s p (some (groupLoop s.state.value)) := by
  unfold groupLoop
  split_ifs
  · by_cases hroom : s.state.value + oneGroup < 2 ^ 32
    · exact .stirs _ rfl (decide_eq_true hroom) ht
    · -- the group is full
      refine .held ?_
      simp only [oneGroup] at hroom
      omega
  · exact .stirs _ rfl rfl ht

theorem wary_groupLoop (v : ℕ) : Wary (groupLoop v) := by
  unfold groupLoop
  split_ifs <;> trivial

/-- **A step keeps the sleepers covered.** -/
theorem exec_covered (hC : Covered c) (hE : Exact ids h c) (hpc : c.pcs t = some p)
    (he : exec ids adaptive t ch c.shared p = some (s', o)) : Covered (c.put t (s', o)) := by
  have hout : parked p = false → t ∉ c.shared.state.waiters := hC.notMem hpc
  -- the steps that leave the word and the sleepers alone
  have hsame : s'.state = c.shared.state → parked p = false → stirring p = false →
      (∀ q, o.pc = some q → Wary q) → Covered (c.put t (s', o)) := fun hs hp hst hw ↦
    hC.put hpc (by rw [hs]) (by rw [hs]; exact hout hp) hw (.same (by rw [hs]) hst)
  have hstirs : ∀ q, o = .goto q → s' = c.shared → parked p = false → stirring q = true → Wary q →
      Covered (c.put t (s', o)) := by
    rintro q rfl rfl hp hst hw
    exact hC.put hpc subset_rfl (hout hp) (by rintro _ ⟨⟩; exact hw) (.stirs q rfl hst (hout hp))
  cases p with
  | lockOwner =>
    simp only [exec] at he
    split_ifs at he
    all_goals
      cases he
      exact hsame rfl rfl rfl (by rintro _ ⟨⟩; trivial)
  | lockNested =>
    cases he
    exact hsame rfl rfl rfl (by rintro _ ⟨⟩)
  | lockCas spin =>
    simp only [exec] at he
    split at he
    · rename_i w hcas
      cases he
      obtain ⟨-, rfl⟩ := casWeak_eq_ok hcas
      exact hC.put hpc subset_rfl (hout rfl) (by rintro _ ⟨⟩; trivial)
        (.held (by simp [Store.setState, locked]))
    · split_ifs at he
      all_goals
        cases he
        exact hstirs _ rfl rfl rfl rfl trivial
  | storeOwner =>
    cases he
    exact hsame rfl rfl rfl (by rintro _ ⟨⟩; trivial)
  | storeRecursion =>
    cases he
    exact hsame rfl rfl rfl (by rintro _ ⟨⟩)
  | lockLoad spin =>
    simp only [exec] at he
    split_ifs at he with hv
    · cases he
      exact hstirs _ rfl rfl rfl rfl hv
    · cases he
      exact hstirs _ rfl rfl rfl rfl trivial
  | lockWait spin v =>
    simp only [exec] at he
    split at he
    · rename_i f hf
      cases he
      obtain ⟨hv, rfl⟩ := Futex.wait_eq_some hf
      exact hC.sleep rfl (by rw [hv]; exact hC.wary t _ hpc) rfl rfl
    · cases he
      exact hstirs _ rfl rfl rfl rfl trivial
  | lockParked spin =>
    simp only [exec] at he
    split at he
    · rename_i f hf
      cases he
      exact hC.resume hpc hf rfl trivial
    · cases he
  | groupOwner =>
    simp only [exec] at he
    split_ifs at he
    · cases he
      exact hsame rfl rfl rfl (by rintro _ ⟨⟩; trivial)
    · cases he
      exact hsame rfl rfl rfl (by rintro _ ⟨⟩; trivial)
  | groupNested =>
    cases he
    exact hsame rfl rfl rfl (by rintro _ ⟨⟩)
  | groupLoad =>
    cases he
    exact hC.put hpc subset_rfl (hout rfl) (by rintro _ ⟨⟩; exact wary_groupLoop _)
      (leaves_groupLoop (hout rfl) _)
  | groupCas v =>
    simp only [exec] at he
    split_ifs at he with hroom
    · split at he
      · rename_i w hcas
        cases he
        obtain ⟨-, rfl⟩ := casWeak_eq_ok hcas
        refine hC.put hpc subset_rfl (hout rfl) (by rintro _ ⟨⟩) (.held ?_)
        simp [Store.setState, oneGroup]
      · rename_i e hcas
        cases he
        obtain rfl := casWeak_eq_error hcas
        exact hC.put hpc subset_rfl (hout rfl) (by rintro _ ⟨⟩; exact wary_groupLoop _)
          (leaves_groupLoop (hout rfl) _)
    · cases he
      exact hsame rfl rfl (decide_eq_false hroom) (by rintro _ ⟨⟩)
  | groupCheck =>
    simp only [exec] at he
    split_ifs at he
    all_goals
      cases he
      exact hstirs _ rfl rfl rfl rfl trivial
  | groupWait =>
    simp only [exec] at he
    split at he
    · rename_i f hf
      cases he
      obtain ⟨hv, rfl⟩ := Futex.wait_eq_some hf
      exact hC.sleep rfl (by rw [hv]; simp [locked]) rfl rfl
    · cases he
      exact hstirs _ rfl rfl rfl rfl trivial
  | groupParked =>
    simp only [exec] at he
    split at he
    · rename_i f hf
      cases he
      exact hC.resume hpc hf rfl trivial
    · cases he
  | unlockOwner =>
    simp only [exec] at he
    split_ifs at he
    · cases he
      exact hsame rfl rfl rfl (by rintro _ ⟨⟩)
    · cases he
      exact hsame rfl rfl rfl (by rintro _ ⟨⟩; trivial)
  | unlockGroupOwner =>
    simp only [exec] at he
    split_ifs at he
    all_goals
      cases he
      exact hsame rfl rfl rfl (by rintro _ ⟨⟩; trivial)
  | unlockRecursion b =>
    cases he
    refine hsame (by cases b <;> rfl) rfl rfl ?_
    split_ifs
    · rintro _ ⟨⟩
    · rintro _ ⟨⟩
      trivial
  | clearOwner =>
    cases he
    exact hsame rfl rfl rfl (by rintro _ ⟨⟩; trivial)
  | clearState =>
    cases he
    exact hC.put hpc subset_rfl (hout rfl) (by rintro _ ⟨⟩; trivial) (.stirs _ rfl rfl (hout rfl))
  | unlockGroupSub =>
    -- the new word stands for itself: its arithmetic is used only at the end
    obtain ⟨w, hw⟩ : ∃ w, w = (c.shared.state.value + 2 ^ 32 - oneGroup) % 2 ^ 32 := ⟨_, rfl⟩
    simp only [exec, ← hw, Option.some.injEq, Prod.mk.injEq] at he
    obtain ⟨rfl, rfl⟩ := he
    have hbound := hE.bound
    refine hC.put hpc subset_rfl (hout rfl) ?_ ?_
    · split_ifs
      · rintro _ ⟨⟩
      · rintro _ ⟨⟩
        trivial
      · rintro _ ⟨⟩
    · by_cases hlast : c.shared.state.value = oneGroup
      · -- the last one of the group wakes a sleeper
        refine .stirs .wake ?_ rfl (hout rfl)
        rw [if_neg (by simp [hlast]), if_pos hlast]
        rfl
      · refine .held ?_
        simp only [oneGroup] at hlast hw
        show w ≠ 0
        omega
  | wake =>
    simp only [exec] at he
    split at he
    · rename_i f hf
      cases he
      exact hC.wake hpc hf
    · cases he

end Steps

section Runs

variable {ok : Config ι (Store ι) Pc → Label ι Op → Prop} {c : Config ι (Store ι) Pc}

theorem reach_covered (hc : Reach (sMutex ids adaptive) ok init c) : Covered c := by
  refine hc.invariant (I := Covered) ?_ ?_ ?_
  · exact
      ⟨by simp [init, Store.new, Futex.new], by simp [init], by simp [init, Store.new, Futex.new]⟩
  · rintro c t op ⟨s', o⟩ - hC - hpc he
    have hnot : t ∉ c.shared.state.waiters := fun ht ↦ by
      obtain ⟨p, hp, -⟩ := hC.asleep t ht
      rw [hpc] at hp
      cases hp
    obtain ⟨q, rfl, rfl, hw⟩ : ∃ q, o = .goto q ∧ s' = c.shared ∧ Wary q := by
      cases op with
      | lock | lockGroup =>
        cases he
        exact ⟨_, rfl, rfl, trivial⟩
      | rawUnlock | rawUnlockGroup =>
        simp only [sMutex, enter] at he
        split_ifs at he
        cases he
        exact ⟨_, rfl, rfl, trivial⟩
    refine ⟨fun u hu ↦ ?_, Config.forall_put (L := fun _ _ q ↦ Wary q) (by rintro _ ⟨⟩; exact hw)
      fun u r _ hr ↦ hC.wary u r hr, fun hne ↦ ?_⟩
    · rw [Config.put_pcs_of_ne _ _ (ne_of_mem_of_not_mem hu hnot)]
      exact hC.asleep u hu
    · refine (hC.covered hne).imp_right ?_
      rintro ⟨u, r, hr, hst, hu⟩
      have hut : u ≠ t := by
        rintro rfl
        rw [hpc] at hr
        cases hr
      exact ⟨u, r, by rw [Config.put_pcs_of_ne _ _ hut]; exact hr, hst, hu⟩
  · rintro c t ch p ⟨s', o⟩ hr hC - hpc he
    obtain ⟨h, hE⟩ := reach_exact hr
    exact exec_covered hC hE hpc he

/-- **Nobody sleeps on a free lock** with every other thread outside or asleep as well. -/
theorem never_sleeps_on_free (hc : Reach (sMutex ids adaptive) ok init c) :
    ¬ (c.shared.state.value = unlocked ∧ ∃ t ∈ c.shared.state.waiters,
      ∀ u, u ≠ t → c.pcs u = none ∨ u ∈ c.shared.state.waiters) := by
  rintro ⟨hfree, t, ht, hall⟩
  rcases (reach_covered hc).covered ⟨t, ht⟩ with hv | ⟨u, p, hp, -, hu⟩
  · exact hv hfree
  · rcases hall u (ne_of_mem_of_not_mem ht hu).symm with hn | hm
    · rw [hn] at hp
      cases hp
    · exact hu hm

end Runs

/-- Three threads with the numbers `1`, `2` and `3`. -/
def threeIds : ThreadIds (Fin 3) where
  id t := t.val + 1
  injective := by decide
  ne_zero := by decide

/-- Thread `t` locks; threads `u` and `v` go to sleep in `lock_group`. -/
def twoAsleep {ι : Type*} (t u v : ι) : List (Label ι Op) :=
  (.call t .lock :: List.replicate 4 (.exec t .go)) ++
  (.call u .lockGroup :: List.replicate 4 (.exec u .go)) ++
  (.call v .lockGroup :: List.replicate 4 (.exec v .go))

/-- Two threads sleep while the lock is held. -/
theorem never_sleeps_on_free_held :
    ∃ c : Config (Fin 3) (Store (Fin 3)) Pc, Reach (sMutex threeIds 4) Always init c ∧
      c.shared.state.waiters = {1, 2} ∧
      ¬ (c.shared.state.value = unlocked ∧ ∃ t ∈ c.shared.state.waiters,
        ∀ u, u ≠ t → c.pcs u = none ∨ u ∈ c.shared.state.waiters) := by
  obtain ⟨c, hc, ht⟩ := Reach.exists_of_replay (sMutex threeIds 4) Always
    (init : Config (Fin 3) (Store (Fin 3)) Pc) (twoAsleep 0 1 2)
    (fun c ↦ decide (c.shared.state.waiters = {1, 2})) (by decide +kernel)
  exact ⟨c, hc, of_decide_eq_true ht, never_sleeps_on_free hc⟩

/-! ### Groups

The same for a group, under the condition that a wake leaves no member asleep. -/

/-- A thread inside `lock_group` sleeps. -/
def GroupSleeps (c : Config ι (Store ι) Pc) (t : ι) : Prop :=
  c.pcs t = some .groupParked ∧ t ∈ c.shared.state.waiters

instance (c : Config ι (Store ι) Pc) (t : ι) : Decidable (GroupSleeps c t) := by
  unfold GroupSleeps
  infer_instance

/-- A wake that is made while the lock is not exclusive, and that no other wake follows, leaves no
thread of `lock_group` asleep. -/
def LetsIn (c : Config ι (Store ι) Pc) : Label ι Op → Prop
  | .call _ _ => True
  | .exec t ch => c.pcs t = some .wake →
    c.shared.state.value &&& locked ≠ 0 ∨ (∃ u, u ≠ t ∧ c.pcs u = some .wake) ∨
      ∀ u, GroupSleeps c u → ch = .pick u

instance (c : Config ι (Store ι) Pc) (l : Label ι Op) : Decidable (LetsIn c l) := by
  unfold LetsIn
  split <;> infer_instance

/-- **A sleeping thread of `lock_group` is waiting for the exclusive thread**, or a wake is due. -/
def Expected (c : Config ι (Store ι) Pc) : Prop :=
  ∀ t, GroupSleeps c t → c.shared.state.value &&& locked ≠ 0 ∨ ∃ u, c.pcs u = some .wake

section Groups

variable {h : Option ι} {c : Config ι (Store ι) Pc} {t : ι} {ch : Choice ι} {s' : Store ι} {p : Pc}
  {o : Outcome Pc Ret}

omit [Fintype ι] in
/-- A step that keeps the bit, wakes nobody, and does not put a thread of `lock_group` to sleep
unless the bit is set. -/
theorem Expected.put (hX : Expected c) (hpc : c.pcs t = some p) (hp : p ≠ .wake)
    (hsub : ∀ u, u ≠ t → u ∈ s'.state.waiters → u ∈ c.shared.state.waiters)
    (hbit : c.shared.state.value &&& locked ≠ 0 → s'.state.value &&& locked ≠ 0 ∨ o.pc = some .wake)
    (hself : o.pc = some .groupParked → s'.state.value &&& locked ≠ 0) :
    Expected (c.put t (s', o)) := by
  rintro u ⟨hu, hmem⟩
  by_cases hut : u = t
  · subst hut
    rw [Config.put_pcs_self] at hu
    exact Or.inl (hself hu)
  · rw [Config.put_pcs_of_ne _ _ hut] at hu
    rcases hX u ⟨hu, hsub u hut hmem⟩ with hb | ⟨w, hw⟩
    · rcases hbit hb with hb' | hq
      · exact Or.inl hb'
      · exact Or.inr ⟨t, by rw [Config.put_pcs_self]; exact hq⟩
    · have hwt : w ≠ t := by
        rintro rfl
        rw [hpc] at hw
        exact hp (Option.some.inj hw)
      exact Or.inr ⟨w, by rw [Config.put_pcs_of_ne _ _ hwt]; exact hw⟩

omit [Fintype ι] in
/-- The wake itself. -/
theorem expected_wake (hpc : c.pcs t = some .wake) (hok : LetsIn c (.exec t ch))
    {f : Futex ι ℕ} (hf : c.shared.state.wakeOne ch = some f) :
    Expected (c.put t ({ c.shared with state := f }, (.ret .unit : Outcome Pc Ret))) := by
  have hval := Futex.wakeOne_value hf
  rintro u ⟨hu, hmem⟩
  replace hu := Config.pcs_of_put (by simp) hu
  have hmem' : u ∈ c.shared.state.waiters ∧ ch ≠ .pick u := by
    cases ch with
    | pick v =>
      simp only [Futex.wakeOne] at hf
      split_ifs at hf
      cases hf
      refine ⟨Finset.mem_of_mem_erase hmem, ?_⟩
      rintro ⟨⟩
      exact Finset.notMem_erase u _ hmem
    | _ =>
      simp only [Futex.wakeOne] at hf
      split_ifs at hf
      cases hf
      exact ⟨hmem, by simp⟩
  rcases hok hpc with hb | ⟨w, hw, hwake⟩ | hall
  · exact Or.inl (by rw [Config.put_shared]; show f.value &&& locked ≠ 0; rw [hval]; exact hb)
  · exact Or.inr ⟨w, by rw [Config.put_pcs_of_ne _ _ hw]; exact hwake⟩
  · exact absurd (hall u ⟨hu, hmem'.1⟩) hmem'.2

theorem groupLoop_ne (v : ℕ) : groupLoop v ≠ .groupParked := by
  unfold groupLoop
  split_ifs <;> simp

theorem exec_expected (hX : Expected c) (hE : Exact ids h c) (hpc : c.pcs t = some p)
    (hok : LetsIn c (.exec t ch)) (he : exec ids adaptive t ch c.shared p = some (s', o)) :
    Expected (c.put t (s', o)) := by
  have hsame : s'.state = c.shared.state → p ≠ .wake → o.pc ≠ some .groupParked →
      Expected (c.put t (s', o)) := fun hs hp ho ↦
    hX.put hpc hp (fun u _ hu ↦ by rwa [hs] at hu) (fun hb ↦ Or.inl (by rwa [hs])) fun hq ↦
      absurd hq ho
  cases p with
  | lockCas spin =>
    simp only [exec] at he
    split at he
    · rename_i w hcas
      cases he
      obtain ⟨-, rfl⟩ := casWeak_eq_ok hcas
      exact hX.put hpc (by simp) (fun u _ hu ↦ hu)
        (fun _ ↦ Or.inl (by simp [Store.setState, locked]))
        (by rintro ⟨⟩)
    · split_ifs at he
      all_goals
        cases he
        exact hsame rfl (by simp) (by rintro ⟨⟩)
  | lockWait spin v =>
    simp only [exec] at he
    split at he
    · rename_i f hf
      cases he
      obtain ⟨-, rfl⟩ := Futex.wait_eq_some hf
      refine hX.put hpc (by simp) (fun u hut hu ↦ ?_) (fun hb ↦ Or.inl hb) (by rintro ⟨⟩)
      exact (Finset.mem_insert.1 hu).resolve_left hut
    · cases he
      exact hsame rfl (by simp) (by rintro ⟨⟩)
  | groupCas v =>
    simp only [exec] at he
    split_ifs at he
    · split at he
      · rename_i w hcas
        cases he
        obtain ⟨hv, rfl⟩ := casWeak_eq_ok hcas
        refine hX.put hpc (by simp) (fun u _ hu ↦ hu) (fun hb ↦ Or.inl ?_) (by rintro ⟨⟩)
        -- joining the group keeps the bit
        rw [hv] at hb
        simp only [Store.setState, oneGroup, locked, Nat.and_one_is_mod] at hb ⊢
        omega
      · cases he
        refine hsame rfl (by simp) ?_
        intro hq
        exact groupLoop_ne _ (Option.some.inj hq)
    · cases he
      exact hsame rfl (by simp) (by rintro ⟨⟩)
  | groupLoad =>
    cases he
    refine hsame rfl (by simp) ?_
    intro hq
    exact groupLoop_ne _ (Option.some.inj hq)
  | groupWait =>
    simp only [exec] at he
    split at he
    · rename_i f hf
      cases he
      obtain ⟨hv, rfl⟩ := Futex.wait_eq_some hf
      refine hX.put hpc (by simp) (fun u hut hu ↦ ?_) (fun hb ↦ Or.inl hb) fun _ ↦ ?_
      · exact (Finset.mem_insert.1 hu).resolve_left hut
      · show c.shared.state.value &&& locked ≠ 0
        rw [hv]
        decide
    · cases he
      exact hsame rfl (by simp) (by rintro ⟨⟩)
  | lockParked spin | groupParked =>
    simp only [exec] at he
    split at he
    · rename_i f hf
      cases he
      obtain ⟨hv, hw⟩ := Futex.resume_eq_some hf
      refine hX.put hpc (by simp) (fun u hut hu ↦ ?_) (fun hb ↦ Or.inl ?_) (by rintro ⟨⟩)
      · have hu' : u ∈ f.waiters := hu
        rw [hw] at hu'
        exact Finset.mem_of_mem_erase hu'
      · show f.value &&& locked ≠ 0
        rwa [hv]
    · cases he
  | clearState =>
    cases he
    exact hX.put hpc (by simp) (fun u _ hu ↦ hu) (fun _ ↦ Or.inr rfl) (by rintro ⟨⟩)
  | unlockGroupSub =>
    -- the new word stands for itself: its arithmetic is used only at the end
    obtain ⟨w, hw⟩ : ∃ w, w = (c.shared.state.value + 2 ^ 32 - oneGroup) % 2 ^ 32 := ⟨_, rfl⟩
    simp only [exec, ← hw, Option.some.injEq, Prod.mk.injEq] at he
    obtain ⟨rfl, rfl⟩ := he
    refine hX.put hpc (by simp) (fun u _ hu ↦ hu) (fun hb ↦ Or.inl ?_) ?_
    · have hbound := hE.bound
      show w &&& locked ≠ 0
      simp only [oneGroup, locked, Nat.and_one_is_mod] at hb hw ⊢
      omega
    · split_ifs
      all_goals rintro ⟨⟩
  | wake =>
    simp only [exec] at he
    split at he
    · rename_i f hf
      cases he
      exact expected_wake hpc hok hf
    · cases he
  | unlockRecursion b =>
    cases he
    refine hsame (by cases b <;> rfl) (by simp) ?_
    split_ifs
    all_goals rintro ⟨⟩
  | _ =>
    simp only [exec] at he
    repeat' split at he
    all_goals cases he
    all_goals exact hsame rfl (by simp) (by rintro ⟨⟩)

theorem reach_expected (hc : Reach (sMutex ids adaptive) LetsIn init c) : Expected c := by
  refine hc.invariant (I := Expected) ?_ ?_ ?_
  · rintro t ⟨ht, -⟩
    cases ht
  · rintro c t op ⟨s', o⟩ - hX - hpc he u ⟨hu, hmem⟩
    obtain ⟨q, rfl, rfl, hq⟩ : ∃ q, o = .goto q ∧ s' = c.shared ∧ q ≠ .groupParked := by
      cases op with
      | lock | lockGroup =>
        cases he
        exact ⟨_, rfl, rfl, by simp⟩
      | rawUnlock | rawUnlockGroup =>
        simp only [sMutex, enter] at he
        split_ifs at he
        cases he
        exact ⟨_, rfl, rfl, by simp⟩
    have hut : u ≠ t := by
      rintro rfl
      rw [Config.put_pcs_self] at hu
      exact hq (Option.some.inj hu)
    rw [Config.put_pcs_of_ne _ _ hut] at hu
    refine (hX u ⟨hu, hmem⟩).imp_right ?_
    rintro ⟨w, hw⟩
    have hwt : w ≠ t := by
      rintro rfl
      rw [hpc] at hw
      cases hw
    exact ⟨w, by rw [Config.put_pcs_of_ne _ _ hwt]; exact hw⟩
  · rintro c t ch p ⟨s', o⟩ hr hX hok hpc he
    obtain ⟨h, hE⟩ := reach_exact hr
    exact exec_expected hX hE hpc hok he

/-- **Every waiting group is let in once the exclusive thread is gone**, in the runs in which a wake
made while the lock is not exclusive leaves no thread of `lock_group` asleep: nobody sleeps in
`lock_group` beside a word without `LOCKED` while every other thread is outside or asleep. -/
theorem admits_waiting_groups (hc : Reach (sMutex ids adaptive) LetsIn init c) :
    ¬ (c.shared.state.value &&& locked = 0 ∧ ∃ t, GroupSleeps c t ∧
      ∀ u, u ≠ t → c.pcs u = none ∨ u ∈ c.shared.state.waiters) := by
  rintro ⟨hbit, t, ht, hall⟩
  rcases reach_expected hc t ht with hb | ⟨u, hu⟩
  · exact hb hbit
  · have hut : u ≠ t := by
      rintro rfl
      rw [ht.1] at hu
      cases hu
    rcases hall u hut with hn | hm
    · rw [hn] at hu
      cases hu
    · obtain ⟨p, hp, hpark⟩ := (reach_covered hc).asleep u hm
      rw [hu] at hp
      cases hp
      cases hpark

end Groups

/-- **A thread of a group is left asleep.** Thread `0` is exclusive and two threads sleep in
`lock_group`; the release wakes thread `1`, which joins the group and returns with its guard. Thread
`2` sleeps on, and nobody is inside a call. -/
theorem group_left_asleep :
    ∃ c : Config (Fin 3) (Store (Fin 3)) Pc, Reach (sMutex threeIds 4) Always init c ∧
      c.shared.state.value &&& locked = 0 ∧ ∃ t, GroupSleeps c t ∧
        ∀ u, u ≠ t → c.pcs u = none ∨ u ∈ c.shared.state.waiters := by
  obtain ⟨c, hc, ht⟩ := Reach.exists_of_replay (sMutex threeIds 4) Always
    (init : Config (Fin 3) (Store (Fin 3)) Pc)
    (twoAsleep 0 1 2 ++ (.call 0 .rawUnlock :: List.replicate 4 (.exec 0 .go)) ++
      [.exec 0 (.pick 1), .exec 1 .go, .exec 1 .go, .exec 1 .go, .exec 1 .go])
    (fun c ↦ decide (c.shared.state.value &&& locked = 0 ∧ ∃ t, GroupSleeps c t ∧
      ∀ u, u ≠ t → c.pcs u = none ∨ u ∈ c.shared.state.waiters)) (by decide +kernel)
  exact ⟨c, hc, of_decide_eq_true ht⟩

/-- One thread of `lock_group` sleeps and is let in. -/
theorem admits_waiting_groups_one :
    ∃ c : Config (Fin 3) (Store (Fin 3)) Pc, Reach (sMutex threeIds 4) LetsIn init c ∧
      c.shared.state.value = 2 ∧
      ¬ (c.shared.state.value &&& locked = 0 ∧ ∃ t, GroupSleeps c t ∧
        ∀ u, u ≠ t → c.pcs u = none ∨ u ∈ c.shared.state.waiters) := by
  obtain ⟨c, hc, ht⟩ := Reach.exists_of_replay (sMutex threeIds 4) LetsIn
    (init : Config (Fin 3) (Store (Fin 3)) Pc)
    ((.call 0 .lock :: List.replicate 4 (.exec 0 .go)) ++
      (.call 1 .lockGroup :: List.replicate 4 (.exec 1 .go)) ++
      (.call 0 .rawUnlock :: List.replicate 4 (.exec 0 .go)) ++
      [.exec 0 (.pick 1), .exec 1 .go, .exec 1 .go, .exec 1 .go, .exec 1 .go])
    (fun c ↦ decide (c.shared.state.value = 2)) (by decide +kernel)
  exact ⟨c, hc, of_decide_eq_true ht, admits_waiting_groups hc⟩

end SMutex

end Crossync
