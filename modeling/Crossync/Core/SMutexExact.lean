import Mathlib.Algebra.Group.Pi.Lemmas
import Crossync.Core.SMutex

/-!
# Who holds an `SMutex`

At most one thread *holds the word*: from the compare-exchange that locks it to the store that
unlocks it. While it does, `state` is `LOCKED` and nobody is in the group; `owner` is its number,
except right after the first and right before the last of these accesses; and `recursion` counts its
guards. While nobody does, `state` is twice the size of the group (`Exact`).

What a call relies on is only how many guards its own thread has (`Knows`), so no step of another
thread interferes with it.

## Three places where the fields disagree

`state`, `owner` and `recursion` are three words, written one after the other. They disagree after
the compare-exchange that takes the lock, before the store that unlocks it, and while a nested guard
is counted. All three are program points of the thread that holds the word, so the invariant gives
the holder its own clause (`Exact`) and everybody else the plain one.

## What the owner field is good for

A thread compares it with its own number, and acts on equality only. If it is equal the thread is
the holder, since nobody else writes that number; if it is not, the thread is not. A stale value of
another thread decides nothing. This is why the loads of `owner` need no lock.
-/

open Interleave

namespace Crossync

namespace SMutex

variable {ι : Type*} [Fintype ι] [DecidableEq ι] {ids : ThreadIds ι} {adaptive : ℕ}

/-! ### The invariant

One thread may be between the compare-exchange and the store of its number, and one between clearing
its number and the store that unlocks; in both places the word says "locked" and the owner field
says nothing. -/

/-- The thread holds the word without a guard: it is about to get its first one, or has dropped its
last one. -/
def holding : Option Pc → Bool
  | some .storeOwner | some .storeRecursion | some .clearOwner | some .clearState => true
  | _ => false

/-- The word `owner` has been stored, if the thread holds `state`. -/
def owning : Option Pc → Bool
  | some .storeOwner | some .clearState => false
  | _ => true

/-- The word `recursion` counts the guards, if the thread holds `state`. -/
def counting : Option Pc → Bool
  | some .storeOwner | some .storeRecursion => false
  | _ => true

/-- The guards of a thread that `recursion` counts. -/
def Store.guards (s : Store ι) (t : ι) : ℕ := s.exclusives t + s.nested t

/-- What a thread knows about its own guards. -/
def Knows (s : Store ι) (t : ι) : Pc → Prop
  | .storeOwner | .storeRecursion | .clearOwner | .clearState => s.guards t = 0
  | .lockNested | .groupNested => 0 < s.guards t
  | .unlockOwner | .unlockRecursion false => 0 < s.exclusives t
  | .unlockRecursion true => 0 < s.nested t
  | .unlockGroupOwner => 0 < s.nested t + s.groups t
  | .unlockGroupSub => 0 < s.groups t
  | .groupCas state => state % 2 = 0
  | _ => True

omit [Fintype ι] [DecidableEq ι] in
/-- What a call relies on depends on its own thread's guards only. -/
theorem Knows.mono {s s' : Store ι} {t : ι} {p : Pc} (h : Knows s t p)
    (he : s'.exclusives t = s.exclusives t) (hn : s'.nested t = s.nested t)
    (hg : s'.groups t = s.groups t) : Knows s' t p := by
  have hguards : s'.guards t = s.guards t := by rw [Store.guards, Store.guards, he, hn]
  cases p with
  | storeOwner | storeRecursion | clearOwner | clearState => exact hguards.trans h
  | lockNested | groupNested => exact lt_of_lt_of_eq h hguards.symm
  | unlockOwner => exact lt_of_lt_of_eq h he.symm
  | unlockRecursion b =>
    cases b with
    | false => exact lt_of_lt_of_eq h he.symm
    | true => exact lt_of_lt_of_eq h hn.symm
  | unlockGroupOwner =>
    rw [Knows, hn, hg]
    exact h
  | unlockGroupSub => exact lt_of_lt_of_eq h hg.symm
  | _ => exact h

/-- **The three words agree on the holder** `h` of the word, if there is one. -/
structure Exact (ids : ThreadIds ι) (h : Option ι) (c : Config ι (Store ι) Pc) : Prop where
  locked : ∀ t, h = some t → c.shared.state.value = 1 ∧ ∀ u, c.shared.groups u = 0
  free : h = none → c.shared.state.value = 2 * tally c.shared.groups
  bound : c.shared.state.value < 2 ^ 32
  holder : ∀ t, (holding (c.pcs t) = true ∨ 0 < c.shared.guards t) ↔ h = some t
  owner : ∀ t, c.shared.owner = ids.id t ↔ h = some t ∧ owning (c.pcs t) = true
  nobody : c.shared.owner ≠ 0 → ∃ t, c.shared.owner = ids.id t
  recursion : ∀ t, h = some t → counting (c.pcs t) = true →
    c.shared.recursion = c.shared.guards t
  knows : ∀ t p, c.pcs t = some p → Knows c.shared t p

section Steps

variable {h h' : Option ι} {c : Config ι (Store ι) Pc} {t : ι} {ch : Choice ι} {s' : Store ι}
  {p : Pc} {o : Outcome Pc Ret}

/-- What a step of `t` leaves to the other threads. -/
structure Keeps (t : ι) (s s' : Store ι) : Prop where
  exclusives : ∀ u, u ≠ t → s'.exclusives u = s.exclusives u
  nested : ∀ u, u ≠ t → s'.nested u = s.nested u
  groups : ∀ u, u ≠ t → s'.groups u = s.groups u

omit [Fintype ι] [DecidableEq ι] in
theorem Keeps.of_eq {s : Store ι} (he : s'.exclusives = s.exclusives) (hn : s'.nested = s.nested)
    (hg : s'.groups = s.groups) : Keeps t s s' :=
  ⟨fun _ _ ↦ by rw [he], fun _ _ ↦ by rw [hn], fun _ _ ↦ by rw [hg]⟩

omit [Fintype ι] [DecidableEq ι] in
theorem Keeps.guards {s : Store ι} (hk : Keeps t s s') {u : ι} (hu : u ≠ t) :
    s'.guards u = s.guards u := by
  rw [Store.guards, Store.guards, hk.exclusives u hu, hk.nested u hu]

/-- **A step keeps the agreement** if the words agree on the new holder, the holder changes only
between nobody and the moving thread, and the moving thread is where the words say. -/
theorem Exact.put (hE : Exact ids h c) (hk : Keeps t c.shared s')
    (hh : ∀ u, u ≠ t → (h' = some u ↔ h = some u))
    (hlocked : ∀ u, h' = some u → s'.state.value = 1 ∧ ∀ u, s'.groups u = 0)
    (hfree : h' = none → s'.state.value = 2 * tally s'.groups) (hbound : s'.state.value < 2 ^ 32)
    (hholder : (holding o.pc = true ∨ 0 < s'.guards t) ↔ h' = some t)
    (howner : s'.owner = ids.id t ↔ h' = some t ∧ owning o.pc = true)
    (howner' : s'.owner = c.shared.owner ∨ (s'.owner = ids.id t ∨ s'.owner = 0) ∧
      ∀ u, u ≠ t → h ≠ some u)
    (hrec : h' = some t → counting o.pc = true → s'.recursion = s'.guards t)
    (hrec' : s'.recursion = c.shared.recursion ∨ h' = some t ∨ h' = none)
    (hq : ∀ q, o.pc = some q → Knows s' t q) : Exact ids h' (c.put t (s', o)) where
  locked := hlocked
  free := hfree
  bound := hbound
  holder u := by
    by_cases hu : u = t
    · subst hu
      rw [Config.put_pcs_self]
      exact hholder
    · rw [Config.put_pcs_of_ne _ _ hu, Config.put_shared, hk.guards hu, hh u hu]
      exact hE.holder u
  owner u := by
    by_cases hu : u = t
    · subst hu
      rw [Config.put_pcs_self]
      exact howner
    · rw [Config.put_pcs_of_ne _ _ hu, Config.put_shared, hh u hu]
      rcases howner' with ho | ⟨ho, hno⟩
      · rw [ho]
        exact hE.owner u
      · refine ⟨fun he ↦ ?_, fun he ↦ absurd he.1 (hno u hu)⟩
        rcases ho with ho | ho
        · exact absurd (ids.injective (he.symm.trans ho)) hu
        · exact absurd (he.symm.trans ho) (ids.ne_zero u)
  nobody hne := by
    rcases howner' with ho | ⟨ho | ho, -⟩
    · rw [Config.put_shared, ho] at hne ⊢
      exact hE.nobody hne
    · exact ⟨t, ho⟩
    · exact absurd ho hne
  recursion u hu hc := by
    by_cases hut : u = t
    · subst hut
      rw [Config.put_pcs_self] at hc
      exact hrec hu hc
    · rw [Config.put_pcs_of_ne _ _ hut] at hc
      have hold := (hh u hut).1 hu
      rw [Config.put_shared, hk.guards hut, ← hE.recursion u hold hc]
      rcases hrec' with hr | hr | hr
      · exact hr
      · rw [hu] at hr
        exact absurd (Option.some.inj hr) hut
      · rw [hu] at hr
        cases hr
  knows := Config.forall_put (L := fun u s q ↦ Knows s u q) hq fun u q hu hq ↦
    (hE.knows u q hq).mono (hk.exclusives u hu) (hk.nested u hu) (hk.groups u hu)

/-- A step that changes no word and no guard. -/
theorem Exact.put_same (hE : Exact ids h c) (hpc : c.pcs t = some p)
    (hs : s'.state.value = c.shared.state.value ∧ s'.owner = c.shared.owner ∧
      s'.recursion = c.shared.recursion) (he : s'.exclusives = c.shared.exclusives)
    (hn : s'.nested = c.shared.nested) (hg : s'.groups = c.shared.groups)
    (hp : holding (some p) = false ∧ owning (some p) = true ∧ counting (some p) = true)
    (ho : holding o.pc = false ∧ owning o.pc = true ∧ counting o.pc = true)
    (hq : ∀ q, o.pc = some q → Knows s' t q) : Exact ids h (c.put t (s', o)) := by
  have hguards : s'.guards t = c.shared.guards t := by rw [Store.guards, Store.guards, he, hn]
  refine hE.put (.of_eq he hn hg) (fun _ _ ↦ Iff.rfl) ?_ ?_ ?_ ?_ ?_ (Or.inl hs.2.1) ?_
    (Or.inl hs.2.2) hq
  · rw [hs.1, hg]
    exact hE.locked
  · rw [hs.1, hg]
    exact hE.free
  · rw [hs.1]
    exact hE.bound
  · rw [hguards, ho.1, ← hE.holder t, hpc, hp.1]
  · rw [hs.2.1, ho.2.1, hE.owner t, hpc, hp.2.1]
  · intro hh _
    rw [hs.2.2, hguards]
    exact hE.recursion t hh (by rw [hpc]; exact hp.2.2)

omit [DecidableEq ι] in
/-- A thread with a guard that `recursion` counts is the holder. -/
theorem Exact.holder_of_guards (hE : Exact ids h c) (hg : 0 < c.shared.guards t) : h = some t :=
  (hE.holder t).1 (Or.inr hg)

omit [Fintype ι] in
/-- A guard gained is the thread's own. -/
theorem keeps_gain (s : Store ι) (b : Bool) (n : ℕ) :
    Keeps t s ({ s with recursion := n }.gain t b) := by
  cases b
  · exact ⟨fun u hu ↦ Function.update_of_ne hu _ _, fun _ _ ↦ rfl, fun _ _ ↦ rfl⟩
  · exact ⟨fun _ _ ↦ rfl, fun u hu ↦ Function.update_of_ne hu _ _, fun _ _ ↦ rfl⟩

omit [Fintype ι] in
/-- A guard given back is the thread's own. -/
theorem keeps_lose (s : Store ι) (b : Bool) (n : ℕ) :
    Keeps t s ({ s with recursion := n }.lose t b) := by
  cases b
  · exact ⟨fun u hu ↦ Function.update_of_ne hu _ _, fun _ _ ↦ rfl, fun _ _ ↦ rfl⟩
  · exact ⟨fun _ _ ↦ rfl, fun u hu ↦ Function.update_of_ne hu _ _, fun _ _ ↦ rfl⟩

omit [Fintype ι] in
/-- Gaining a guard makes one more. -/
theorem guards_gain (s : Store ι) (b : Bool) (n : ℕ) :
    ({ s with recursion := n }.gain t b).guards t = s.guards t + 1 := by
  cases b <;> simp [Store.gain, Store.guards] <;> omega

omit [Fintype ι] in
/-- Giving a guard back makes one less. -/
theorem guards_lose (s : Store ι) (b : Bool) (n : ℕ)
    (hb : 0 < if b then s.nested t else s.exclusives t) :
    ({ s with recursion := n }.lose t b).guards t + 1 = s.guards t := by
  cases b <;> simp [Store.lose, Store.guards] at hb ⊢ <;> omega

/-- A further guard of the holder. -/
theorem Exact.gain (hE : Exact ids h c) (b : Bool) (n : ℕ) (hh : h = some t)
    (hown : c.shared.owner = ids.id t) (hn : n = c.shared.guards t + 1) :
    Exact ids h (c.put t ({ c.shared with recursion := n }.gain t b,
      (.ret (.guard b) : Outcome Pc Ret))) := by
  have hkeep := keeps_gain (t := t) c.shared b n
  have hguards := guards_gain (t := t) c.shared b n
  have hw : ({ c.shared with recursion := n }.gain t b).state = c.shared.state ∧
      ({ c.shared with recursion := n }.gain t b).owner = c.shared.owner ∧
      ({ c.shared with recursion := n }.gain t b).groups = c.shared.groups ∧
      ({ c.shared with recursion := n }.gain t b).recursion = n := by
    cases b <;> exact ⟨rfl, rfl, rfl, rfl⟩
  obtain ⟨hs, ho, hg, hr⟩ := hw
  refine hE.put hkeep (fun _ _ ↦ Iff.rfl) ?_ ?_ ?_ ?_ ?_ (Or.inl ho) ?_
    (Or.inr (Or.inl hh)) (by simp)
  · rw [hs, hg]
    exact hE.locked
  · rw [hs, hg]
    exact hE.free
  · rw [hs]
    exact hE.bound
  · rw [hguards]
    exact ⟨fun _ ↦ hh, fun _ ↦ Or.inr (Nat.succ_pos _)⟩
  · rw [ho]
    exact ⟨fun _ ↦ ⟨hh, rfl⟩, fun _ ↦ hown⟩
  · intro _ _
    rw [hr, hguards, hn]

/-- A guard of the holder is dropped; the word is held on to until the two other words are
cleared. -/
theorem Exact.lose (hE : Exact ids h c) {b : Bool} (hpc : c.pcs t = some (.unlockRecursion b)) :
    Exact ids h (c.put t ({ c.shared with recursion := c.shared.recursion - 1 }.lose t b,
      (if 1 < c.shared.recursion then .ret .unit else .goto .clearOwner : Outcome Pc Ret))) := by
  have hb : 0 < if b then c.shared.nested t else c.shared.exclusives t := by
    have := hE.knows t _ hpc
    cases b <;> exact this
  have hkeep := keeps_lose (t := t) c.shared b (c.shared.recursion - 1)
  have hguards := guards_lose c.shared b (c.shared.recursion - 1) hb
  have hh : h = some t := hE.holder_of_guards (by omega)
  have hrec := hE.recursion t hh (by rw [hpc]; rfl)
  have hown := (hE.owner t).2 ⟨hh, by rw [hpc]; rfl⟩
  have hw : ({ c.shared with recursion := c.shared.recursion - 1 }.lose t b).state =
        c.shared.state ∧
      ({ c.shared with recursion := c.shared.recursion - 1 }.lose t b).owner = c.shared.owner ∧
      ({ c.shared with recursion := c.shared.recursion - 1 }.lose t b).groups = c.shared.groups ∧
      ({ c.shared with recursion := c.shared.recursion - 1 }.lose t b).recursion =
        c.shared.recursion - 1 := by
    cases b <;> exact ⟨rfl, rfl, rfl, rfl⟩
  generalize { c.shared with recursion := c.shared.recursion - 1 }.lose t b = s'
    at hkeep hguards hw ⊢
  obtain ⟨hs, ho, hg, hr⟩ := hw
  refine hE.put hkeep (fun _ _ ↦ Iff.rfl) ?_ ?_ ?_ ?_ ?_ (Or.inl ho) ?_ (Or.inr (Or.inl hh)) ?_
  · rw [hs, hg]
    exact hE.locked
  · rw [hs, hg]
    exact hE.free
  · rw [hs]
    exact hE.bound
  · refine ⟨fun _ ↦ hh, fun _ ↦ ?_⟩
    split_ifs
    · exact Or.inr (by omega)
    · exact Or.inl rfl
  · rw [ho]
    exact ⟨fun _ ↦ ⟨hh, by split_ifs <;> rfl⟩, fun _ ↦ hown⟩
  · intro _ _
    rw [hr]
    omega
  · intro q hq
    split_ifs at hq
    · cases hq
    · cases hq
      show s'.guards t = 0
      omega

omit [DecidableEq ι] in
/-- Nobody holds a word that is not `LOCKED`. -/
theorem Exact.nobody_of_even (hE : Exact ids h c) (hev : c.shared.state.value % 2 = 0) :
    h = none := by
  cases h with
  | none => rfl
  | some t =>
    have := (hE.locked t rfl).1
    omega

/-- The word is locked. -/
theorem Exact.acquire (hE : Exact ids h c) (hfree : c.shared.state.value = 0) :
    Exact ids (some t) (c.put t (c.shared.setState 1, (.goto .storeOwner : Outcome Pc Ret))) := by
  obtain rfl := hE.nobody_of_even (by omega)
  have hgroups : ∀ u, c.shared.groups u = 0 := by
    refine tally_eq_zero_iff.1 ?_
    have := hE.free rfl
    omega
  have hguards : ∀ u, c.shared.guards u = 0 := by
    intro u
    by_contra hne
    cases hE.holder_of_guards (t := u) (by omega)
  have hother : ∀ u, u ≠ t → (some t = some u ↔ none = some u) := fun u hu ↦
    ⟨fun he ↦ absurd (Option.some.inj he).symm hu, fun he ↦ by cases he⟩
  refine hE.put (.of_eq rfl rfl rfl) hother (fun _ _ ↦ ⟨rfl, hgroups⟩)
    (fun he ↦ by cases he) ?_ ?_ ?_
    (Or.inl rfl) ?_ (Or.inl rfl) ?_
  · simp [Store.setState]
  · exact ⟨fun _ ↦ rfl, fun _ ↦ Or.inl rfl⟩
  · refine ⟨fun he ↦ ?_, fun he ↦ by cases he.2⟩
    cases ((hE.owner t).1 he).1
  · intro _ hc
    cases hc
  · rintro q ⟨⟩
    exact hguards t

/-- The store of the owner's number completes an acquisition. -/
theorem Exact.storeOwner (hE : Exact ids h c) (hpc : c.pcs t = some .storeOwner) :
    Exact ids h (c.put t ({ c.shared with owner := ids.id t },
      (.goto .storeRecursion : Outcome Pc Ret))) := by
  have hh : h = some t := (hE.holder t).1 (Or.inl (by rw [hpc]; rfl))
  have hknow := hE.knows t _ hpc
  refine hE.put (.of_eq rfl rfl rfl) (fun _ _ ↦ Iff.rfl) hE.locked hE.free hE.bound
    ⟨fun _ ↦ hh, fun _ ↦ Or.inl rfl⟩ ⟨fun _ ↦ ⟨hh, rfl⟩, fun _ ↦ rfl⟩
    (Or.inr ⟨Or.inl rfl, ?_⟩) ?_ (Or.inl rfl) ?_
  · rintro u hu rfl
    exact hu (Option.some.inj hh)
  · intro _ hc
    cases hc
  · rintro q ⟨⟩
    exact hknow

/-- Clearing the owner's number begins a release. -/
theorem Exact.clearOwner (hE : Exact ids h c) (hpc : c.pcs t = some .clearOwner) :
    Exact ids h (c.put t ({ c.shared with owner := 0 }, (.goto .clearState : Outcome Pc Ret))) := by
  have hh : h = some t := (hE.holder t).1 (Or.inl (by rw [hpc]; rfl))
  have hknow := hE.knows t _ hpc
  refine hE.put (.of_eq rfl rfl rfl) (fun _ _ ↦ Iff.rfl) hE.locked hE.free hE.bound
    ⟨fun _ ↦ hh, fun _ ↦ Or.inl rfl⟩
      ⟨fun he ↦ absurd he.symm (ids.ne_zero t), fun he ↦ by cases he.2⟩
    (Or.inr ⟨Or.inr rfl, ?_⟩) ?_ (Or.inl rfl) ?_
  · rintro u hu rfl
    exact hu (Option.some.inj hh)
  · intro _ _
    exact hE.recursion t hh (by rw [hpc]; rfl)
  · rintro q ⟨⟩
    exact hknow

/-- The word is unlocked. -/
theorem Exact.clearState (hE : Exact ids h c) (hpc : c.pcs t = some .clearState) :
    Exact ids none (c.put t (c.shared.setState 0, (.goto .wake : Outcome Pc Ret))) := by
  have hh : h = some t := (hE.holder t).1 (Or.inl (by rw [hpc]; rfl))
  have hknow : c.shared.guards t = 0 := hE.knows t _ hpc
  subst hh
  refine hE.put (.of_eq rfl rfl rfl) (fun u hu ↦ ?_) (fun u he ↦ by cases he) (fun _ ↦ ?_) ?_ ?_ ?_
    (Or.inl rfl)
    (fun he ↦ by cases he) (Or.inl rfl) ?_
  · exact ⟨fun he ↦ (by cases he), fun he ↦ absurd (Option.some.inj he).symm hu⟩
  · have := tally_eq_zero_iff.2 (hE.locked t rfl).2
    simp only [Store.setState]
    omega
  · simp [Store.setState]
  · refine ⟨?_, fun he ↦ by cases he⟩
    rintro (he | he)
    · cases he
    · have : (c.shared.setState 0).guards t = 0 := hknow
      omega
  · refine ⟨fun he ↦ ?_, fun he ↦ by cases he.1⟩
    have := ((hE.owner t).1 he).2
    rw [hpc] at this
    cases this
  · rintro q ⟨⟩
    trivial

/-- A further thread in the group. -/
theorem Exact.join (hE : Exact ids h c) {state : ℕ} (hpc : c.pcs t = some (.groupCas state))
    (hs : c.shared.state.value = state) (hlt : state + 2 < 2 ^ 32) :
    Exact ids h (c.put t ({ c.shared.setState (state + 2) with
        groups := Function.update c.shared.groups t (c.shared.groups t + 1) },
      (.ret (.guard true) : Outcome Pc Ret))) := by
  have hev : state % 2 = 0 := hE.knows t _ hpc
  obtain rfl := hE.nobody_of_even (by omega)
  have htally := tally_update c.shared.groups t (c.shared.groups t + 1)
  have hvalue := hE.free rfl
  refine hE.put ⟨fun _ _ ↦ rfl, fun _ _ ↦ rfl, fun u hu ↦ Function.update_of_ne hu _ _⟩
    (fun _ _ ↦ Iff.rfl) (fun u he ↦ by cases he) (fun _ ↦ ?_) hlt ?_ ?_ (Or.inl rfl)
    (fun he ↦ by cases he) (Or.inl rfl) (by simp)
  · simp only [Store.setState]
    omega
  · rw [← hE.holder t, hpc]
    rfl
  · refine (hE.owner t).trans ?_
    rw [hpc]
    rfl

/-- A thread leaves the group. -/
theorem Exact.leave (hE : Exact ids h c) (hpc : c.pcs t = some .unlockGroupSub) :
    oneGroup ≤ c.shared.state.value ∧ Exact ids h (c.put t
      ({ c.shared.setState ((c.shared.state.value + 2 ^ 32 - oneGroup) % 2 ^ 32) with
        groups := Function.update c.shared.groups t (c.shared.groups t - 1) },
      (if c.shared.state.value < oneGroup then .ret .unmatched
        else if c.shared.state.value = oneGroup then .goto .wake else .ret .unit :
        Outcome Pc Ret))) := by
  have hpos : 0 < c.shared.groups t := hE.knows t _ hpc
  obtain rfl : h = none := by
    cases h with
    | none => rfl
    | some u =>
      have := (hE.locked u rfl).2 t
      omega
  have htally := tally_update c.shared.groups t (c.shared.groups t - 1)
  have hle := le_tally c.shared.groups t
  have hvalue := hE.free rfl
  have hbound := hE.bound
  rw [show oneGroup = 2 from rfl]
  have hnew : (c.shared.state.value + 2 ^ 32 - 2) % 2 ^ 32 = c.shared.state.value - 2 := by
    rw [show c.shared.state.value + 2 ^ 32 - 2 = c.shared.state.value - 2 + 2 ^ 32 by omega,
      Nat.add_mod_right]
    exact Nat.mod_eq_of_lt (by omega)
  refine ⟨by omega, ?_⟩
  rw [hnew, if_neg (by omega)]
  refine hE.put ⟨fun _ _ ↦ rfl, fun _ _ ↦ rfl, fun u hu ↦ Function.update_of_ne hu _ _⟩
    (fun _ _ ↦ Iff.rfl) (fun u he ↦ by cases he) (fun _ ↦ ?_) ?_ ?_ ?_ (Or.inl rfl)
    (fun he ↦ by cases he) (Or.inl rfl) ?_
  · simp only [Store.setState]
    omega
  · simp only [Store.setState]
    omega
  · rw [← hE.holder t, hpc]
    split_ifs <;> rfl
  · refine (hE.owner t).trans ?_
    rw [hpc]
    split_ifs <;> rfl
  · intro q hq
    split_ifs at hq <;> cases hq
    trivial

omit [Fintype ι] [DecidableEq ι] in
/-- `lock_group` goes on with an even word, or waits. -/
theorem groupLoop_cases (s : Store ι) (t : ι) (state : ℕ) :
    (holding (some (groupLoop state)) = false ∧ owning (some (groupLoop state)) = true ∧
      counting (some (groupLoop state)) = true) ∧ Knows s t (groupLoop state) := by
  unfold groupLoop
  split_ifs with hev
  · refine ⟨⟨rfl, rfl, rfl⟩, ?_⟩
    rw [Knows, ← Nat.and_one_is_mod]
    exact hev
  · exact ⟨⟨rfl, rfl, rfl⟩, trivial⟩

/-- **The step lemma**: every access keeps the decoding, with the holder before or after it. -/
theorem exec_exact (hE : Exact ids h c) (hpc : c.pcs t = some p)
    (he : exec ids adaptive t ch c.shared p = some (s', o)) :
    ∃ h', Exact ids h' (c.put t (s', o)) := by
  have hknow := hE.knows t p hpc
  -- a step that changes neither a word nor a guard
  have hsame : (s'.state.value = c.shared.state.value ∧ s'.owner = c.shared.owner ∧
      s'.recursion = c.shared.recursion) → s'.exclusives = c.shared.exclusives →
      s'.nested = c.shared.nested → s'.groups = c.shared.groups →
      (holding (some p) = false ∧ owning (some p) = true ∧ counting (some p) = true) →
      (holding o.pc = false ∧ owning o.pc = true ∧ counting o.pc = true) →
      (∀ q, o.pc = some q → Knows s' t q) → ∃ h', Exact ids h' (c.put t (s', o)) :=
    fun h₁ h₂ h₃ h₄ h₅ h₆ h₇ ↦ ⟨h, hE.put_same hpc h₁ h₂ h₃ h₄ h₅ h₆ h₇⟩
  cases p with
  | lockOwner | groupOwner =>
    simp only [exec] at he
    split_ifs at he with ho
    · cases he
      refine hsame ⟨rfl, rfl, rfl⟩ rfl rfl rfl ⟨rfl, rfl, rfl⟩ ⟨rfl, rfl, rfl⟩ ?_
      rintro q ⟨⟩
      -- the owner, outside the accesses that store the words, has a guard
      have hh := ((hE.owner t).1 ho).1
      rcases (hE.holder t).2 hh with hg | hg
      · rw [hpc] at hg
        cases hg
      · exact hg
    · cases he
      refine hsame ⟨rfl, rfl, rfl⟩ rfl rfl rfl ⟨rfl, rfl, rfl⟩ ⟨rfl, rfl, rfl⟩ ?_
      rintro q ⟨⟩
      trivial
  | lockNested | groupNested =>
    cases he
    have hh := hE.holder_of_guards hknow
    refine ⟨h, hE.gain _ _ hh ((hE.owner t).2 ⟨hh, by rw [hpc]; rfl⟩) ?_⟩
    rw [hE.recursion t hh (by rw [hpc]; rfl)]
  | lockCas spin =>
    simp only [exec] at he
    split at he
    · rename_i w hw
      obtain ⟨hfree, rfl⟩ := casWeak_eq_ok hw
      cases he
      exact ⟨some t, hE.acquire hfree⟩
    · split_ifs at he
      all_goals
        cases he
        refine hsame ⟨rfl, rfl, rfl⟩ rfl rfl rfl ⟨rfl, rfl, rfl⟩ ⟨rfl, rfl, rfl⟩ ?_
        rintro q ⟨⟩
        trivial
  | storeOwner =>
    cases he
    exact ⟨h, hE.storeOwner hpc⟩
  | storeRecursion =>
    cases he
    have hh : h = some t := (hE.holder t).1 (Or.inl (by rw [hpc]; rfl))
    refine ⟨h, hE.gain false 1 hh ((hE.owner t).2 ⟨hh, by rw [hpc]; rfl⟩) ?_⟩
    rw [show c.shared.guards t = 0 from hknow]
  | groupCas state =>
    simp only [exec] at he
    split_ifs at he with hlt
    · split at he
      · rename_i w hw
        obtain ⟨hs, rfl⟩ := casWeak_eq_ok hw
        cases he
        exact ⟨h, hE.join hpc hs hlt⟩
      · cases he
        refine hsame ⟨rfl, rfl, rfl⟩ rfl rfl rfl ⟨rfl, rfl, rfl⟩ (groupLoop_cases c.shared t _).1 ?_
        rintro q ⟨⟩
        exact (groupLoop_cases _ t _).2
    · cases he
      exact hsame ⟨rfl, rfl, rfl⟩ rfl rfl rfl ⟨rfl, rfl, rfl⟩ ⟨rfl, rfl, rfl⟩ (by simp)
  | groupLoad =>
    cases he
    refine hsame ⟨rfl, rfl, rfl⟩ rfl rfl rfl ⟨rfl, rfl, rfl⟩ (groupLoop_cases c.shared t _).1 ?_
    rintro q ⟨⟩
    exact (groupLoop_cases _ t _).2
  | lockWait spin state | groupWait =>
    simp only [exec] at he
    split at he
    · rename_i f hf
      cases he
      refine hsame ⟨?_, rfl, rfl⟩ rfl rfl rfl ⟨rfl, rfl, rfl⟩ ⟨rfl, rfl, rfl⟩ ?_
      · rw [(Futex.wait_eq_some hf).2]
      · rintro q ⟨⟩
        trivial
    · cases he
      refine hsame ⟨rfl, rfl, rfl⟩ rfl rfl rfl ⟨rfl, rfl, rfl⟩ ⟨rfl, rfl, rfl⟩ ?_
      rintro q ⟨⟩
      trivial
  | lockParked spin | groupParked =>
    simp only [exec] at he
    split at he
    · rename_i f hf
      cases he
      refine hsame ⟨(Futex.resume_eq_some hf).1, rfl, rfl⟩ rfl rfl rfl ⟨rfl, rfl, rfl⟩
        ⟨rfl, rfl, rfl⟩ ?_
      rintro q ⟨⟩
      trivial
    · cases he
  | unlockOwner =>
    simp only [exec] at he
    split_ifs at he
    · cases he
      exact hsame ⟨rfl, rfl, rfl⟩ rfl rfl rfl ⟨rfl, rfl, rfl⟩ ⟨rfl, rfl, rfl⟩ (by simp)
    · cases he
      refine hsame ⟨rfl, rfl, rfl⟩ rfl rfl rfl ⟨rfl, rfl, rfl⟩ ⟨rfl, rfl, rfl⟩ ?_
      rintro q ⟨⟩
      exact hknow
  | unlockGroupOwner =>
    have hpos : 0 < c.shared.nested t + c.shared.groups t := hknow
    have hown := hE.owner t
    rw [hpc] at hown
    simp only [exec] at he
    split_ifs at he with ho
    · cases he
      refine hsame ⟨rfl, rfl, rfl⟩ rfl rfl rfl ⟨rfl, rfl, rfl⟩ ⟨rfl, rfl, rfl⟩ ?_
      rintro q ⟨⟩
      have := (hE.locked t (hown.1 ho).1).2 t
      show 0 < c.shared.nested t
      omega
    · cases he
      refine hsame ⟨rfl, rfl, rfl⟩ rfl rfl rfl ⟨rfl, rfl, rfl⟩ ⟨rfl, rfl, rfl⟩ ?_
      rintro q ⟨⟩
      -- a nested guard would make this thread the owner
      have hnest : c.shared.nested t = 0 := by
        by_contra hne
        refine ho (hown.2 ⟨hE.holder_of_guards ?_, rfl⟩)
        rw [Store.guards]
        omega
      show 0 < c.shared.groups t
      omega
  | unlockRecursion b =>
    cases he
    exact ⟨h, hE.lose hpc⟩
  | clearOwner =>
    cases he
    exact ⟨h, hE.clearOwner hpc⟩
  | clearState =>
    cases he
    exact ⟨none, hE.clearState hpc⟩
  | unlockGroupSub =>
    simp only [exec, Option.some.injEq, Prod.mk.injEq] at he
    obtain ⟨rfl, rfl⟩ := he
    exact ⟨h, (hE.leave hpc).2⟩
  | wake =>
    simp only [exec] at he
    split at he
    · rename_i f hf
      cases he
      refine hsame ⟨Futex.wakeOne_value hf, rfl, rfl⟩ rfl rfl rfl ⟨rfl, rfl, rfl⟩ ⟨rfl, rfl, rfl⟩ ?_
      simp
    · cases he
  | lockLoad spin | groupCheck =>
    simp only [exec] at he
    split_ifs at he
    all_goals
      cases he
      refine hsame ⟨rfl, rfl, rfl⟩ rfl rfl rfl ⟨rfl, rfl, rfl⟩ ⟨rfl, rfl, rfl⟩ ?_
      rintro q ⟨⟩
      trivial

end Steps

/-! ### Runs

The decoding along a run, and what it says about drops. -/

section Runs

variable {ok : Config ι (Store ι) Pc → Label ι Op → Prop} {c : Config ι (Store ι) Pc}

/-- **The decoding holds along every run.** -/
theorem reach_exact (hc : Reach (sMutex ids adaptive) ok init c) : ∃ h, Exact ids h c := by
  refine hc.invariant (I := fun c ↦ ∃ h, Exact ids h c) ⟨none, ?_⟩ ?_ ?_
  · refine
      ⟨by simp, fun _ ↦ ?_, by simp [init, Store.new, Futex.new, unlocked], ?_, ?_, ?_, by simp,
      by simp [init]⟩
    · simp [init, Store.new, Futex.new, unlocked]
    · simp [init, Store.new, Store.guards, holding]
    · intro t
      simp [init, Store.new, (ids.ne_zero t).symm]
    · simp [init, Store.new]
  · rintro c t op ⟨s', o⟩ - ⟨h, hE⟩ - hpc he
    have hput : ∀ q, (holding (some q) = false ∧ owning (some q) = true ∧
      counting (some q) = true) →
        Knows c.shared t q → Exact ids h (c.put t (c.shared, (.goto q : Outcome Pc Ret))) := by
      intro q ⟨h₁, h₂, h₃⟩ hq
      refine hE.put (.of_eq rfl rfl rfl) (fun _ _ ↦ Iff.rfl) hE.locked hE.free hE.bound ?_ ?_
        (Or.inl rfl) ?_ (Or.inl rfl) (by rintro _ ⟨⟩; exact hq)
      · rw [← hE.holder t, hpc, Outcome.pc_goto, h₁]
        rfl
      · rw [hE.owner t, hpc, Outcome.pc_goto, h₂]
        rfl
      · exact fun hh _ ↦ hE.recursion t hh (by rw [hpc]; rfl)
    cases op with
    | lock | lockGroup =>
      cases he
      exact ⟨h, hput _ ⟨rfl, rfl, rfl⟩ trivial⟩
    | rawUnlock | rawUnlockGroup =>
      simp only [sMutex, enter] at he
      split_ifs at he with hpos
      cases he
      exact ⟨h, hput _ ⟨rfl, rfl, rfl⟩ hpos⟩
  · rintro c t ch p ⟨s', o⟩ - ⟨h, hE⟩ - hpc he
    exact exec_exact hE hpc he

omit [DecidableEq ι] in
/-- **Exclusion**: while a thread is exclusive, no other thread has a guard of either kind. -/
theorem Exact.alone {h : Option ι} (hE : Exact ids h c) {t u : ι} (ht : 0 < c.shared.guards t)
    (hu : u ≠ t) : c.shared.guards u = 0 ∧ c.shared.groups u = 0 := by
  have hh : h = some t := hE.holder_of_guards ht
  refine ⟨?_, (hE.locked t hh).2 u⟩
  by_contra hne
  have hh' : h = some u := hE.holder_of_guards (by omega)
  exact hu (Option.some.inj (hh'.symm.trans hh))

/-- Either the lock has one exclusive thread, which `owner` names and whose guards `recursion`
counts, or `owner` is zero and `state` is twice the number of group guards. -/
def Agrees (ids : ThreadIds ι) (s : Store ι) : Prop :=
  (∃ t, s.state.value = locked ∧ s.owner = ids.id t ∧ 0 < s.guards t ∧ s.recursion = s.guards t ∧
    ∀ u, s.groups u = 0 ∧ (u ≠ t → s.guards u = 0)) ∨
  (s.owner = 0 ∧ s.state.value = oneGroup * tally s.groups ∧ ∀ u, s.guards u = 0)

omit [DecidableEq ι] in
/-- Between the acquisitions and releases the three words agree. -/
theorem Exact.agrees {h : Option ι} (hE : Exact ids h c)
    (hrest : ∀ t, holding (c.pcs t) = false) : Agrees ids c.shared := by
  have hown : ∀ t, owning (c.pcs t) = true ∧ counting (c.pcs t) = true := by
    intro t
    have := hrest t
    cases hp : c.pcs t with
    | none => exact ⟨rfl, rfl⟩
    | some p =>
      rw [hp] at this
      cases p <;> first | exact ⟨rfl, rfl⟩ | cases this
  cases h with
  | some t =>
    have hg : 0 < c.shared.guards t := by
      rcases (hE.holder t).2 rfl with hh | hh
      · rw [hrest t] at hh
        cases hh
      · exact hh
    refine Or.inl ⟨t, (hE.locked t rfl).1, (hE.owner t).2 ⟨rfl, (hown t).1⟩, hg,
      hE.recursion t rfl (hown t).2, fun u ↦ ⟨(hE.locked t rfl).2 u, fun hu ↦ (hE.alone hg hu).1⟩⟩
  | none =>
    refine Or.inr ⟨?_, hE.free rfl, fun u ↦ ?_⟩
    · by_contra hne
      obtain ⟨t, ht⟩ := hE.nobody hne
      cases ((hE.owner t).1 ht).1
    · by_contra hne
      cases hE.holder_of_guards (t := u) (by omega)

/-- The drop of a guard of the owner takes one guard away, and goes on to clear the words exactly if
it was the last one. -/
theorem Exact.drop {h : Option ι} (hE : Exact ids h c) {t : ι} {b : Bool} (ch : Choice ι)
    (hpc : c.pcs t = some (.unlockRecursion b)) :
    ∃ s', s'.guards t + 1 = c.shared.guards t ∧ s'.state = c.shared.state ∧
      exec ids adaptive t ch c.shared (.unlockRecursion b) =
        some (s', if s'.guards t = 0 then .goto .clearOwner else .ret .unit) := by
  have hb : 0 < if b then c.shared.nested t else c.shared.exclusives t := by
    have := hE.knows t _ hpc
    cases b <;> exact this
  have hguards := guards_lose c.shared b (c.shared.recursion - 1) hb
  have hrec := hE.recursion t (hE.holder_of_guards (by omega)) (by rw [hpc]; rfl)
  refine ⟨_, hguards, ?_, ?_⟩
  · cases b <;> rfl
  · rw [exec]
    refine congrArg (fun o ↦ some (_, o)) ?_
    by_cases hlast : 1 < c.shared.recursion
    · rw [if_pos hlast, if_neg (by omega)]
    · rw [if_neg hlast, if_pos (by omega)]

/-- Only the store of `UNLOCKED` takes `LOCKED` out of the word. -/
theorem Exact.unlocks {h : Option ι} (hE : Exact ids h c) {t : ι} {ch : Choice ι} {p : Pc}
    {s' : Store ι} {o : Outcome Pc Ret} (hpc : c.pcs t = some p)
    (he : exec ids adaptive t ch c.shared p = some (s', o))
    (hl : c.shared.state.value = SMutex.locked) (hl' : s'.state.value ≠ SMutex.locked) :
    p = .clearState ∧ c.shared.guards t = 0 := by
  have hsame : s'.state.value = c.shared.state.value → p = .clearState ∧ c.shared.guards t = 0 :=
    fun hs ↦ absurd (hs.trans hl) hl'
  cases p with
  | clearState => exact ⟨rfl, hE.knows t _ hpc⟩
  | lockCas spin =>
    simp only [exec] at he
    split at he
    · -- the word was `UNLOCKED`
      rename_i w hw
      have := (casWeak_eq_ok hw).1
      rw [hl] at this
      cases this
    · split_ifs at he
      all_goals
        cases he
        exact hsame rfl
  | groupCas state =>
    simp only [exec] at he
    split_ifs at he
    · split at he
      · -- the word was even
        rename_i w hw
        have hs := (casWeak_eq_ok hw).1
        have hev : state % 2 = 0 := hE.knows t _ hpc
        rw [← hs, hl] at hev
        cases hev
      · cases he
        exact hsame rfl
    · cases he
      exact hsame rfl
  | unlockGroupSub =>
    -- a group guard that `state` counts excludes a locked word
    have hpos : 0 < c.shared.groups t := hE.knows t _ hpc
    cases h with
    | none =>
      have := hE.free rfl
      have := (le_tally c.shared.groups t)
      rw [hl, SMutex.locked] at *
      omega
    | some u =>
      have := (hE.locked u rfl).2 t
      omega
  | lockWait spin state | groupWait =>
    simp only [exec] at he
    split at he
    · rename_i f hf
      cases he
      refine hsame ?_
      rw [(Futex.wait_eq_some hf).2]
    · cases he
      exact hsame rfl
  | lockParked spin | groupParked =>
    simp only [exec] at he
    split at he
    · rename_i f hf
      cases he
      exact hsame (Futex.resume_eq_some hf).1
    · cases he
  | wake =>
    simp only [exec] at he
    split at he
    · rename_i f hf
      cases he
      exact hsame (Futex.wakeOne_value hf)
    · cases he
  | unlockRecursion b =>
    cases he
    exact hsame (by cases b <;> rfl)
  | _ =>
    simp only [exec] at he
    try split_ifs at he
    all_goals
      cases he
      exact hsame rfl

/-! ### The record follows the calls

The guards counted here are a ghost of the model. What a call returns decides how they change, and a
step that ends no call leaves them alone. -/

/-- What a call does to the record of the guards, group guards or exclusive ones. -/
inductive Duty where
  | acquire (isGroup : Bool)
  | release (isGroup : Bool)
  deriving DecidableEq

/-- The duty that a call at a program point still has; after it the call only stores and wakes. -/
def duty : Pc → Option Duty
  | .lockOwner | .lockNested | .lockCas _ | .storeOwner | .storeRecursion | .lockLoad _
  | .lockWait _ _ | .lockParked _ => some (.acquire false)
  | .groupOwner | .groupNested | .groupLoad | .groupCas _ | .groupCheck | .groupWait
  | .groupParked => some (.acquire true)
  | .unlockOwner => some (.release false)
  | .unlockGroupOwner | .unlockGroupSub => some (.release true)
  | .unlockRecursion isGroup => some (.release isGroup)
  | .clearOwner | .clearState | .wake => none

/-- The exclusive and the group guards after a duty of thread `t`. -/
def Duty.effect (t : ι) (k : Duty) (_ : Outcome Pc Ret) (l : (ι → ℕ) × (ι → ℕ)) :
    (ι → ℕ) × (ι → ℕ) :=
  match k with
  | .acquire false => (Function.update l.1 t (l.1 t + 1), l.2)
  | .acquire true => (l.1, Function.update l.2 t (l.2 t + 1))
  | .release false => (Function.update l.1 t (l.1 t - 1), l.2)
  | .release true => (l.1, Function.update l.2 t (l.2 t - 1))

/-- How a call that has done its duty returns. -/
def Duty.Reports : Duty → Ret → Prop
  | .acquire isGroup, r => r = .guard isGroup
  | .release _, r => r = .unit

/-- The live exclusive guards, and the live group guards of both kinds. -/
def Store.holdings (s : Store ι) : (ι → ℕ) × (ι → ℕ) :=
  (s.exclusives, fun u ↦ s.nested u + s.groups u)

theorem duty_groupLoop (state : ℕ) : duty (groupLoop state) = some (.acquire true) := by
  unfold groupLoop
  split_ifs <;> rfl

omit [Fintype ι] in
theorem update_add (f g : ι → ℕ) (t : ι) (n : ℕ) :
    (fun u ↦ Function.update f t n u + g u) = Function.update (fun u ↦ f u + g u) t (n + g t) := by
  have h := Function.update_add f g t n (g t)
  rw [Function.update_eq_self] at h
  exact h.symm

omit [Fintype ι] in
theorem add_update (f g : ι → ℕ) (t : ι) (n : ℕ) :
    (fun u ↦ f u + Function.update g t n u) = Function.update (fun u ↦ f u + g u) t (f t + n) := by
  have h := Function.update_add f g t (f t) n
  rw [Function.update_eq_self] at h
  exact h.symm

section Records

variable (s : Store ι) (t : ι) (b : Bool) (n : ℕ) (o : Outcome Pc Ret)

omit [Fintype ι] in
/-- What the record shows after a guard is gained. -/
theorem holdings_gain :
    ({ s with recursion := n }.gain t b).holdings = (Duty.acquire b).effect t o s.holdings := by
  cases b with
  | false => rfl
  | true =>
    refine congrArg (Prod.mk _) ((update_add _ _ _ _).trans (congrArg _ ?_))
    show s.nested t + 1 + s.groups t = s.nested t + s.groups t + 1
    omega

omit [Fintype ι] in
/-- What the record shows after a guard is given back. -/
theorem holdings_lose (hb : 0 < if b then s.nested t else s.exclusives t) :
    ({ s with recursion := n }.lose t b).holdings = (Duty.release b).effect t o s.holdings := by
  cases b with
  | false => rfl
  | true =>
    have hpos : 0 < s.nested t := hb
    refine congrArg (Prod.mk _) ((update_add _ _ _ _).trans (congrArg _ ?_))
    show s.nested t - 1 + s.groups t = s.nested t + s.groups t - 1
    omega

omit [Fintype ι] in
/-- What the record shows after a group guard is gained. -/
theorem holdings_gainGroup :
    { s.setState n with groups := Function.update s.groups t (s.groups t + 1) }.holdings =
      (Duty.acquire true).effect t o s.holdings :=
  congrArg (Prod.mk _) (add_update _ _ _ _)

omit [Fintype ι] in
/-- What the record shows after a group guard is given back. -/
theorem holdings_loseGroup (hpos : 0 < s.groups t) :
    { s.setState n with groups := Function.update s.groups t (s.groups t - 1) }.holdings =
      (Duty.release true).effect t o s.holdings := by
  refine congrArg (Prod.mk _) ((add_update _ _ _ _).trans (congrArg _ ?_))
  show s.nested t + (s.groups t - 1) = s.nested t + s.groups t - 1
  omega

end Records

omit [DecidableEq ι] in
/-- The word counts a live group guard that `recursion` does not count. -/
theorem Exact.oneGroup_le {h : Option ι} (hE : Exact ids h c) {t : ι}
    (ht : 0 < c.shared.groups t) : oneGroup ≤ c.shared.state.value := by
  have hnone : h = none := by
    cases h with
    | none => rfl
    | some u =>
      have := (hE.locked u rfl).2 t
      omega
  have hval := hE.free hnone
  have hle := le_tally c.shared.groups t
  simp only [oneGroup]
  omega

/-- **The record follows the calls.** -/
theorem Exact.follows {h : Option ι} (hE : Exact ids h c) {t : ι} {ch : Choice ι} {p : Pc}
    {s' : Store ι} {o : Outcome Pc Ret} (hpc : c.pcs t = some p)
    (he : exec ids adaptive t ch c.shared p = some (s', o)) :
    Follows duty (Duty.effect t) Duty.Reports p c.shared.holdings s'.holdings o := by
  have hk := hE.knows t p hpc
  cases p with
  | lockNested | storeRecursion | groupNested =>
    cases he
    exact .finish rfl rfl (holdings_gain ..)
  | groupLoad =>
    cases he
    exact .stay (duty_groupLoop _)
  | groupCas state =>
    simp only [exec] at he
    split_ifs at he
    · split at he <;> cases he
      · exact .finish rfl rfl (holdings_gainGroup ..)
      · exact .stay (duty_groupLoop _)
    · cases he
      exact .refused rfl (by simp [Duty.Reports])
  | unlockOwner =>
    simp only [exec] at he
    split_ifs at he <;> cases he
    · exact .refused rfl (by simp [Duty.Reports])
    · exact .stay rfl
  | unlockRecursion isGroup =>
    have hb : 0 < if isGroup then c.shared.nested t else c.shared.exclusives t := by
      cases isGroup <;> exact hk
    cases he
    split_ifs
    · exact .finish rfl rfl (holdings_lose _ _ _ _ _ hb)
    · exact .proceed rfl rfl (holdings_lose _ _ _ _ _ hb)
  | unlockGroupSub =>
    obtain ⟨w, hw⟩ : ∃ w, w = (c.shared.state.value + 2 ^ 32 - oneGroup) % 2 ^ 32 := ⟨_, rfl⟩
    simp only [exec, ← hw, Option.some.injEq, Prod.mk.injEq,
      if_neg (not_lt.2 (hE.oneGroup_le hk))] at he
    obtain ⟨rfl, rfl⟩ := he
    split_ifs
    · exact .proceed rfl rfl (holdings_loseGroup _ _ _ _ hk)
    · exact .finish rfl rfl (holdings_loseGroup _ _ _ _ hk)
  | wake =>
    simp only [exec] at he
    split at he <;> cases he
    exact .over rfl
  | _ =>
    simp only [exec] at he
    repeat' split at he
    all_goals cases he
    all_goals exact .stay rfl

/-- **Exclusion, recursion and group accounting.** In every reachable configuration: if no thread is
between the steps of an acquisition or release, the three words agree on the guards; a thread that
is exclusive is the only one with a guard; a dropped guard of the owner goes on to the stores that
clear `owner` and unlock `state` exactly if it was the last one, and nothing else unlocks;
`raw_unlock` by a thread that is not the owner panics and changes nothing; and the guards that are
live are those that the calls have returned and no release has given back. -/
theorem guards_exact (hc : Reach (sMutex ids adaptive) ok init c) :
    ((∀ t, holding (c.pcs t) = false) → Agrees ids c.shared) ∧
    (∀ t u, 0 < c.shared.guards t → u ≠ t → c.shared.guards u = 0 ∧ c.shared.groups u = 0) ∧
    (∀ t b ch, c.pcs t = some (.unlockRecursion b) →
      ∃ s', s'.guards t + 1 = c.shared.guards t ∧ s'.state = c.shared.state ∧
        exec ids adaptive t ch c.shared (.unlockRecursion b) =
          some (s', if s'.guards t = 0 then .goto .clearOwner else .ret .unit)) ∧
    (∀ t ch, exec ids adaptive t ch c.shared .clearOwner =
        some ({ c.shared with owner := 0 }, .goto .clearState) ∧
      exec ids adaptive t ch c.shared .clearState =
        some (c.shared.setState unlocked, .goto .wake)) ∧
    (∀ t ch p s' o, c.pcs t = some p → exec ids adaptive t ch c.shared p = some (s', o) →
      c.shared.state.value = locked → s'.state.value ≠ locked →
      p = .clearState ∧ c.shared.guards t = 0) ∧
    (∀ t ch, c.shared.owner ≠ ids.id t →
      exec ids adaptive t ch c.shared .unlockOwner = some (c.shared, .ret .notOwner)) ∧
    (∀ t ch p s' o, c.pcs t = some p → exec ids adaptive t ch c.shared p = some (s', o) →
      Follows duty (Duty.effect t) Duty.Reports p c.shared.holdings s'.holdings o) := by
  obtain ⟨h, hE⟩ := reach_exact hc
  refine ⟨hE.agrees, fun _ _ ↦ hE.alone, fun _ _ ch ↦ hE.drop ch, fun _ _ ↦ ⟨rfl, rfl⟩,
    fun _ _ _ _ _ ↦ hE.unlocks, fun _ _ hne ↦ ?_, fun _ _ _ _ _ ↦ hE.follows⟩
  rw [exec, if_pos hne]

end Runs

/-- Two threads, numbered 1 and 2. -/
def twoIds : ThreadIds (Fin 2) where
  id t := t + 1
  injective _ _ h := Fin.ext (Nat.succ_injective h)
  ne_zero t := Nat.succ_ne_zero t

/-- A group guard of the owner outlives the exclusive guard and keeps the word locked. -/
theorem guards_exact_nested_group :
    ∃ c, Reach (sMutex twoIds 4) Always (init : Config (Fin 2) (Store (Fin 2)) Pc) c ∧
      c.shared.exclusives 0 = 0 ∧ c.shared.nested 0 = 1 ∧ Agrees twoIds c.shared := by
  obtain ⟨c, hc, ht⟩ := Reach.exists_of_replay (sMutex twoIds 4) Always
    (init : Config (Fin 2) (Store (Fin 2)) Pc)
    [.call 0 .lock, .exec 0 .go, .exec 0 .go, .exec 0 .go, .exec 0 .go, .call 0 .lockGroup,
      .exec 0 .go, .exec 0 .go, .call 0 .rawUnlock, .exec 0 .go, .exec 0 .go]
    (fun c ↦ decide (c.shared.exclusives 0 = 0 ∧ c.shared.nested 0 = 1 ∧
      ∀ t, holding (c.pcs t) = false)) (by decide)
  obtain ⟨h₁, h₂, h₃⟩ := of_decide_eq_true ht
  exact ⟨c, hc, h₁, h₂, (guards_exact hc).1 h₃⟩

end SMutex

end Crossync
