import Crossync.Atomic.ArraySlots

/-!
# Atomicity of `reset_with`

A reset replaces the storage and three counters in separate accesses, drops what it replaced after
it has left the coordination lock, and may find guards in its way. What the other calls see of it is
one change all the same.

* **One generation a call** (`Cited`). The slots pointers, capacities and counters that a call has
  used belong to one generation, and to the current one while the call is in its shared section.
* **Guards pin their storage** (`Live`). No step taken while a guard is live, or is still unlocking
  its slot, exchanges the storages or gives the guarded one back.
* **What a reset leaves behind** (`Made`). The new generation has as many slots as were asked for,
  all counted, with the values of the initializer in order, and stays full for good: `push` finds it
  full.
* **A reset that panics** has changed nothing (`Pc.preparing`): all it did was private, or a shared
  acquisition of the coordination lock that it has given back. A caller whose own number stands in a
  slot lock comes to that slot in its first pass over the slots (`Passed`) and panics there.

## Why one change

Between the first and the last exchange the reset has the coordination lock exclusively. A call that
is outside its section has used nothing yet (`Cited`), one that is inside its section excludes the
reset. So no call sees a mixture of two generations, though the four exchanges are four accesses.

What a reset drops, it drops after the lock; the storage it replaced is its own by then (`Owns`),
and no guard is on it, since a guard would have kept the lock shared.
-/

open Interleave

namespace Crossync

namespace AtomicArray

variable {ι α : Type*} [DecidableEq ι] [Fintype ι] {ids : SerialMutex.OwnerIds ι} {adaptive : ℕ}

/-! ### What an access leaves alone

The uses on record of other calls, and for most accesses the data too. -/

/-- What an access at a program point leaves as it was, whatever the program point is. -/
structure Frame (t : ι) (p : Pc ι α) (s s' : Store ι α) : Prop where
  asked : s'.asked = s.asked
  next : s'.next = s.next
  cap : ∀ a, (s'.heap a).capacity = (s.heap a).capacity
  storage : s'.storage = s.storage ∨ ∃ r, p = .resetStorage r
  uses : ∀ u, u ≠ t → s'.uses u = s.uses u
  names : ∀ a, names s' a = names s a ∨ a = s.storage ∧ ∃ slow v, p = .pushCas slow v s.tail

omit [DecidableEq ι] [Fintype ι] in
theorem SameData.frame {t : ι} {p : Pc ι α} {s s' : Store ι α} (h : SameData s s')
    (hu : ∀ u, u ≠ t → s'.uses u = s.uses u) : Frame t p s s' :=
  ⟨h.asked, h.next, h.cap, Or.inl h.storage, hu, fun a ↦ Or.inl (h.names a)⟩

omit [Fintype ι] [DecidableEq ι] in
theorem capacity_setSlot (s : Store ι α) (a i : ℕ) (x : Slot ι α) (b : ℕ) :
    ((s.setSlot a i x).heap b).capacity = (s.heap b).capacity := by
  show (Function.update s.heap a _ b).capacity = _
  by_cases hb : b = a
  · subst hb
    rw [Function.update_self]
  · rw [Function.update_of_ne hb]

omit [Fintype ι] [DecidableEq ι] in
theorem Frame.setSlot {t : ι} {p : Pc ι α} (s : Store ι α) (a i : ℕ) (x : Slot ι α) :
    Frame t p s (s.setSlot a i x) :=
  ⟨rfl, rfl, capacity_setSlot s a i x, Or.inl rfl, fun _ _ ↦ rfl, fun _ ↦ Or.inl rfl⟩

omit [Fintype ι] [DecidableEq ι] in
theorem Frame.store {t : ι} {p : Pc ι α} (s : Store ι α) (a i : ℕ) (v : α) :
    Frame t p s (s.store a i v) :=
  ⟨rfl, rfl, capacity_setSlot s a i _, Or.inl rfl, fun _ _ ↦ rfl,
    fun b ↦ Or.inl (names_store s a i v b)⟩

omit [Fintype ι] in
theorem uses_of_ne (s : Store ι α) (gens : List ℕ) {t u : ι} (hu : u ≠ t) :
    (s.use t gens).uses u = s.uses u :=
  Function.update_of_ne hu _ _

omit [Fintype ι] [DecidableEq ι] in
theorem uses_resume (s : Store ι α) (k : After ι α) (e : RawMutex.Ret) :
    (resume s k e).1.uses = s.uses := by
  unfold resume
  split <;> rfl

omit [Fintype ι] in
theorem uses_locked (t : ι) (s : Store ι α) (v : Visit α) : (locked t s v).1.uses = s.uses := by
  unfold locked
  split <;> rfl

/-- **The frame of an access.** -/
theorem exec_frame {t : ι} {ch : Choice ι} {p : Pc ι α} {s s' : Store ι α}
    {o : Outcome (Pc ι α) (Ret ι α)} (he : exec ids adaptive t ch s p = some (s', o)) :
    Frame t p s s' := by
  cases p with
  | coord p k =>
    obtain ⟨l, ⟨p', -, rfl, rfl⟩ | ⟨e, -, hr⟩⟩ := coord_cases he
    · exact (SameData.coord s l).frame fun _ _ ↦ rfl
    · obtain ⟨rfl, rfl⟩ := Prod.mk.inj hr
      exact ((SameData.coord s l).trans (sameData_resume _ k e)).frame fun u _ ↦
        congrFun (uses_resume _ k e) u
  | pushCas slow v tail =>
    simp only [exec] at he
    split at he
    · rename_i w hw
      obtain ⟨rfl, rfl⟩ := cas_eq_ok.1 hw
      cases he
      refine ⟨rfl, rfl, fun _ ↦ rfl, Or.inl rfl, fun u hu ↦ uses_of_ne s _ hu, fun a ↦ ?_⟩
      by_cases ha : a = s.storage
      · exact Or.inr ⟨ha, slow, v, rfl⟩
      · left
        show (Function.update s.ledger s.storage _ a).map _ = _
        rw [Function.update_of_ne ha]
        rfl
    · cases he
      exact (SameData.use s t _).frame fun u hu ↦ uses_of_ne s _ hu
  | pushLoad | loadLen | loadHead =>
    cases he
    exact (SameData.use s t _).frame fun u hu ↦ uses_of_ne s _ hu
  | pushLen v a i =>
    cases he
    exact ⟨rfl, rfl, fun _ ↦ rfl, Or.inl rfl, fun u hu ↦ uses_of_ne s _ hu, fun _ ↦ Or.inl rfl⟩
  | pushWrite | pushState =>
    cases he
    exact .setSlot ..
  | waitWrite v =>
    simp only [exec] at he
    split at he <;> cases he <;> exact (SameData.refl s).frame fun _ _ ↦ rfl
  | lock p v =>
    simp only [exec] at he
    obtain ⟨l, ⟨p', -, rfl, rfl⟩ | ⟨e, -, hr⟩⟩ := slotStep_cases he
    · exact (SameData.setLock s _ _ l).frame fun _ _ ↦ rfl
    · split at hr
      · obtain ⟨rfl, rfl⟩ := Prod.mk.inj hr
        exact ((SameData.setLock s _ _ l).trans (sameData_locked ..)).frame fun u _ ↦
          congrFun (uses_locked ..) u
      · cases hr
        exact (SameData.setLock s _ _ l).frame fun _ _ ↦ rfl
  | access v =>
    simp only [exec] at he
    split at he
    · cases he
      unfold shown
      split
      · exact .store ..
      · exact (SameData.refl s).frame fun _ _ ↦ rfl
    · cases he
      exact ⟨rfl, rfl, fun _ ↦ rfl, Or.inl rfl, fun _ _ ↦ rfl, fun _ ↦ Or.inl rfl⟩
  | unlock p v =>
    simp only [exec] at he
    obtain ⟨l, ⟨p', -, rfl, rfl⟩ | ⟨e, -, hr⟩⟩ := slotStep_cases he
    · exact (SameData.setLock s _ _ l).frame fun _ _ ↦ rfl
    · split at hr <;> cases hr
      · exact ((SameData.setLock s _ _ l).trans (.use ..)).frame fun u hu ↦ uses_of_ne _ _ hu
      · exact (SameData.setLock s _ _ l).frame fun _ _ ↦ rfl
  | dropSlot p g =>
    simp only [exec] at he
    obtain ⟨l, ⟨p', -, rfl, rfl⟩ | ⟨e, -, hr⟩⟩ := slotStep_cases he
    · exact (SameData.setLock s _ _ l).frame fun _ _ ↦ rfl
    · split at hr <;> cases hr <;> exact (SameData.setLock s _ _ l).frame fun _ _ ↦ rfl
  | inspect r i =>
    simp only [exec] at he
    split at he <;> cases he <;> exact (SameData.refl s).frame fun _ _ ↦ rfl
  | resetStorage r =>
    cases he
    exact ⟨rfl, rfl, fun _ ↦ rfl, Or.inr ⟨r, rfl⟩, fun _ _ ↦ rfl, fun _ ↦ Or.inl rfl⟩
  | resetTry | resetShared | resetHead | resetTail | resetLen | resetDrop =>
    cases he
    exact ⟨rfl, rfl, fun _ ↦ rfl, Or.inl rfl, fun _ _ ↦ rfl, fun _ ↦ Or.inl rfl⟩

/-! ### One generation a call

The pointers, capacities and counters that a call has used carry the generation they were taken
from. In the shared section the generation cannot change. -/

/-- **What a call has used belongs to one generation**, the current one while the call is in its
shared section. A call that has not entered its section has used nothing, and a reset never does. -/
structure Cited (t : ι) (s : Store ι α) (q : Option (Pc ι α)) : Prop where
  one : ∃ g, ∀ a ∈ s.uses t, a = g
  current : ∀ p, q = some p → p.pinned = 1 → ∀ a ∈ s.uses t, a = s.storage
  unused : ∀ p, q = some p → p.pinned = 0 ∨ p.own ≠ none → s.uses t = []

namespace Cited

variable {t : ι} {s s' : Store ι α} {q q' : Option (Pc ι α)} {p : Pc ι α}

omit [Fintype ι] [DecidableEq ι] in
theorem of_nil (h : s.uses t = []) : Cited t s q :=
  ⟨⟨0, by simp [h]⟩, fun _ _ _ ↦ by simp [h], fun _ _ _ ↦ h⟩

omit [Fintype ι] [DecidableEq ι] in
/-- The call has used nothing, and does not now. -/
theorem keep (h : Cited t s (some p)) (hp : p.pinned = 0 ∨ p.own ≠ none)
    (hu : s'.uses t = s.uses t) : Cited t s' q' :=
  of_nil (hu.trans (h.unused p rfl hp))

omit [Fintype ι] [DecidableEq ι] in
/-- The call uses cells of the current generation and stays in its section, or returns. -/
theorem use {gens : List ℕ} (h : Cited t s (some p)) (hp : p.pinned = 1)
    (hu : s'.uses t = s.uses t ++ gens) (hgens : ∀ a ∈ gens, a = s.storage)
    (hst : s'.storage = s.storage) (hq : ∀ p', q' = some p' → p'.pinned = 1 ∧ p'.own = none) :
    Cited t s' q' := by
  have hall : ∀ a ∈ s'.uses t, a = s'.storage := by
    intro a ha
    rw [hu, List.mem_append] at ha
    rw [hst]
    exact ha.elim (h.current p rfl hp a) (hgens a)
  refine ⟨⟨_, hall⟩, fun _ _ _ ↦ hall, fun p' hp' hor ↦ ?_⟩
  obtain ⟨hpin, hown⟩ := hq p' hp'
  rw [hpin, hown] at hor
  simp at hor

omit [Fintype ι] [DecidableEq ι] in
/-- The call stays in its section, or returns, and uses nothing. -/
theorem stay (h : Cited t s (some p)) (hp : p.pinned = 1) (hu : s'.uses t = s.uses t)
    (hst : s'.storage = s.storage) (hq : ∀ p', q' = some p' → p'.pinned = 1 ∧ p'.own = none) :
    Cited t s' q' :=
  h.use hp (show s'.uses t = s.uses t ++ [] by rw [hu, List.append_nil]) (by simp) hst hq

omit [Fintype ι] [DecidableEq ι] in
/-- A step of another thread, which may exchange the storage only while the call is outside of its
section. -/
theorem frame (h : Cited t s q) (hu : s'.uses t = s.uses t)
    (hst : s'.storage = s.storage ∨ ∀ p, q = some p → p.pinned = 0) : Cited t s' q := by
  refine ⟨hu ▸ h.one, fun p hp hpin ↦ ?_, fun p hp hor ↦ hu.trans (h.unused p hp hor)⟩
  rw [hu]
  obtain hst | hst := hst
  · rw [hst]
    exact h.current p hp hpin
  · exact absurd (hst p hp) (by omega)

end Cited

section Cited

variable {c : Config ι (Store ι α) (Pc ι α)} {t : ι} {s' : Store ι α}
  {o : Outcome (Pc ι α) (Ret ι α)}

omit [DecidableEq ι] [Fintype ι] in
/-- A continuation of the coordination lock: what it was waiting in has used nothing, or it is the
end of a call. -/
theorem cited_coord {p : RawMutex.Pc} {k : After ι α} (hexp : k.Expects (RawMutex.phase p)) :
    ((Pc.coord p k).pinned = 0 ∨ (Pc.coord p k).own ≠ none) ∨ ∃ r, k = .finish r := by
  have hpin : (Pc.coord p k).pinned = (RawMutex.phase p).pins := rfl
  cases k with
  | push v | job j =>
    have hph : RawMutex.phase p = .acquire := hexp
    rw [hpin, hph]
    exact Or.inl (Or.inl rfl)
  | finish r => exact Or.inr ⟨r, rfl⟩
  | _ => exact Or.inl (Or.inr (by simp [Pc.own]))

/-- **One access uses the current generation only.** -/
theorem exec_cited {ch : Choice ι} {p : Pc ι α} (h : Cited t c.shared (some p)) (hl : Locks ids c)
    (hb : Books c) (hpc : c.pcs t = some p)
    (he : exec ids adaptive t ch c.shared p = some (s', o)) : Cited t s' o.pc := by
  -- in a shared section the counters belong to the storage
  have hgen : p.pinned = 1 → Settled c.shared := fun hp ↦ hb.settled (hl.calm_of_pinned hpc hp).2
  have huse : ∀ gens, (c.shared.use t gens).uses t = c.shared.uses t ++ gens := fun gens ↦
    Function.update_self ..
  cases p with
  | coord p k =>
    have hexp : k.Expects (RawMutex.phase p) := (hl.mine t).phased _ hpc
    obtain ⟨l, ⟨p', hr, rfl, rfl⟩ | ⟨e, -, hr⟩⟩ := coord_cases he
    · obtain hfree | ⟨r, rfl⟩ := cited_coord hexp
      · exact h.keep hfree rfl
      · cases RawMutex.exec_unlockShared hexp hl.sound.unparked hr
    · obtain ⟨rfl, rfl⟩ := Prod.mk.inj hr
      obtain hfree | ⟨r, rfl⟩ := cited_coord hexp
      · exact h.keep hfree (congrFun (uses_resume _ k e) t)
      · exact ⟨h.one, by simp, by simp⟩
  | pushLoad slow v =>
    cases he
    have hset := hgen rfl
    refine h.use rfl (huse _) (by simp [hset.tailGen]) rfl ?_
    rintro _ ⟨⟩
    exact ⟨(inSection_pushCheck t 0 ..).pinned, own_pushCheck ..⟩
  | pushCas slow v tail =>
    have hset := hgen rfl
    simp only [exec] at he
    split at he
    · cases he
      refine h.use rfl (huse _) (by simp [hset.tailGen]) rfl ?_
      rintro _ ⟨⟩
      exact ⟨rfl, rfl⟩
    · cases he
      refine h.use rfl (huse _) (by simp [hset.tailGen]) rfl ?_
      rintro _ ⟨⟩
      split_ifs
      · exact ⟨(inSection_pushCheck t 0 ..).pinned, own_pushCheck ..⟩
      · exact ⟨rfl, rfl⟩
  | pushLen v a i =>
    cases he
    refine h.use rfl (huse _) (by simp [(hgen rfl).lenGen]) rfl ?_
    rintro _ ⟨⟩
    exact ⟨rfl, rfl⟩
  | pushWrite | pushState =>
    cases he
    refine h.stay rfl rfl rfl ?_
    rintro _ ⟨⟩
    exact ⟨rfl, rfl⟩
  | loadLen j =>
    cases he
    refine h.use rfl (huse _) (by simp [(hgen rfl).lenGen]) rfl ?_
    rintro _ ⟨⟩
    exact ⟨(inSection_lenCheck t 0 ..).pinned, own_lenCheck ..⟩
  | loadHead j len =>
    cases he
    refine h.use rfl (huse _) (by simp [(hgen rfl).headGen]) rfl ?_
    rintro _ ⟨⟩
    exact ⟨(inSection_visitFirst t j _ _ _ hl.sound.storage).pinned, own_visitFirst ..⟩
  | waitWrite v =>
    simp only [exec] at he
    split at he <;> cases he <;> refine h.stay rfl rfl rfl ?_ <;> rintro _ ⟨⟩ <;> exact ⟨rfl, rfl⟩
  | lock p v =>
    simp only [exec] at he
    obtain ⟨l, ⟨p', -, rfl, rfl⟩ | ⟨e, -, hr⟩⟩ := slotStep_cases he
    · refine h.stay rfl rfl rfl ?_
      rintro _ ⟨⟩
      exact ⟨rfl, rfl⟩
    · split at hr
      · obtain hlk | hlk := locked_cases t (c.shared.setLock v.slots v.target l) v
        · cases hr.trans hlk
          exact h.stay rfl rfl rfl (by simp)
        · cases hr.trans hlk
          refine h.stay rfl rfl rfl ?_
          rintro _ ⟨⟩
          exact ⟨rfl, rfl⟩
      · cases hr
        refine h.stay rfl rfl rfl ?_
        rintro _ ⟨⟩
        exact ⟨rfl, rfl⟩
  | access v =>
    simp only [exec] at he
    split at he
    · cases he
      refine h.stay rfl ?_ ?_ ?_
      · unfold shown
        split <;> rfl
      · unfold shown
        split <;> rfl
      · rintro _ ⟨⟩
        exact ⟨rfl, rfl⟩
    · cases he
      refine h.stay rfl rfl rfl ?_
      rintro _ ⟨⟩
      exact ⟨rfl, rfl⟩
  | unlock p v =>
    simp only [exec] at he
    obtain ⟨l, ⟨p', -, rfl, rfl⟩ | ⟨e, -, hr⟩⟩ := slotStep_cases he
    · refine h.stay rfl rfl rfl ?_
      rintro _ ⟨⟩
      exact ⟨rfl, rfl⟩
    · split at hr <;> cases hr
      · refine h.use rfl (Function.update_self ..) (by simp) rfl ?_
        rintro _ ⟨⟩
        exact ⟨(inSection_visitNext t (n := c.shared.next) _ hl.sound.storage).pinned,
          own_visitNext ..⟩
      · refine h.stay rfl rfl rfl ?_
        rintro _ ⟨⟩
        exact ⟨rfl, rfl⟩
  | dropSlot p g =>
    simp only [exec] at he
    obtain ⟨l, ⟨p', -, rfl, rfl⟩ | ⟨e, -, hr⟩⟩ := slotStep_cases he
    · refine h.stay rfl rfl rfl ?_
      rintro _ ⟨⟩
      exact ⟨rfl, rfl⟩
    · split at hr <;> cases hr
      · refine h.stay rfl rfl rfl ?_
        rintro _ ⟨⟩
        exact ⟨rfl, rfl⟩
      · exact h.stay rfl rfl rfl (by simp)
  | inspect r i =>
    simp only [exec] at he
    split at he <;> cases he <;> exact h.keep (Or.inr (by simp [Pc.own])) rfl
  | resetTry | resetShared | resetStorage | resetHead | resetTail | resetLen | resetDrop =>
    cases he
    exact h.keep (Or.inl rfl) rfl

omit [Fintype ι] in
/-- What the start of a call leaves as it was. -/
theorem enter_frame {op : Op ι α} {s : Store ι α} (he : enter t op s = some (s', o)) :
    s'.storage = s.storage ∧ (∀ u, u ≠ t → s'.uses u = s.uses u) ∧
      (s'.uses t = [] ∨ o.pc = none ∧ s'.uses t = s.uses t) ∧
      (s.storage < s.next → s'.capacity = s.capacity) := by
  have hstart : (s.start t).uses t = [] := Function.update_self ..
  have hne : ∀ u, u ≠ t → (s.start t).uses u = s.uses u := fun u hu ↦ Function.update_of_ne hu ..
  cases op with
  | push | get | getMut | asVec | forEach | forEachMut =>
    cases he
    exact ⟨rfl, hne, Or.inl hstart, fun _ ↦ rfl⟩
  | resetWith newCap inits =>
    simp only [enter] at he
    split at he
    · cases he
      exact ⟨rfl, fun _ _ ↦ rfl, Or.inr ⟨rfl, rfl⟩, fun _ ↦ rfl⟩
    · cases he
      refine ⟨rfl, hne, Or.inl hstart, fun hlt ↦ ?_⟩
      show (Function.update s.heap s.next _ s.storage).capacity = _
      rw [Function.update_of_ne (Nat.ne_of_lt hlt)]
      rfl
  | deref g =>
    simp only [enter] at he
    split at he
    · split at he <;> cases he <;>
        exact ⟨rfl, fun _ _ ↦ rfl, Or.inr ⟨rfl, rfl⟩, fun _ ↦ rfl⟩
    · cases he
  | write g v =>
    simp only [enter] at he
    split at he <;> cases he
    exact ⟨rfl, fun _ _ ↦ rfl, Or.inr ⟨rfl, rfl⟩, fun _ ↦ capacity_setSlot ..⟩
  | dropGuard g =>
    simp only [enter] at he
    split at he <;> cases he
    exact ⟨rfl, fun u hu ↦ Function.update_of_ne hu .., Or.inl (Function.update_self ..),
      fun _ ↦ rfl⟩
  | sendGuard g u =>
    simp only [enter] at he
    split at he
    · split at he <;> cases he
      exact ⟨rfl, fun _ _ ↦ rfl, Or.inr ⟨rfl, rfl⟩, fun _ ↦ capacity_setSlot ..⟩
    · cases he

variable {ok : Config ι (Store ι α) (Pc ι α) → Label ι (Op ι α) → Prop} {capacity : ℕ}

/-- **One generation a call**, along every run. -/
theorem reach_cited (h : Reach (atomicArray ids adaptive) ok (init capacity) c) (t : ι) :
    Cited t c.shared (c.pcs t) := by
  revert t
  refine h.invariant (I := fun c ↦ ∀ t, Cited t c.shared (c.pcs t)) (fun t ↦ .of_nil rfl) ?_ ?_
  · rintro c t op ⟨s', o⟩ hr hc - hpc he u
    obtain ⟨hst, hother, hself, -⟩ := enter_frame he
    by_cases hu : u = t
    · subst hu
      rw [Config.put_pcs_self]
      obtain hnil | ⟨ho, hsame⟩ := hself
      · exact .of_nil hnil
      · refine ⟨?_, by simp [ho], by simp [ho]⟩
        show ∃ g, ∀ a ∈ s'.uses u, a = g
        rw [hsame]
        exact (hc u).one
    · rw [Config.put_pcs_of_ne _ _ hu]
      exact (hc u).frame (hother u hu) (Or.inl hst)
  · rintro c t ch p ⟨s', o⟩ hr hc - hpc he u
    have hl := reach_locks hr
    have hf := exec_frame he
    by_cases hu : u = t
    · subst hu
      rw [Config.put_pcs_self]
      exact exec_cited (hpc ▸ hc u) hl (reach_books hr) hpc he
    · rw [Config.put_pcs_of_ne _ _ hu]
      refine (hc u).frame (hf.uses u hu) (hf.storage.imp_right ?_)
      rintro ⟨r, rfl⟩ q hq
      exact ((hl.alone hpc rfl u).2 q hq).1

end Cited

/-! ### What a reset leaves behind

The storage as the initializer filled it, from the private array to the exchanges. -/

/-- The reset that a program point belongs to. -/
def Pc.reset : Pc ι α → Option Reset
  | .coord _ (.attempt r) | .coord _ (.inspect r) | .coord _ (.retry r) | .coord _ (.unwind r)
  | .coord _ (.commit r _) => some r
  | .resetTry r | .resetShared r | .inspect r _ | .resetStorage r | .resetHead r _ | .resetTail r _
  | .resetLen r _ | .resetDrop r _ => some r
  | _ => none

/-- **The generation a reset of `t` makes**: as many slots as were asked for, reserved by nobody
else, with the values of the initializer in order. -/
structure Made (t : ι) (s : Store ι α) (r : Reset) : Prop where
  asked : (s.asked t).1 = r.newCap
  enough : r.newCap ≤ (s.asked t).2.length
  cap : (s.heap r.fresh).capacity = r.newCap
  names : names s r.fresh = ((s.asked t).2.take r.newCap).map fun v ↦ (none, v)
  replaced : r.fresh ≠ 0

/-- Every generation but the first was made by a reset: it is full, with the values of an
initializer. -/
structure Replaced (c : Config ι (Store ι α) (Pc ι α)) : Prop where
  next : 0 < c.shared.next
  filled : ∀ a, a ≠ 0 → (∀ x ∈ names c.shared a, x.1 = none) ∧
    (names c.shared a).length = (c.shared.heap a).capacity
  made : ∀ t p r, c.pcs t = some p → p.reset = some r → Made t c.shared r

section Replaced

variable {c : Config ι (Store ι α) (Pc ι α)} {t : ι} {s' : Store ι α}
  {o : Outcome (Pc ι α) (Ret ι α)}

/-- No push reserves a slot of a generation that a reset made. -/
theorem Replaced.names_eq {ch : Choice ι} {p : Pc ι α} (h : Replaced c) (hl : Locks ids c)
    (hb : Books c) (hpc : c.pcs t = some p) (he : exec ids adaptive t ch c.shared p = some (s', o))
    {a : ℕ} (ha : a ≠ 0) : names s' a = names c.shared a := by
  obtain hn | ⟨rfl, slow, v, rfl⟩ := (exec_frame he).names a
  · exact hn
  · exfalso
    have hset := hb.settled (hl.calm_of_pinned hpc rfl).2
    have hlt : c.shared.tail < c.shared.capacity := hb.holds t _ hpc
    have hfull := (h.filled _ ha).2
    rw [names, List.length_map, hset.length] at hfull
    exact absurd hfull (Nat.ne_of_lt hlt)

omit [DecidableEq ι] [Fintype ι] in
theorem Made.congr {s : Store ι α} {r : Reset} (h : Made t s r) (hask : s'.asked t = s.asked t)
    (hcap : (s'.heap r.fresh).capacity = (s.heap r.fresh).capacity)
    (hn : AtomicArray.names s' r.fresh = AtomicArray.names s r.fresh) : Made t s' r :=
  ⟨by rw [hask, h.asked], by rw [hask]; exact h.enough, by rw [hcap, h.cap],
    by rw [hn, hask, h.names], h.replaced⟩

omit [Fintype ι] [DecidableEq ι] in
theorem reset_visitNext (v : Visit α) (capacity : ℕ) :
    (visitNext v capacity : Pc ι α).reset = none := by
  unfold visitNext
  split <;> split_ifs <;> rfl

omit [Fintype ι] [DecidableEq ι] in
theorem reset_visitFirst (j : Job α) (head len slots capacity : ℕ) :
    (visitFirst j head len slots capacity : Pc ι α).reset = none := by
  unfold visitFirst
  split
  · split_ifs <;> rfl
  · split_ifs <;> rfl
  · exact reset_visitNext _ _

omit [Fintype ι] [DecidableEq ι] in
theorem reset_lenCheck (j : Job α) (len : ℕ) : (lenCheck j len : Pc ι α).reset = none := by
  unfold lenCheck
  split <;> first | rfl | split_ifs <;> rfl

omit [Fintype ι] [DecidableEq ι] in
theorem reset_pushCheck (slow : Bool) (v : α) (tail capacity : ℕ) :
    (pushCheck slow v tail capacity : Pc ι α).reset = none := by
  unfold pushCheck
  split_ifs <;> rfl

omit [Fintype ι] [DecidableEq ι] in
theorem reset_inspectNext (r : Reset) (i capacity : ℕ) :
    (inspectNext r i capacity : Pc ι α).reset = some r := by
  unfold inspectNext
  split_ifs <;> rfl

/-- A call that has an access behind it belongs to the same reset, if to any. -/
theorem exec_reset {ch : Choice ι} {p q : Pc ι α} {s : Store ι α} {r : Reset}
    (he : exec ids adaptive t ch s p = some (s', .goto q)) (hq : q.reset = some r) :
    p.reset = some r := by
  cases p with
  | coord p k =>
    obtain ⟨l, ⟨p', -, -, ho⟩ | ⟨e, -, hr⟩⟩ := coord_cases he
    · cases ho
      cases k <;> exact hq
    · have ho := (Prod.mk.inj hr).2
      split at ho <;> cases ho <;> first
        | exact hq
        | exact (reset_inspectNext _ _ _).symm.trans hq
  | pushLoad slow v =>
    cases he
    cases (reset_pushCheck _ _ _ _).symm.trans hq
  | pushCas slow v tail =>
    simp only [exec] at he
    split at he
    · cases he
      cases hq
    · cases he
      split_ifs at hq
      · cases (reset_pushCheck _ _ _ _).symm.trans hq
      · cases hq
  | loadLen j =>
    cases he
    cases (reset_lenCheck _ _).symm.trans hq
  | loadHead j len =>
    cases he
    cases (reset_visitFirst _ _ _ _ _).symm.trans hq
  | waitWrite v | access v =>
    simp only [exec] at he
    split at he <;> cases he <;> cases hq
  | lock p v =>
    simp only [exec] at he
    obtain ⟨l, ⟨p', -, -, ho⟩ | ⟨e, -, hr⟩⟩ := slotStep_cases he
    · cases ho
      cases hq
    · split at hr
      · obtain hlk | hlk := locked_cases t (s.setLock v.slots v.target l) v
        · cases hr.trans hlk
        · cases hr.trans hlk
          cases hq
      · cases hr
        cases hq
  | unlock p v =>
    simp only [exec] at he
    obtain ⟨l, ⟨p', -, -, ho⟩ | ⟨e, -, hr⟩⟩ := slotStep_cases he
    · cases ho
      cases hq
    · split at hr <;> cases hr
      · cases (reset_visitNext _ _).symm.trans hq
      · cases hq
  | dropSlot p g =>
    simp only [exec] at he
    obtain ⟨l, ⟨p', -, -, ho⟩ | ⟨e, -, hr⟩⟩ := slotStep_cases he
    · cases ho
      cases hq
    · split at hr <;> cases hr
      cases hq
  | inspect r' i =>
    simp only [exec] at he
    split at he <;> cases he
    · exact hq
    · exact (reset_inspectNext _ _ _).symm.trans hq
  | resetDrop => cases he
  | _ =>
    cases he
    exact hq

theorem exec_replaced {ch : Choice ι} {p : Pc ι α} (h : Replaced c) (hl : Locks ids c)
    (hb : Books c) (hpc : c.pcs t = some p)
    (he : exec ids adaptive t ch c.shared p = some (s', o)) : Replaced (c.put t (s', o)) := by
  have hf := exec_frame he
  have hmade : ∀ u r, Made u c.shared r → Made u s' r := fun u r hm ↦
    hm.congr (congrFun hf.asked u) (hf.cap _) (h.names_eq hl hb hpc he hm.replaced)
  refine ⟨?_, fun a ha ↦ ?_, fun u q r hq hr ↦ ?_⟩
  · show 0 < s'.next
    rw [hf.next]
    exact h.next
  · show (∀ x ∈ names s' a, x.1 = none) ∧ (names s' a).length = (s'.heap a).capacity
    rw [h.names_eq hl hb hpc he ha, hf.cap]
    exact h.filled a ha
  · by_cases hu : u = t
    · subst hu
      rw [Config.put_pcs_self] at hq
      cases o with
      | goto q' =>
        cases hq
        exact hmade u r (h.made u p r hpc (exec_reset he hr))
      | ret e => cases hq
    · rw [Config.put_pcs_of_ne _ _ hu] at hq
      exact hmade u r (h.made u q r hq hr)

omit [Fintype ι] in
/-- A start that makes no generation. -/
theorem Replaced.start (h : Replaced c) (hnext : s'.next = c.shared.next)
    (hask : s'.asked = c.shared.asked) (hn : ∀ a, names s' a = names c.shared a)
    (hcap : ∀ a, (s'.heap a).capacity = (c.shared.heap a).capacity)
    (ho : ∀ q, o.pc = some q → q.reset = none) : Replaced (c.put t (s', o)) := by
  refine ⟨?_, fun a ha ↦ ?_, fun u q r hq hr ↦ ?_⟩
  · show 0 < s'.next
    rw [hnext]
    exact h.next
  · show (∀ x ∈ names s' a, x.1 = none) ∧ (names s' a).length = (s'.heap a).capacity
    rw [hn, hcap]
    exact h.filled a ha
  · by_cases hu : u = t
    · subst hu
      rw [Config.put_pcs_self] at hq
      cases (ho q hq).symm.trans hr
    · rw [Config.put_pcs_of_ne _ _ hu] at hq
      exact (h.made u q r hq hr).congr (congrFun hask u) (hcap _) (hn _)

/-- A reset starts: its replacement becomes the next generation. -/
theorem replaced_resetWith {newCap : ℕ} {inits : List α} {a : Private ι α} (h : Replaced c)
    (hl : Locks ids c) (hok : initWith newCap inits = .ok a) :
    Replaced (c.put (R := Ret ι α) t ({ (c.shared.start t).adopt a (inits.take newCap) with
      asked := Function.update c.shared.asked t (newCap, inits) },
      .goto (.resetTry ⟨c.shared.next, newCap⟩))) := by
  obtain ⟨-, hle, hcap, -⟩ := initWith_spec hok
  set s' : Store ι α := { (c.shared.start t).adopt a (inits.take newCap) with
    asked := Function.update c.shared.asked t (newCap, inits) } with hs'
  have hnames : ∀ b, names s' b = if b = c.shared.next then
      (inits.take newCap).map (fun v ↦ (none, v)) else names c.shared b := by
    intro b
    show (Function.update c.shared.ledger c.shared.next _ b).map _ = _
    split_ifs with hb
    · subst hb
      rw [Function.update_self, List.map_map]
      rfl
    · rw [Function.update_of_ne hb]
      rfl
  have hcaps : ∀ b, (s'.heap b).capacity = if b = c.shared.next then newCap else
      (c.shared.heap b).capacity := by
    intro b
    show (Function.update c.shared.heap c.shared.next a.storage b).capacity = _
    split_ifs with hb
    · subst hb
      rw [Function.update_self, hcap]
    · rw [Function.update_of_ne hb]
  refine ⟨Nat.succ_pos _, fun b hb ↦ ?_, fun u q r hq hr ↦ ?_⟩
  · show (∀ x ∈ names s' b, x.1 = none) ∧ (names s' b).length = (s'.heap b).capacity
    rw [hnames, hcaps]
    split_ifs with hbn
    · refine ⟨fun x hx ↦ ?_, by simp [hle]⟩
      obtain ⟨v, -, rfl⟩ := List.mem_map.1 hx
      rfl
    · exact h.filled b hb
  · by_cases hu : u = t
    · subst hu
      rw [Config.put_pcs_self] at hq
      cases hq
      cases hr
      have hask : s'.asked u = (newCap, inits) := Function.update_self ..
      refine ⟨?_, ?_, ?_, ?_, Nat.pos_iff_ne_zero.1 h.next⟩
      · show (s'.asked u).1 = newCap
        rw [hask]
      · show newCap ≤ (s'.asked u).2.length
        rw [hask]
        exact hle
      · show (s'.heap c.shared.next).capacity = newCap
        rw [hcaps, if_pos rfl]
      · show names s' c.shared.next = ((s'.asked u).2.take newCap).map _
        rw [hnames, if_pos rfl, hask]
    · rw [Config.put_pcs_of_ne _ _ hu] at hq
      have hm := h.made u q r hq hr
      have hlt : r.fresh < c.shared.next := by
        have hk := (hl.mine u).known q hq
        cases q with
        | coord p k => cases k <;> first | (cases hr; exact hk) | cases hr
        | _ => first | (cases hr; exact hk) | cases hr
      exact hm.congr (Function.update_of_ne hu ..) ((hcaps _).trans (if_neg (by omega)))
        ((hnames _).trans (if_neg (by omega)))

theorem enter_replaced {op : Op ι α} (h : Replaced c) (hl : Locks ids c)
    (he : enter t op c.shared = some (s', o)) : Replaced (c.put t (s', o)) := by
  cases op with
  | push | get | getMut | asVec | forEach | forEachMut =>
    cases he
    exact h.start rfl rfl (fun _ ↦ rfl) (fun _ ↦ rfl) (by rintro _ ⟨⟩; rfl)
  | resetWith newCap inits =>
    simp only [enter] at he
    split at he
    · cases he
      exact h.start rfl rfl (fun _ ↦ rfl) (fun _ ↦ rfl) (by simp)
    · rename_i a hok
      cases he
      exact replaced_resetWith h hl hok
  | deref g =>
    simp only [enter] at he
    split at he
    · split at he <;> cases he <;>
        exact h.start rfl rfl (fun _ ↦ rfl) (fun _ ↦ rfl) (by simp)
    · cases he
  | write g v =>
    simp only [enter] at he
    split at he <;> cases he
    exact h.start rfl rfl (names_store _ _ _ _) (capacity_setSlot _ _ _ _) (by simp)
  | dropGuard g =>
    simp only [enter] at he
    split at he <;> cases he
    exact h.start rfl rfl (fun _ ↦ rfl) (fun _ ↦ rfl) (by rintro _ ⟨⟩; rfl)
  | sendGuard g u =>
    simp only [enter] at he
    split at he
    · split at he <;> cases he
      exact h.start rfl rfl (fun _ ↦ rfl) (capacity_setSlot _ _ _ _) (by simp)
    · cases he

variable {ok : Config ι (Store ι α) (Pc ι α) → Label ι (Op ι α) → Prop} {capacity : ℕ}

omit [DecidableEq ι] [Fintype ι] in
theorem replaced_init : Replaced (init capacity : Config ι (Store ι α) (Pc ι α)) := by
  refine ⟨Nat.one_pos, fun a ha ↦ ⟨fun x hx ↦ (by cases hx), ?_⟩, fun t p r hp ↦ (by cases hp)⟩
  show 0 = (Function.update (fun _ ↦ allocateSlots 0) 0 (allocateSlots capacity) a :
    Storage ι α).capacity
  rw [Function.update_of_ne ha]
  rfl

/-- **What resets leave behind**, along every run. -/
theorem reach_replaced (h : Reach (atomicArray ids adaptive) ok (init capacity) c) : Replaced c :=
  h.invariant (I := Replaced) replaced_init
    (fun _ _ _ _ hr hb _ _ he ↦ enter_replaced hb (reach_locks hr) he)
    fun _ _ _ _ _ hr hb _ hpc he ↦ exec_replaced hb (reach_locks hr) (reach_books hr) hpc he

omit [DecidableEq ι] in
/-- **A generation made by a reset is full**, whenever its counters can be seen. -/
theorem Replaced.counters (h : Replaced c) (hb : Books c) (hcalm : Calm c)
    (hst : c.shared.storage ≠ 0) :
    c.shared.tail = c.shared.capacity ∧ c.shared.len = c.shared.capacity := by
  have hset := hb.settled hcalm
  have hcount := hb.count hcalm
  obtain ⟨hnone, hfull⟩ := h.filled _ hst
  rw [names, List.length_map, hset.length] at hfull
  have hzero : uncounted c = 0 := by
    refine tally_eq_zero_iff.2 fun u ↦ ?_
    cases hq : c.pcs u with
    | none => rfl
    | some q =>
      have hold := hb.holds u q hq
      -- a push in flight has its ticket in the ledger, and a reset writes none there
      have hflight : ∀ v a i, ¬ InFlight u c.shared v a i := by
        intro v a i hf
        have hent := hf.entry
        rw [hf.storage] at hent
        cases hnone _ (List.mem_map_of_mem (List.mem_of_getElem? hent))
      cases q with
      | pushWrite v a i => exact absurd hold (hflight v a i)
      | pushLen v a i => exact absurd hold.1 (hflight v a i)
      | _ => rfl
  refine ⟨hfull, ?_⟩
  show c.shared.len = (c.shared.heap c.shared.storage).capacity
  omega

end Replaced

/-! ### A reset that panics

A panic can only strike before the first exchange. -/

/-- A reset before its exchange. -/
def Pc.preparing : Pc ι α → Bool
  | .coord _ (.attempt _) | .coord _ (.inspect _) | .coord _ (.retry _)
  | .coord _ (.unwind _) => true
  | .resetTry _ | .resetShared _ | .inspect _ _ => true
  | _ => false

/-- Storage, counters and guards, and the slots of every storage there was, with their values and
their locks, are exactly as they were. -/
structure Untouched (s s' : Store ι α) : Prop where
  heap : ∀ a, a < s.next → s'.heap a = s.heap a
  storage : s'.storage = s.storage
  head : s'.head = s.head
  tail : s'.tail = s.tail
  len : s'.len = s.len
  guards : s'.guards = s.guards

omit [DecidableEq ι] [Fintype ι] in
theorem Untouched.refl (s : Store ι α) : Untouched s s := ⟨fun _ _ ↦ rfl, rfl, rfl, rfl, rfl, rfl⟩

section Panic

variable {t : ι} {s s' : Store ι α} {o : Outcome (Pc ι α) (Ret ι α)}

omit [Fintype ι] [DecidableEq ι] in
theorem preparing_inspectNext (r : Reset) (i capacity : ℕ) :
    (inspectNext r i capacity : Pc ι α).preparing = true := by
  unfold inspectNext
  split_ifs <;> rfl

/-- **A reset that has not exchanged anything has changed nothing**: it goes on preparing, has won
`try_exclusive_guard`, or panics. -/
theorem exec_preparing {ch : Choice ι} {p : Pc ι α} (hp : p.preparing = true)
    (he : exec ids adaptive t ch s p = some (s', o)) :
    Untouched s s' ∧ ((∃ q, o = .goto q ∧ q.preparing = true) ∨
      (∃ q r, p = .coord q (.attempt r) ∧ o = .goto (.resetStorage r)) ∨
      ∃ q r, p = .coord q (.unwind r) ∧ o = .ret (.panicked .reset)) := by
  cases p with
  | coord p k =>
    obtain ⟨l, ⟨p', -, rfl, rfl⟩ | ⟨e, -, hr⟩⟩ := coord_cases he
    · refine ⟨⟨fun _ _ ↦ rfl, rfl, rfl, rfl, rfl, rfl⟩, Or.inl ⟨_, rfl, ?_⟩⟩
      cases k <;> exact hp
    · cases k with
      | attempt r =>
        cases e with
        | bool b =>
          cases b
          · cases hr
            exact ⟨⟨fun _ _ ↦ rfl, rfl, rfl, rfl, rfl, rfl⟩, Or.inl ⟨_, rfl, rfl⟩⟩
          · cases hr
            exact ⟨⟨fun _ _ ↦ rfl, rfl, rfl, rfl, rfl, rfl⟩, Or.inr (Or.inl ⟨p, r, rfl, rfl⟩)⟩
        | _ =>
          cases hr
          exact ⟨⟨fun _ _ ↦ rfl, rfl, rfl, rfl, rfl, rfl⟩, Or.inl ⟨_, rfl, rfl⟩⟩
      | inspect r =>
        cases hr
        exact ⟨⟨fun _ _ ↦ rfl, rfl, rfl, rfl, rfl, rfl⟩, Or.inl ⟨_, rfl, preparing_inspectNext ..⟩⟩
      | retry r =>
        cases hr
        exact ⟨⟨fun _ _ ↦ rfl, rfl, rfl, rfl, rfl, rfl⟩, Or.inl ⟨_, rfl, rfl⟩⟩
      | unwind r =>
        cases hr
        exact ⟨⟨fun _ _ ↦ rfl, rfl, rfl, rfl, rfl, rfl⟩, Or.inr (Or.inr ⟨p, r, rfl, rfl⟩)⟩
      | _ => cases hp
  | resetTry r | resetShared r =>
    cases he
    exact ⟨.refl s, Or.inl ⟨_, rfl, rfl⟩⟩
  | inspect r i =>
    simp only [exec] at he
    split at he <;> cases he
    · exact ⟨.refl s, Or.inl ⟨_, rfl, rfl⟩⟩
    · exact ⟨.refl s, Or.inl ⟨_, rfl, preparing_inspectNext ..⟩⟩
  | _ => cases hp

/-- The panic of a reset comes out of its preparation. -/
theorem exec_panicked {ch : Choice ι} {p : Pc ι α} {r : Reset} {why : Panic} (hp : p.reset = some r)
    (he : exec ids adaptive t ch s p = some (s', .ret (.panicked why))) : p.preparing = true := by
  cases p with
  | coord p k =>
    obtain ⟨l, ⟨p', -, rfl, ho⟩ | ⟨e, -, hr⟩⟩ := coord_cases he
    · cases ho
    · cases k with
      | commit r old => cases hr
      | _ => first | rfl | cases hp
  | inspect r i => rfl
  | resetTry | resetShared => rfl
  | resetStorage | resetHead | resetTail | resetLen | resetDrop => cases he
  | _ => cases hp

/-! ### The caller's own guards

A thread with a guard on a slot finds its own number in that slot's lock, and panics there. It comes
to that slot, since the pass over the slots goes through all of them. -/

/-- `t` has acquired no live guard on slot `i` of the storage in use. -/
def Store.Disowned (s : Store ι α) (t : ι) (i : ℕ) : Prop :=
  SerialMutex.NoGuards (s.slot s.storage i).lock t

/-- The slots that a reset has passed carry no guard that the caller has acquired. -/
def Pc.Passed (t : ι) (s : Store ι α) : Pc ι α → Prop
  | .inspect _ j => ∀ i, i < j → s.Disowned t i
  | .coord _ (.retry _) => ∀ i, i < s.capacity → s.Disowned t i
  | _ => True

omit [DecidableEq ι] in
/-- No step of another thread makes `t` an acquirer. -/
theorem Pc.Passed.frame {p : Pc ι α} (h : p.Passed t s) (hcap : s'.capacity = s.capacity)
    (hf : ∀ i, s.Disowned t i → s'.Disowned t i) : p.Passed t s' := by
  cases p with
  | inspect r j => exact fun i hi ↦ hf i (h i hi)
  | coord q k =>
    cases k with
    | retry r => exact fun i hi ↦ hf i (h i (hcap ▸ hi))
    | _ => trivial
  | _ => trivial

omit [DecidableEq ι] in
theorem passed_inspectNext {r : Reset} {j : ℕ} (h : ∀ i, i < j → s.Disowned t i) :
    (inspectNext r j s.capacity : Pc ι α).Passed t s := by
  unfold inspectNext
  split_ifs with hj
  · exact h
  · exact fun i hi ↦ h i (by omega)

omit [Fintype ι] [DecidableEq ι] in
theorem passed_of_reset {p : Pc ι α} (h : p.reset = none) [Fintype ι] : p.Passed t s := by
  cases p with
  | coord q k => cases k <;> trivial
  | _ => trivial

/-- **One access of a reset keeps track of the slots it has passed.** -/
theorem exec_passed {ch : Choice ι} {p q : Pc ι α} (hs : Sound ids s) (h : p.Passed t s)
    (he : exec ids adaptive t ch s p = some (s', .goto q)) : q.Passed t s' := by
  cases hq : q.reset with
  | none => exact passed_of_reset hq
  | some r =>
    have hp := exec_reset he hq
    cases p with
    | coord p k =>
      obtain ⟨l, ⟨p', -, rfl, ho⟩ | ⟨e, -, hr⟩⟩ := coord_cases he
      · cases ho
        cases k <;> exact h
      · cases k with
        | inspect r =>
          cases hr
          exact passed_inspectNext fun i hi ↦ absurd hi (Nat.not_lt_zero i)
        | attempt r =>
          cases e with
          | bool b => cases b <;> cases hr <;> trivial
          | _ => cases hr; trivial
        | retry r | commit r old =>
          cases hr
          trivial
        | unwind r => cases hr
        | _ => cases hp
    | inspect r i =>
      simp only [exec] at he
      split_ifs at he with hown
      · cases he
        trivial
      · cases he
        refine passed_inspectNext fun j hj ↦ ?_
        obtain hj | rfl := Nat.lt_succ_iff_lt_or_eq.1 hj
        · exact h j hj
        · exact (hs.exact _ _).no_guards_of_own_ne fun hw ↦
            hown (SerialWord.and_ownerMask_eq_iff.2 hw)
    | resetTry | resetShared | resetStorage | resetHead | resetTail | resetLen =>
      cases he
      trivial
    | resetDrop => cases he
    | _ => cases hp

/-- The start of a call moves no guard to another acquirer. -/
theorem enter_disowned {op : Op ι α} (hs : Sound ids s) (he : enter t op s = some (s', o)) (u : ι)
    (i : ℕ) (h : s.Disowned u i) : s'.Disowned u i := by
  have hsame : s'.storage = s.storage → (s'.slot s.storage i).lock = (s.slot s.storage i).lock →
      s'.Disowned u i := by
    intro hst hlk
    unfold Store.Disowned at h ⊢
    rw [hst, hlk]
    exact h
  cases op with
  | push | get | getMut | asVec | forEach | forEachMut =>
    cases he
    exact hsame rfl rfl
  | resetWith newCap inits =>
    simp only [enter] at he
    split at he
    · cases he
      exact hsame rfl rfl
    · rename_i a hok
      cases he
      refine hsame rfl ?_
      show ((Function.update s.heap s.next a.storage s.storage).slots i).lock = _
      rw [Function.update_of_ne (Nat.ne_of_lt hs.storage)]
      rfl
  | deref g =>
    simp only [enter] at he
    split at he
    · split at he <;> cases he <;> exact hsame rfl rfl
    · cases he
  | write g v =>
    simp only [enter] at he
    split at he <;> cases he
    exact hsame rfl ((SameLocks.store s g.storage g.index v).lock _ _)
  | dropGuard g =>
    simp only [enter] at he
    split at he <;> cases he
    exact hsame rfl rfl
  | sendGuard g v =>
    simp only [enter] at he
    split at he
    · split at he
      · rename_i l _ m e hl hm
        cases he
        obtain ⟨-, -, hr, hw, -, -⟩ := SerialMutex.enter_spec ids hm
        unfold Store.Disowned at h ⊢
        show SerialMutex.NoGuards
          (((s.giveUp t g).setLock g.storage g.index m).slot s.storage i).lock u
        rw [Store.setLock, slot_setSlot]
        split_ifs with hgi
        · rw [hgi.1, hgi.2] at h
          exact ⟨(hr u).trans h.1, (hw u).trans h.2⟩
        · exact h
      · cases he
    · cases he

variable {ok : Config ι (Store ι α) (Pc ι α) → Label ι (Op ι α) → Prop} {capacity : ℕ}
  {c : Config ι (Store ι α) (Pc ι α)}

/-- **What a reset has passed stays passed**, along every run. -/
theorem reach_passed (h : Reach (atomicArray ids adaptive) ok (init capacity) c) :
    ∀ t p, c.pcs t = some p → p.Passed t c.shared := by
  refine h.invariant (I := fun c ↦ ∀ t p, c.pcs t = some p → p.Passed t c.shared)
    (fun t p hp ↦ (by cases hp)) ?_ ?_
  · rintro c t op ⟨s', o⟩ hr hc - hpc he
    have hl := reach_locks hr
    refine Config.forall_put (fun q hq ↦ ?_) fun u q hu hq ↦ ?_
    · cases op with
      | resetWith newCap inits =>
        simp only [atomicArray, enter] at he
        split at he <;> cases he
        · cases hq
        · cases hq
          trivial
      | deref g =>
        simp only [atomicArray, enter] at he
        split at he
        · split at he <;> cases he <;> cases hq
        · cases he
      | write g v =>
        simp only [atomicArray, enter] at he
        split at he <;> cases he
        cases hq
      | dropGuard g =>
        simp only [atomicArray, enter] at he
        split at he <;> cases he
        cases hq
        trivial
      | sendGuard g v =>
        simp only [atomicArray, enter] at he
        split at he
        · split at he <;> cases he
          cases hq
        · cases he
      | _ =>
        cases he
        cases hq
        trivial
    · exact (hc u q hq).frame ((enter_frame he).2.2.2 hl.sound.storage) fun i hi ↦
        enter_disowned hl.sound he u i hi
  · rintro c t ch p ⟨s', o⟩ hr hc - hpc he
    have hl := reach_locks hr
    have hf := exec_frame he
    refine Config.forall_put (fun q hq ↦ ?_) fun u q hu hq ↦ ?_
    · cases o with
      | goto q' =>
        cases hq
        exact exec_passed hl.sound (hc t p hpc) he
      | ret r => cases hq
    · obtain hst | ⟨r, rfl⟩ := hf.storage
      · refine (hc u q hq).frame ?_ fun i hi ↦ ?_
        · unfold Store.capacity
          rw [hst, hf.cap]
        · have hfor := ((exec_locks hl.sound (hpc ▸ hl.mine t) he).spares u hu).foreign
            c.shared.storage i
          unfold Store.Disowned at hi ⊢
          rw [hst]
          exact ⟨Nat.le_zero.1 (hi.1 ▸ hfor.acquired_reads),
            Nat.le_zero.1 (hi.2 ▸ hfor.acquired_writes)⟩
      · -- in its exclusive section a reset is alone: nobody is in the middle of a pass
        have hpin := ((hl.alone hpc rfl u).2 q hq).1
        cases q with
        | inspect r j => cases hpin
        | coord q k =>
          cases k with
          | retry r =>
            have hph : RawMutex.phase q = .releaseShared := (hl.mine u).phased _ hq
            have hpin' : (RawMutex.phase q).pins = 0 := hpin
            rw [hph] at hpin'
            cases hpin'
          | _ => trivial
        | _ => trivial

/-- A guard that `t` has acquired, in whosever hands it is. -/
def Acquired (c : Config ι (Store ι α) (Pc ι α)) (t : ι) : Prop :=
  ∃ u, ∃ g ∈ c.shared.guards u, g.acquirer = t

/-- A live guard stands in the word of its slot, with the number of its acquirer. -/
theorem Locks.owned (h : Locks ids c) {u : ι} {g : Guard ι} (hg : g ∈ c.shared.guards u) :
    (c.shared.slot g.storage g.index).lock.state &&& SerialWord.ownerMask =
        SerialWord.ownerBits (ids.id g.acquirer) ∧
      ¬ SerialMutex.NoGuards (c.shared.slot g.storage g.index).lock g.acquirer := by
  have hrec : 0 < c.shared.record g u := by
    rw [(h.mine u).record]
    exact List.count_pos_iff.2 (List.mem_append_left _ hg)
  have hE := h.sound.exact g.storage g.index
  unfold Store.record SerialMutex.Store.record at hrec
  rw [SerialWord.and_ownerMask_eq_iff]
  split_ifs at hrec with hread
  · have hle := le_tally ((c.shared.slot g.storage g.index).lock.reads g.acquirer) u
    exact ⟨(hE.of_reads hrec).1, fun hn ↦ by have := hn.1; omega⟩
  · have hle := le_tally ((c.shared.slot g.storage g.index).lock.writes g.acquirer) u
    exact ⟨(hE.of_writes hrec).1, fun hn ↦ by have := hn.2; omega⟩

/-- **A caller that has acquired a live guard** is not in an exclusive section, and its reset does
not come to the end of a pass over the slots. -/
theorem owner_stops (hl : Locks ids c) (hb : Books c)
    (hp : ∀ t p, c.pcs t = some p → p.Passed t c.shared) (ha : Acquired c t) {p : Pc ι α}
    (hpc : c.pcs t = some p) : p.sealed = 0 ∧ ∀ q r, p ≠ .coord q (.retry r) := by
  obtain ⟨u, g, hg, rfl⟩ := ha
  refine ⟨(hl.calm_of_guard hg).1 _ p hpc, ?_⟩
  rintro q r rfl
  have hw := hb.guards u g hg
  have hset := hb.settled (hl.calm_of_guard hg).2
  have hdis : SerialMutex.NoGuards (c.shared.slot c.shared.storage g.index).lock g.acquirer :=
    hp _ _ hpc g.index (hw.lt.trans_le hset.tail_le)
  exact (hl.owned hg).2 (hw.storage ▸ hdis)

/-- The pass of a reset, run alone, panics at the latest at the slot that carries the caller's
number. -/
theorem returns_inspect {r : Reset} {Q : Store ι α → Ret ι α → Prop} {k : ℕ}
    (hwp : Word.wp s.coordLock.state = false)
    (hq : ∀ l : RawMutex.Store ι, Q ({ s with coordLock := l }.free r.fresh) (.panicked .reset))
    (hlt : k < s.capacity) (hown : (s.slot s.storage k).lock.state &&& SerialWord.ownerMask =
      SerialWord.ownerBits (ids.id t)) :
    ∀ n i, i + n = k → (atomicArray ids adaptive).Returns t (n + 2) Q
      (s, .goto (inspectNext r i s.capacity)) := by
  have hunwind : (atomicArray ids adaptive).Returns t 1 Q
      (s, .goto (.coord .unlockShared (.unwind r))) :=
    returns_release hwp fun l ↦ .ret (hq l)
  have hgo : ∀ i, i ≤ k → (inspectNext r i s.capacity : Pc ι α) = .inspect r i := fun i hi ↦
    if_pos (by omega)
  intro n
  induction n with
  | zero =>
    rintro i rfl
    rw [hgo i le_rfl]
    refine .step fun ch ↦ ⟨_, ?_, hunwind⟩
    exact if_pos hown
  | succ n ih =>
    intro i hi
    rw [hgo i (by omega)]
    by_cases ho : (s.slot s.storage i).lock.state &&& SerialWord.ownerMask =
        SerialWord.ownerBits (ids.id t)
    · exact .step fun ch ↦ ⟨_, if_pos ho, hunwind.mono (by omega)⟩
    · exact .step fun ch ↦ ⟨_, if_neg ho, ih (i + 1) (by omega)⟩

omit [Fintype ι] [DecidableEq ι] in
/-- The loop of `init_with` ends unless the initializer panics. -/
theorem initLoop_eq {n : ℕ} {vs : List α} {a : Private ι α} :
    initLoop n vs a = none ↔ vs.length < n := by
  induction n, vs, a using initLoop.induct with
  | case1 vs a => simp [initLoop]
  | case2 n a => simp [initLoop]
  | case3 n v vs a ih =>
    rw [initLoop, ih, List.length_cons]
    omega

omit [Fintype ι] [DecidableEq ι] in
/-- **When `init_with` panics**: it is asked for no slot, or the initializer does. -/
theorem initWith_eq (newCap : ℕ) (inits : List α) :
    (newCap = 0 → (initWith newCap inits : Except Panic (Private ι α)) = .error .capacity) ∧
      (newCap ≠ 0 → inits.length < newCap →
        (initWith newCap inits : Except Panic (Private ι α)) = .error .initializer) ∧
      (newCap ≠ 0 → newCap ≤ inits.length →
        ∃ a : Private ι α, initWith newCap inits = .ok a) := by
  refine ⟨fun h ↦ if_pos h, fun h hlt ↦ ?_, fun h hle ↦ ?_⟩
  · rw [initWith, if_neg h, initLoop_eq.2 hlt]
  · rw [initWith, if_neg h]
    cases hr : initLoop newCap inits (⟨allocateSlots newCap, 0, 0⟩ : Private ι α) with
    | none => exact absurd (initLoop_eq.1 hr) (by omega)
    | some a => exact ⟨a, rfl⟩

/-- A reset run alone, behind a shared acquisition that is not given back. -/
theorem returns_resetTry {r : Reset} {Q : Store ι α → Ret ι α → Prop} {k : ℕ}
    (hwp : Word.wp s.coordLock.state = false) (hpos : 0 < Word.count s.coordLock.state)
    (hcount : Word.count s.coordLock.state + 1 < Word.writerCount)
    (hq : ∀ l : RawMutex.Store ι, Q ({ s with coordLock := l }.free r.fresh) (.panicked .reset))
    (hlt : k < s.capacity) (hown : (s.slot s.storage k).lock.state &&& SerialWord.ownerMask =
      SerialWord.ownerBits (ids.id t)) :
    (atomicArray ids adaptive).Returns t (s.capacity + 6) Q (s, .goto (.resetTry r)) := by
  have hlocked : s.coordLock.state ≠ Word.unlocked := by
    intro h
    rw [h] at hpos
    exact absurd hpos (by decide)
  refine .step fun ch ↦ ⟨_, rfl, ?_⟩
  refine .step fun ch ↦ ⟨(s, .goto (.resetShared r)), ?_, ?_⟩
  · have hrun : RawMutex.exec adaptive t ch s.coordLock .tryLockExclusive =
        some (s.coordLock, .ret (.bool false)) := by
      simp only [RawMutex.exec, cas, if_neg hlocked]
    simp only [atomicArray, exec, hrun, resume]
  refine .step fun ch ↦ ⟨_, rfl, ?_⟩
  have hpass : (atomicArray ids adaptive).Returns t (k + 2 + 2) Q
      (s, .goto (shared (.inspect r))) :=
    returns_shared hcount hwp fun l hl ↦
      returns_inspect (s := { s with coordLock := l }) hl hq hlt hown k 0 (Nat.zero_add k)
  exact hpass.mono (by omega)

/-- **The owner's reset panics.** Run alone by a caller that has acquired a live guard, a reset
returns by a panic, and storages, slots, slot locks and counters are as they were. -/
theorem returns_resetWith (hl : Locks ids c) (hb : Books c) (ha : Acquired c t)
    (hcount : Word.count c.shared.coordLock.state + 1 < Word.writerCount) {newCap : ℕ}
    {inits : List α} (hpos : newCap ≠ 0) (hlen : newCap ≤ inits.length) :
    ∃ x, enter t (.resetWith newCap inits) c.shared = some x ∧
      (atomicArray ids adaptive).Returns t (c.shared.capacity + 6)
        (fun s' r ↦ r = .panicked .reset ∧ Untouched c.shared s') x := by
  obtain ⟨u, g, hg, rfl⟩ := ha
  obtain ⟨a, hok⟩ := (initWith_eq (ι := ι) newCap inits).2.2 hpos hlen
  have hw := hb.guards u g hg
  have hset := hb.settled (hl.calm_of_guard hg).2
  have hlt : g.index < c.shared.capacity := hw.lt.trans_le hset.tail_le
  obtain ⟨s₁, hs₁⟩ : ∃ s₁ : Store ι α, s₁ =
      { (c.shared.start g.acquirer).adopt a (inits.take newCap) with
        asked := Function.update c.shared.asked g.acquirer (newCap, inits) } := ⟨_, rfl⟩
  have hheap : ∀ b, b < c.shared.next → s₁.heap b = c.shared.heap b := by
    intro b hb
    rw [hs₁]
    exact Function.update_of_ne (Nat.ne_of_lt hb) _ _
  have hst : s₁.storage = c.shared.storage := by rw [hs₁]; rfl
  have hlock : s₁.coordLock = c.shared.coordLock := by rw [hs₁]; rfl
  have hcap : s₁.capacity = c.shared.capacity := by
    unfold Store.capacity
    rw [hst, hheap _ hl.sound.storage]
  have hcpos : 0 < Word.count c.shared.coordLock.state := by
    refine (hl.sound.accounts.count_of_shared (t := u) ?_).1
    rw [(hl.mine u).shared]
    have := List.length_pos_of_mem hg
    omega
  have hown : (s₁.slot s₁.storage g.index).lock.state &&& SerialWord.ownerMask =
      SerialWord.ownerBits (ids.id g.acquirer) := by
    unfold Store.slot
    rw [hst, hheap _ hl.sound.storage, ← hw.storage]
    exact (hl.owned hg).1
  have hrun : (atomicArray ids adaptive).Returns g.acquirer (s₁.capacity + 6)
      (fun s' r ↦ r = .panicked .reset ∧ Untouched c.shared s')
      (s₁, .goto (.resetTry ⟨c.shared.next, newCap⟩)) := by
    refine returns_resetTry (k := g.index) (hlock ▸ hl.sound.unparked) (hlock ▸ hcpos)
      (hlock ▸ hcount) (fun l ↦ ⟨rfl, hheap, hst, ?_, ?_, ?_, ?_⟩) (hcap ▸ hlt) hown
    all_goals
      rw [hs₁]
      rfl
  rw [hcap] at hrun
  exact ⟨_, by simp only [enter, hok, hs₁], hrun⟩

end Panic

/-! ### Atomicity

The parts put together: what a reset that succeeds has done, what one that panics has not done, and
what the others can see of either. -/

/-- **A live guard**: in the hands of a thread or of its running call, or still unlocking its
slot. -/
def Live (c : Config ι (Store ι α) (Pc ι α)) (g : Guard ι) : Prop :=
  ∃ t, g ∈ hands t c.shared (c.pcs t) ∨ (∃ p, c.pcs t = some (.dropSlot p g)) ∨
    ∃ p v, c.pcs t = some (.unlock p v) ∧ g = v.guard t

section Atomic

variable {c c' : Config ι (Store ι α) (Pc ι α)} {t : ι} {capacity : ℕ}

/-- A live guard points into the storage in use, and no reset is in its exclusive section. -/
theorem Live.pins {g : Guard ι} (h : Live c g) (hl : Locks ids c) (hb : Books c) :
    g.storage = c.shared.storage ∧ ∀ u p, c.pcs u = some p → p.sealed = 0 := by
  obtain ⟨t, hg | ⟨p, hpc⟩ | ⟨p, v, hpc, rfl⟩⟩ := h
  · rw [hands, List.mem_append] at hg
    obtain hg | hg := hg
    · exact ⟨(hb.guards t g hg).storage, (hl.calm_of_guard hg).1⟩
    · cases hpc : c.pcs t with
      | none =>
        rw [hpc] at hg
        cases hg
      | some q =>
        rw [hpc] at hg
        have hold := hb.holds t q hpc
        cases q with
        | access v =>
          obtain rfl := List.mem_singleton.1 hg
          exact ⟨hold.1.slots, (hl.calm_of_pinned hpc rfl).1⟩
        | unlock p v =>
          have hg' : g ∈ if SerialMutex.phase p = .wake then [] else [v.guard t] := hg
          split_ifs at hg'
          · cases hg'
          · obtain rfl := List.mem_singleton.1 hg'
            exact ⟨hold.1.slots, (hl.calm_of_pinned hpc rfl).1⟩
        | dropSlot p g' =>
          have hg' : g ∈ if SerialMutex.phase p = .wake then [] else [g'] := hg
          split_ifs at hg'
          · cases hg'
          · obtain rfl := List.mem_singleton.1 hg'
            exact ⟨hold.storage, (hl.calm_of_pinned hpc rfl).1⟩
        | _ => cases hg
  · have hold : Written c.shared g.storage g.index := hb.holds t _ hpc
    exact ⟨hold.storage, (hl.calm_of_pinned hpc rfl).1⟩
  · exact ⟨(hb.holds t _ hpc).1.slots, (hl.calm_of_pinned hpc rfl).1⟩

/-- **No step exchanges a storage under a live guard.** -/
theorem Live.kept {g : Guard ι} {l : Label ι (Op ι α)} (h : Live c g) (hl : Locks ids c)
    (hb : Books c) (hn : (atomicArray ids adaptive).next c l = some c') :
    c'.shared.storage = c.shared.storage := by
  obtain ⟨t, op, ⟨s', o⟩, -, -, he, rfl⟩ | ⟨t, ch, p, ⟨s', o⟩, -, hpc, he, rfl⟩ :=
    Object.next_cases hn
  · exact (enter_frame he).1
  · obtain hst | ⟨r, rfl⟩ := (exec_frame he).storage
    · exact hst
    · cases (h.pins hl hb).2 t _ hpc

/-- Before a reset leaves its exclusive section, the exchange is complete. -/
theorem Locks.calm_of_commit (h : Locks ids c) {q : RawMutex.Pc} {r : Reset} {old : ℕ}
    (hpc : c.pcs t = some (.coord q (.commit r old))) (hq : RawMutex.phase q = .releaseExclusive) :
    Calm c := by
  intro u p hp
  by_cases hu : u = t
  · subst hu
    cases hpc.symm.trans hp
    rfl
  · have hseal : (Pc.coord q (.commit r old) : Pc ι α).sealed = 1 := by
      show (RawMutex.phase q).seals = 1
      rw [hq]
      rfl
    have := ((h.alone hpc hseal u).2 p hp).2 hu
    cases p <;> first | rfl | cases this

/-- A reset returns after it has dropped what it replaced. -/
theorem exec_resetOk {ch : Choice ι} {p : Pc ι α} {s s' : Store ι α} {r : Reset} {n : ℕ}
    (hp : p.reset = some r) (he : exec ids adaptive t ch s p = some (s', .ret (.resetOk n))) :
    r.newCap = n ∧ ∃ old, s' = s.free old := by
  cases p with
  | coord p k =>
    obtain ⟨l, ⟨p', -, rfl, ho⟩ | ⟨e, -, hr⟩⟩ := coord_cases he
    · cases ho
    · cases k with
      | attempt r =>
        cases e with
        | bool b => cases b <;> cases hr
        | _ => cases hr
      | inspect | retry | unwind | commit => cases hr
      | _ => cases hp
  | inspect r i =>
    simp only [exec] at he
    split at he <;> cases he
  | resetDrop r old =>
    cases he
    cases hp
    exact ⟨rfl, old, rfl⟩
  | resetTry | resetShared | resetStorage | resetHead | resetTail | resetLen => cases he
  | _ => cases hp

variable (ids adaptive c) in
/-- **Atomicity of `reset_with`** in one configuration. -/
structure ResetAtomic : Prop where
  /-- The slots pointers, capacities and counters used by a call belong to one generation, the
  current one while the call is in its shared section. -/
  cited : ∀ t, ∃ g, ∀ a ∈ c.shared.uses t, a = g
  current : ∀ t p, c.pcs t = some p → p.pinned = 1 → ∀ a ∈ c.shared.uses t, a = c.shared.storage
  /-- The storage under a live guard is the one in use, and no step exchanges it or gives it
  back. -/
  guarded : ∀ g, Live c g → g.storage = c.shared.storage ∧ c.shared.freed g.storage = false ∧
    ∀ l c', (atomicArray ids adaptive).next c l = some c' →
      c'.shared.storage = c.shared.storage ∧ c'.shared.freed g.storage = false
  /-- When a reset leaves its exclusive section, capacity, `tail` and `len` are what was asked for,
  and the slots hold the values of the initializer in order. -/
  installed : ∀ t q r old, c.pcs t = some (.coord q (.commit r old)) →
    RawMutex.phase q = .releaseExclusive →
    c.shared.storage = r.fresh ∧ c.shared.head = 0 ∧ c.shared.capacity = (c.shared.asked t).1 ∧
      c.shared.tail = (c.shared.asked t).1 ∧ c.shared.len = (c.shared.asked t).1 ∧
      c.shared.contents = (c.shared.asked t).2.take (c.shared.asked t).1 ∧
      ∀ i, i < (c.shared.asked t).1 → (c.shared.slot c.shared.storage i).state = .write ∧
        (c.shared.slot c.shared.storage i).value = (c.shared.asked t).2[i]?
  /-- A reset returns the capacity it was asked for. Its generation has that many slots, filled by
  its initializer in order, and is full whenever it is the current one. -/
  returned : ∀ t ch p r s' n, c.pcs t = some p → p.reset = some r →
    exec ids adaptive t ch c.shared p = some (s', .ret (.resetOk n)) →
    (s'.asked t).1 = n ∧ n ≤ (s'.asked t).2.length ∧ (s'.heap r.fresh).capacity = n ∧
      names s' r.fresh = ((s'.asked t).2.take n).map (fun v ↦ (none, v)) ∧
      (Calm c → s'.storage = r.fresh → s'.capacity = n ∧ s'.tail = n ∧ s'.len = n)
  /-- A reset to no slots, or with an initializer that panics, changes nothing. -/
  rejected : ∀ t newCap inits, newCap = 0 ∨ inits.length < newCap →
    ∃ why, enter t (.resetWith newCap inits) c.shared = some (c.shared, .ret (.panicked why))
  /-- A reset that has not exchanged anything has changed nothing, and only such a reset panics. -/
  prepared : ∀ t ch p s' o, c.pcs t = some p → p.preparing = true →
    exec ids adaptive t ch c.shared p = some (s', o) → Untouched c.shared s'
  panicked : ∀ t ch p r s' why, c.pcs t = some p → p.reset = some r →
    exec ids adaptive t ch c.shared p = some (s', .ret (.panicked why)) → p.preparing = true
  /-- While a guard that the caller has acquired is live, its reset does not enter an exclusive
  section and does not finish a pass over the slots: at the slot of the guard it unwinds. -/
  stopped : ∀ t p, Acquired c t → c.pcs t = some p →
    p.sealed = 0 ∧ (∀ q r, p ≠ .coord q (.retry r)) ∧
      ∀ u, ∀ g ∈ c.shared.guards u, g.acquirer = t → ∀ r, p = .inspect r g.index → ∀ ch,
        exec ids adaptive t ch c.shared p =
          some (c.shared, .goto (.coord .unlockShared (.unwind r)))
  /-- Run alone it returns, by that panic, unless the reader count of the coordination lock is
  full. -/
  panics : ∀ t newCap inits, Acquired c t → newCap ≠ 0 → newCap ≤ inits.length →
    Word.count c.shared.coordLock.state + 1 < Word.writerCount →
    ∃ x, enter t (.resetWith newCap inits) c.shared = some x ∧
      (atomicArray ids adaptive).Returns t (c.shared.capacity + 6)
        (fun s' r ↦ r = .panicked .reset ∧ Untouched c.shared s') x

/-- **`reset_with` is atomic** with respect to every other access, in every reachable configuration
of an array, with guards held across any number of steps. -/
theorem reset_atomic (h : Reach (atomicArray ids adaptive) Always (init capacity) c) :
    ResetAtomic ids adaptive c := by
  have hl := reach_locks h
  have hb := reach_books h
  have hrep := reach_replaced h
  refine ⟨fun t ↦ (reach_cited h t).one, fun t p hpc hpin ↦ (reach_cited h t).current p hpc hpin,
    fun g hg ↦ ?_, fun t q r old hpc hq ↦ ?_, fun t ch p r s' n hpc hr he ↦ ?_,
    fun t newCap inits hor ↦ ?_,
    fun t ch p s' o _ hp he ↦ (exec_preparing hp he).1,
    fun t ch p r s' why _ hr he ↦ exec_panicked hr he, fun t p ha hpc ↦ ?_,
    fun t newCap inits ha hpos hle hcount ↦ returns_resetWith hl hb ha hcount hpos hle⟩
  · have hst := (hg.pins hl hb).1
    refine ⟨hst, hst ▸ (reach_owns h).storage.2, fun l c' hn ↦ ?_⟩
    have hkept := hg.kept hl hb hn
    refine ⟨hkept, ?_⟩
    rw [hst, ← hkept]
    exact (reach_owns (h.tail trivial hn)).storage.2
  · obtain ⟨hf, hst, htail, hlen⟩ : Full t c.shared r ∧ c.shared.storage = r.fresh ∧
        c.shared.tail = r.newCap ∧ c.shared.len = r.newCap := hb.holds t _ hpc hq
    have hset := hb.settled (hl.calm_of_commit hpc hq)
    refine ⟨hst, hset.head, ?_, ?_, ?_, ?_, fun i hi ↦ ?_⟩
    · rw [Store.capacity, hst, hf.cap, hf.asked]
    · rw [htail, hf.asked]
    · rw [hlen, hf.asked]
    · rw [Store.contents, hst, hf.ledger, hf.asked, List.map_map]
      exact List.map_id _
    · rw [hst]
      exact hf.written i (hf.asked ▸ hi)
  · have hm := hrep.made t p r hpc hr
    obtain ⟨rfl, old, rfl⟩ := exec_resetOk hr he
    refine ⟨hm.asked, hm.enough, hm.cap, hm.names, fun hcalm hst ↦ ?_⟩
    have hst' : c.shared.storage = r.fresh := hst
    obtain ⟨htail, hlen⟩ := hrep.counters hb hcalm (hst' ▸ hm.replaced)
    have hcap : c.shared.capacity = r.newCap := by rw [Store.capacity, hst', hm.cap]
    exact ⟨hcap, htail.trans hcap, hlen.trans hcap⟩
  · obtain ⟨h₀, h₁, -⟩ := initWith_eq (ι := ι) newCap inits
    by_cases hz : newCap = 0
    · exact ⟨.capacity, by simp only [enter, h₀ hz]⟩
    · exact ⟨.initializer, by simp only [enter, h₁ hz (hor.resolve_left hz)]⟩
  · obtain ⟨hseal, hretry⟩ := owner_stops hl hb (reach_passed h) ha hpc
    refine ⟨hseal, hretry, ?_⟩
    rintro u g hg rfl r rfl ch
    refine if_pos ?_
    rw [← (hb.guards u g hg).storage]
    exact (hl.owned hg).1

end Atomic

/-- Thread `0` holds a guard on slot `0` of a filled array and calls `reset_with` itself. -/
theorem reset_atomic_own_guard :
    ∃ c, Reach (atomicArray SerialMutex.twoIds 4) Always
    (init 1 : Config (Fin 2) (Store (Fin 2) ℕ) _) c ∧
      c.shared.guards 0 = [⟨0, 0, true, 0⟩] ∧ c.shared.capacity = 1 ∧
      ∃ x, enter 0 (.resetWith 1 [9]) c.shared = some x ∧
        (atomicArray SerialMutex.twoIds 4).Returns 0 7
          (fun s' r ↦ r = .panicked .reset ∧ Untouched c.shared s') x := by
  obtain ⟨c, hc, ht⟩ := Reach.exists_of_replay (atomicArray SerialMutex.twoIds 4) Always
    (init 1 : Config (Fin 2) (Store (Fin 2) ℕ) (Pc (Fin 2) ℕ))
    (.call 0 (.push 7) :: List.replicate 8 (.exec 0 .go) ++
      .call 0 (.get 0) :: List.replicate 6 (.exec 0 .go))
    (fun c ↦ decide (c.shared.guards 0 = [⟨0, 0, true, 0⟩] ∧ c.shared.capacity = 1 ∧
      Word.count c.shared.coordLock.state + 1 < Word.writerCount)) (by decide +kernel)
  obtain ⟨hg, hcap, hcount⟩ := of_decide_eq_true ht
  refine ⟨c, hc, hg, hcap, ?_⟩
  have hrun := (reset_atomic hc).panics 0 1 [9] ⟨0, _, hg ▸ List.mem_singleton_self _, rfl⟩
    one_ne_zero le_rfl hcount
  rwa [hcap] at hrun

end AtomicArray

end Crossync
