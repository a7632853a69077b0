import Crossync.Atomic.BufferTransfer
import Crossync.Atomic.VecCoord
import Crossync.Atomic.VecEnds

/-!
# The free list of an `AtomicVec`

The free list is an `AtomicBuffer`, so it could be used by many threads at once; the queue never
does. Blocks are taken out by the push that links a block, of which there is at most one and which
is pinned, and put in by the thread in the exclusive section. So a position that a thread has loaded
from the free list is never stale, and the results about the buffer hold without a bound on delays
(`Pooled.run`). For the same reason the length that `reclaim_retired` looks at is exact, and the
block that it then puts in finds a place (`Pooled.poolPush_accepted`).

## What the queue gets for free

The buffer's own results hold under a bound on delays. The queue meets the bound, since whoever has
loaded a position of the free list is alone with it until the access is made; so a component result
with a condition becomes one without.
-/

open Interleave

namespace Crossync

namespace AtomicBuffer

variable {ι α : Type*} [DecidableEq α]

/-- There is a free slot. -/
def Room (s : Store α) : Prop := s.tail < s.head + s.cap

/-- The position in hand is the current one, and a push has a free slot. -/
def Fresh (s : Store α) : Pc α → Prop
  | .pushTail _ => Room s
  | .pushSequence _ pos | .pushCas _ pos => pos = s.tail ∧ Room s
  | .popSequence pos | .popCas pos | .popTail pos => pos = s.head
  | _ => True

/-- Inside a `push` of `v`. -/
def Pushing (v : α) : Pc α → Prop
  | .pushTail x | .pushSequence x _ | .pushCas x _ | .pushStore x _ => x = v
  | .pushPublish _ => True
  | _ => False

/-- Inside a `pop`. -/
def Popping : Pc α → Prop
  | .popHead | .popSequence _ | .popCas _ | .popTail _ | .popTake _ | .popPublish _ _ => True
  | _ => False

omit [DecidableEq α] in
/-- A thread with a fresh position has not been delayed. -/
theorem Fresh.prompt {c : Config ι (Store α) (Pc α)} {t : ι} {p : Pc α} (ch : Choice ι)
    (hpc : c.pcs t = some p) (h : Fresh c.shared p) : Prompt c (.exec t ch) := by
  simp only [Prompt, hpc]
  cases p with
  | pushSequence v pos | pushCas v pos =>
    obtain ⟨rfl, -⟩ := h
    simp
  | popSequence pos | popCas pos | popTail pos =>
    obtain rfl : pos = _ := h
    simp
  | _ => trivial

section Steps

variable {t : ι} {ch : Choice ι} {s s' : Store α} {p : Pc α} {o : Outcome (Pc α) (Ret α)} {v : α}

theorem exec_popping (hp : Popping p) (h : exec t ch s p = some (s', o)) :
    (∃ q, o = .goto q ∧ Popping q ∧ (Fresh s p → Fresh s' q)) ∨ o = .ret .empty ∨
      ∃ x, o = .ret (.popped x) := by
  cases p with
  | popHead =>
    cases h
    exact Or.inl ⟨_, rfl, trivial, fun _ ↦ rfl⟩
  | popSequence pos =>
    simp only [exec] at h
    split_ifs at h
    all_goals cases h
    · exact Or.inl ⟨_, rfl, trivial, fun hf ↦ hf⟩
    · exact Or.inl ⟨_, rfl, trivial, fun hf ↦ hf⟩
    · exact Or.inl ⟨_, rfl, trivial, fun _ ↦ trivial⟩
  | popCas pos =>
    simp only [exec] at h
    split at h
    all_goals cases h
    · exact Or.inl ⟨_, rfl, trivial, fun _ ↦ trivial⟩
    · exact Or.inl ⟨_, rfl, trivial, fun _ ↦ rfl⟩
  | popTail pos =>
    simp only [exec] at h
    split_ifs at h
    all_goals cases h
    · exact Or.inr (Or.inl rfl)
    · exact Or.inl ⟨_, rfl, trivial, fun _ ↦ trivial⟩
  | popTake pos =>
    cases h
    exact Or.inl ⟨_, rfl, trivial, fun _ ↦ trivial⟩
  | popPublish pos x =>
    cases h
    exact Or.inr (Or.inr ⟨_, rfl⟩)
  | _ => exact absurd hp id

/-- A push with a fresh position and a slot that is free is not rejected. -/
theorem exec_pushing (hp : Pushing v p) (hf : Fresh s p)
    (hseq : (∃ x pos, p = .pushSequence x pos) → s.sequence (slot s s.tail) = s.tail)
    (h : exec t ch s p = some (s', o)) :
    (∃ q, o = .goto q ∧ Pushing v q ∧ Fresh s' q) ∨ o = .ret .ok := by
  cases p with
  | pushTail x =>
    cases h
    exact Or.inl ⟨_, rfl, hp, rfl, hf⟩
  | pushSequence x pos =>
    obtain ⟨rfl, hroom⟩ := hf
    simp only [exec] at h
    rw [if_pos (by rw [hseq ⟨x, _, rfl⟩, sub_word_eq_zero_iff])] at h
    cases h
    exact Or.inl ⟨_, rfl, hp, rfl, hroom⟩
  | pushCas x pos =>
    simp only [exec] at h
    split at h
    all_goals cases h
    · exact Or.inl ⟨_, rfl, hp, trivial⟩
    · exact Or.inl ⟨_, rfl, hp, rfl, hf.2⟩
  | pushStore x pos =>
    cases h
    exact Or.inl ⟨_, rfl, trivial, trivial⟩
  | pushPublish pos =>
    cases h
    exact Or.inr rfl
  | _ => exact absurd hp id

end Steps

section Lone

variable {φ : ℕ → Phase ι} {s : Store α}

omit [DecidableEq α] in
/-- With nobody responsible for a position, the slot of the next position is free if there is
room. -/
theorem Agrees.sequence_tail (h : Agrees φ s) (hroom : Room s)
    (hidle : ∀ p st t, φ p ≠ .held st t) :
    s.sequence (slot s s.tail) = s.tail := by
  have htwo := h.two_le
  unfold Room at hroom
  rw [slot_eq_mod h.pow]
  by_cases hlt : s.tail < s.cap
  · rw [Nat.mod_eq_of_lt hlt]
    exact (h.fresh s.tail le_rfl hlt).1
  · have hdone : φ (s.tail - s.cap) = .done := by
      have hpop := (h.popped_iff (s.tail - s.cap)).2 (by omega)
      cases hφ : φ (s.tail - s.cap) with
      | held st t => exact absurd hφ (hidle _ st t)
      | done => rfl
      | free | full =>
        rw [hφ] at hpop
        exact hpop.elim
    have hc := h.cells (s.tail - s.cap) (by omega) (by omega)
    rw [hdone, show (s.tail - s.cap) % s.cap = s.tail % s.cap from
      (Nat.mod_eq_sub_mod (not_lt.1 hlt)).symm] at hc
    have := congrArg Prod.fst hc
    simp only [cell] at this
    omega

omit [DecidableEq α] in
/-- The length is exact when it is computed on the current words. -/
theorem Agrees.lenApprox_eq (h : Agrees φ s) : lenApprox s.cap s.head s.tail = s.tail - s.head := by
  have h₁ := h.head_le
  have h₂ := h.tail_le
  have h₃ := h.cap_le
  have hsub : (word s.tail - word s.head).toNat = s.tail - s.head := by
    rw [word, word, BitVec.toNat_sub, BitVec.toNat_ofNat, BitVec.toNat_ofNat]
    omega
  rw [lenApprox, hsub]
  omega

end Lone

end AtomicBuffer

namespace AtomicVec

variable {ι α : Type*} [Fintype ι] [DecidableEq ι] {ids : Coord.ThreadIds ι} {adaptive : ℕ}

/-- The program point of the free list inside a program point. -/
def poolPc : Pc ι α → Option (AtomicBuffer.Pc ℕ)
  | .push _ (.poolPop p) | .reclaim _ (.poolPush _ _ p) => some p
  | _ => none

/-- What a thread that uses the free list knows about it. -/
def PoolKnows (l : AtomicBuffer.Store ℕ) : Pc ι α → Prop
  | .push _ (.poolPop p) => AtomicBuffer.Popping p ∧ AtomicBuffer.Fresh l p
  | .reclaim _ (.poolTail _ _ head) => head = l.head
  | .reclaim _ (.resetNext _ _) | .reclaim _ (.resetCount _ _) | .reclaim _ (.resetSlot _ _ _) =>
    AtomicBuffer.Room l
  | .reclaim _ (.poolPush b _ p) => AtomicBuffer.Pushing b p ∧ AtomicBuffer.Fresh l p
  | _ => True

/-- **The free list is used promptly.** -/
structure Pooled (c : Config ι (Store ι α) (Pc ι α)) : Prop where
  run : Reach (AtomicBuffer.atomicBuffer : Object ι _ _ _ _) AtomicBuffer.Prompt
    ⟨.empty 512, fun _ ↦ none⟩ (c.view Store.freeList poolPc)
  knows : ∀ t p, c.pcs t = some p → PoolKnows c.shared.freeList p

section Steps

variable {c : Config ι (Store ι α) (Pc ι α)} {t u : ι} {ch : Choice ι} {s' : Store ι α}
  {p q : Pc ι α} {o : Outcome (Pc ι α) (Ret α)}

omit [Fintype ι] in
theorem Pooled.inv (h : Pooled c) :
    ∃ φ : ℕ → AtomicBuffer.Phase ι, AtomicBuffer.Inv φ (c.view Store.freeList poolPc) :=
  have hcap : AtomicBuffer.withCapacity 512 = some (.empty 512 : AtomicBuffer.Store ℕ) :=
    if_pos ⟨⟨9, by decide, by decide⟩, by decide⟩
  AtomicBuffer.reach_inv hcap (by decide) h.run

omit [Fintype ι] [DecidableEq ι] in
/-- A thread relies on the free list only while it links a block or is in the exclusive section. -/
theorem linking_or_inside (hq : ∃ l : AtomicBuffer.Store ℕ, ¬PoolKnows l q) :
    (linking q).isSome ∧ (pinned q).isSome ∨ inside q = true := by
  obtain ⟨l, hl⟩ := hq
  cases q with
  | push f pt =>
    cases pt with
    | poolPop p => exact Or.inl ⟨rfl, rfl⟩
    | _ => exact absurd trivial hl
  | reclaim r pt =>
    cases pt with
    | poolTail | resetNext | resetCount | resetSlot | poolPush => exact Or.inr rfl
    | _ => exact absurd trivial hl
  | _ => exact absurd trivial hl

omit [Fintype ι] [DecidableEq ι] in
theorem linking_or_inside_of_poolPc {p' : AtomicBuffer.Pc ℕ} (hp : poolPc p = some p') :
    (linking p).isSome ∧ (pinned p).isSome ∨ inside p = true := by
  cases p with
  | push f pt =>
    cases pt with
    | poolPop p => exact Or.inl ⟨rfl, rfl⟩
    | _ => cases hp
  | reclaim r pt =>
    cases pt with
    | poolPush => exact Or.inr rfl
    | _ => cases hp
  | _ => cases hp

/-- **One thread uses the free list at a time.** -/
theorem pool_alone (hC : Coordinated ids adaptive c) (hE : Ends c) (hpc : c.pcs t = some p)
    (hqc : c.pcs u = some q) (hp : (linking p).isSome ∧ (pinned p).isSome ∨ inside p = true)
    (hq : (linking q).isSome ∧ (pinned q).isSome ∨ inside q = true) : u = t := by
  rcases hp with ⟨hlp, hpp⟩ | hip
  · rcases hq with ⟨hlq, -⟩ | hiq
    · exact hE.linking.unique u t (by rw [hqc]; exact hlq) (by rw [hpc]; exact hlp)
    · rw [(hC.inside_alone hqc hiq hpc).2] at hpp
      cases hpp
  · rcases hq with ⟨-, hpq⟩ | hiq
    · rw [(hC.inside_alone hpc hip hqc).2] at hpq
      cases hpq
    · exact (hC.inside_alone hpc hip hqc).1 hiq

omit [Fintype ι] in
/-- A step that does not use the free list. -/
theorem Pooled.put_same (h : Pooled c) (hs : s'.freeList = c.shared.freeList)
    (hp : (c.pcs t).bind poolPc = none)
    (hq : ∀ q, o.pc = some q → PoolKnows c.shared.freeList q ∧ poolPc q = none) :
    Pooled (c.put t (s', o)) := by
  refine ⟨h.run.view_same hs ?_,
    Config.forall_put (L := fun _ (s : Store ι α) q ↦ PoolKnows s.freeList q) ?_ ?_⟩
  · rw [hp]
    cases ho : o.pc with
    | none => rfl
    | some q => exact (hq q ho).2
  · intro q ho
    rw [hs]
    exact (hq q ho).1
  · intro u q _ hu
    rw [hs]
    exact h.knows u q hu

omit [Fintype ι] in
/-- A step that starts to use the free list. -/
theorem Pooled.put_call (h : Pooled c) (hs : s'.freeList = c.shared.freeList)
    (hp : (c.pcs t).bind poolPc = none) (op : AtomicBuffer.Op ℕ) {p' : AtomicBuffer.Pc ℕ}
    (he : AtomicBuffer.enter t op c.shared.freeList = some (c.shared.freeList, .goto p'))
    (hq : PoolKnows c.shared.freeList q) (hpq : poolPc q = some p') :
    Pooled (c.put t (s', (.goto q : Outcome (Pc ι α) (Ret α)))) := by
  refine ⟨h.run.view_call op (o := .goto p') ?_ hp ?_ ?_,
    Config.forall_put (L := fun _ (s : Store ι α) q ↦ PoolKnows s.freeList q) ?_ ?_⟩
  · trivial
  · rw [hs]
    exact he
  · simp [hpq]
  · rintro _ ⟨⟩
    rw [hs]
    exact hq
  · intro u q _ hu
    rw [hs]
    exact h.knows u q hu

/-- A step that uses the free list. -/
theorem Pooled.put_pool (h : Pooled c) (hC : Coordinated ids adaptive c) (hE : Ends c)
    (hpc : c.pcs t = some p) {p' : AtomicBuffer.Pc ℕ} (hp : poolPc p = some p')
    {o' : Outcome (AtomicBuffer.Pc ℕ) (AtomicBuffer.Ret ℕ)}
    (he : AtomicBuffer.exec t ch c.shared.freeList p' = some (s'.freeList, o'))
    (ho : o'.pc = o.pc.bind poolPc) (hfresh : AtomicBuffer.Fresh c.shared.freeList p')
    (hq : ∀ q, o.pc = some q → PoolKnows s'.freeList q) : Pooled (c.put t (s', o)) := by
  refine ⟨h.run.view_exec ch ?_ hpc hp he ho,
    Config.forall_put (L := fun _ (s : Store ι α) q ↦ PoolKnows s.freeList q) hq
      fun u q hu hqc ↦ ?_⟩
  · exact AtomicBuffer.Fresh.prompt ch (p := p') (by simp [hpc, hp]) hfresh
  · by_contra hne
    exact hu (pool_alone hC hE hpc hqc (linking_or_inside_of_poolPc hp)
      (linking_or_inside ⟨_, hne⟩))

/-- **The block that is put into the pool finds a place.** -/
theorem Pooled.poolPush_accepted (h : Pooled c) (hC : Coordinated ids adaptive c) (hE : Ends c)
    {r : Ret α} {b next : ℕ} {p' : AtomicBuffer.Pc ℕ}
    (hpc : c.pcs t = some (.reclaim r (.poolPush b next p'))) (ch : Choice ι)
    (l : AtomicBuffer.Store ℕ) (o' : Outcome (AtomicBuffer.Pc ℕ) (AtomicBuffer.Ret ℕ))
    (he : AtomicBuffer.exec t ch c.shared.freeList p' = some (l, o')) :
    (∃ q, o' = .goto q ∧ AtomicBuffer.Pushing b q ∧ AtomicBuffer.Fresh l q) ∨ o' = .ret .ok := by
  obtain ⟨hpush, hfresh⟩ := h.knows t _ hpc
  refine AtomicBuffer.exec_pushing hpush hfresh ?_ he
  rintro ⟨x, pos, rfl⟩
  obtain ⟨φ, hI⟩ := h.inv
  refine hI.agrees.sequence_tail hfresh.2 fun k st u hφ ↦ ?_
  -- a responsible thread would be a second user of the free list
  obtain ⟨q', hq', hclaim⟩ := Option.bind_eq_some_iff.1 ((hI.staked u k st).1 hφ)
  obtain ⟨q, hq, hqq'⟩ := Option.bind_eq_some_iff.1 hq'
  obtain rfl := pool_alone hC hE hpc hq (Or.inr rfl) (linking_or_inside_of_poolPc hqq')
  rw [hpc] at hq
  cases hq
  cases hqq'
  cases hclaim

omit [Fintype ι] in
/-- The free list has room for more than one block. -/
theorem Pooled.cap_ne_one (h : Pooled c) : c.shared.freeList.cap ≠ 1 := by
  obtain ⟨φ, hI⟩ := h.inv
  have hagr : AtomicBuffer.Agrees φ c.shared.freeList := hI.agrees
  have := hagr.two_le
  omega

/-- The accesses of a push. -/
theorem execPush_pooled {f : PushFrame α} {pt : PushPoint} (h : Pooled c)
    (hC : Coordinated ids adaptive c) (hE : Ends c) (hpc : c.pcs t = some (.push f pt))
    (he : execPush t ch c.shared f pt = some (s', o)) : Pooled (c.put t (s', o)) := by
  have hcap := h.cap_ne_one
  have hk := h.knows t _ hpc
  cases pt with
  | poolPop p' =>
    obtain ⟨hpop, hfresh⟩ := hk
    simp only [execPush] at he
    cases hx : AtomicBuffer.exec t ch c.shared.freeList p' with
    | none => simp [hx] at he
    | some r =>
      obtain ⟨l, o'⟩ := r
      obtain ⟨q, rfl, hq, hf⟩ | rfl | ⟨x, rfl⟩ := AtomicBuffer.exec_popping hpop hx
      · simp only [hx] at he
        cases he
        exact h.put_pool hC hE hpc rfl hx rfl hfresh (by rintro _ ⟨⟩; exact ⟨hq, hf hfresh⟩)
      · simp only [hx] at he
        cases he
        exact h.put_pool hC hE hpc rfl hx rfl hfresh (by rintro _ ⟨⟩; trivial)
      · cases x <;> simp only [hx] at he <;> cases he
        all_goals exact h.put_pool hC hE hpc rfl hx rfl hfresh (by rintro _ ⟨⟩; trivial)
  | poolTail head =>
    simp only [execPush, AtomicBuffer.popPc, if_neg hcap] at he
    split_ifs at he
    · cases he
      exact h.put_same rfl (by rw [hpc]; rfl) (by rintro _ ⟨⟩; exact ⟨trivial, rfl⟩)
    · cases he
      refine h.put_call rfl (by rw [hpc]; rfl) .pop ?_ ⟨trivial, trivial⟩ rfl
      simp [AtomicBuffer.enter, AtomicBuffer.popPc, hcap]
  | cas =>
    simp only [execPush] at he
    split at he
    · cases he
      refine h.put_same rfl (by rw [hpc]; rfl) ?_
      rintro _ ⟨⟩
      split_ifs <;> exact ⟨trivial, rfl⟩
    · cases he
      exact h.put_same rfl (by rw [hpc]; rfl) (by rintro _ ⟨⟩; exact ⟨trivial, rfl⟩)
  | _ =>
    simp only [execPush] at he
    repeat' split at he
    all_goals cases he
    all_goals
      exact h.put_same rfl (by rw [hpc]; rfl) (by rintro _ ⟨⟩; exact ⟨trivial, rfl⟩)

/-- The accesses of a reclamation. -/
theorem execReclaim_pooled {r : Ret α} {pt : ReclaimPoint ι} (h : Pooled c)
    (hC : Coordinated ids adaptive c) (hE : Ends c) (hpc : c.pcs t = some (.reclaim r pt))
    (he : execReclaim ids adaptive t ch c.shared r pt = some (s', o)) :
    Pooled (c.put t (s', o)) := by
  have hcap := h.cap_ne_one
  have hk := h.knows t _ hpc
  have hloop : ∀ block, PoolKnows c.shared.freeList (reclaimLoop t r block : Pc ι α) ∧
      poolPc (reclaimLoop t r block : Pc ι α) = none := by
    intro block
    unfold reclaimLoop
    split_ifs <;> exact ⟨trivial, rfl⟩
  cases pt with
  | enter p' =>
    simp only [execReclaim] at he
    obtain ⟨l, ⟨q, -, rfl, rfl⟩ | ⟨e, -, hdone⟩⟩ := coordStep_cases he
    · exact h.put_same rfl (by rw [hpc]; rfl) (by rintro _ ⟨⟩; exact ⟨trivial, rfl⟩)
    · unfold finish at hdone
      repeat' split at hdone
      all_goals cases hdone
      all_goals
        exact h.put_same rfl (by rw [hpc]; rfl) (by rintro _ ⟨⟩ <;> exact ⟨trivial, rfl⟩)
  | leave p' =>
    simp only [execReclaim] at he
    obtain ⟨l, ⟨q, -, rfl, rfl⟩ | ⟨e, -, hdone⟩⟩ := coordStep_cases he
    · exact h.put_same rfl (by rw [hpc]; rfl) (by rintro _ ⟨⟩; exact ⟨trivial, rfl⟩)
    · unfold finish at hdone
      repeat' split at hdone
      all_goals cases hdone
      all_goals exact h.put_same rfl (by rw [hpc]; rfl) (by rintro _ ⟨⟩)
  | count =>
    simp only [execReclaim, finish] at he
    repeat' split at he
    all_goals cases he
    all_goals
      exact h.put_same rfl (by rw [hpc]; rfl) (by rintro _ ⟨⟩ <;> exact ⟨trivial, rfl⟩)
  | poolTail b next head =>
    obtain rfl : head = _ := hk
    simp only [execReclaim] at he
    split_ifs at he with hfull
    · cases he
      exact h.put_same rfl (by rw [hpc]; rfl) (by rintro _ ⟨⟩; exact ⟨trivial, rfl⟩)
    · cases he
      obtain ⟨φ, hI⟩ := h.inv
      have hagr : AtomicBuffer.Agrees φ c.shared.freeList := hI.agrees
      have hlen := hagr.lenApprox_eq
      have hle := hagr.tail_le
      refine h.put_same rfl (by rw [hpc]; rfl) ?_
      rintro _ ⟨⟩
      refine ⟨?_, rfl⟩
      show _ < _
      omega
  | resetSlot b next i =>
    simp only [execReclaim] at he
    split_ifs at he
    · cases he
      exact h.put_same rfl (by rw [hpc]; rfl) (by rintro _ ⟨⟩; exact ⟨hk, rfl⟩)
    · cases he
      have hp : AtomicBuffer.pushPc c.shared.freeList b = .pushTail b := if_neg hcap
      refine h.put_call rfl (by rw [hpc]; rfl) (.push (some b)) rfl ?_ rfl
      rw [hp]
      exact ⟨rfl, hk⟩
  | poolPush b next p' =>
    have hacc := fun l o' ↦ h.poolPush_accepted hC hE hpc ch l o'
    simp only [execReclaim] at he
    split at he
    · cases he
    · rename_i l q hx
      cases he
      obtain ⟨_, ⟨⟩, hq⟩ | ⟨⟨⟩⟩ := hacc _ _ hx
      exact h.put_pool hC hE hpc rfl hx rfl hk.2 (by rintro _ ⟨⟩; exact hq)
    · rename_i l hx
      cases he
      refine h.put_pool hC hE hpc rfl hx ?_ hk.2 ?_
      · simp [(hloop next).2]
      · rintro _ ⟨⟩
        unfold reclaimLoop
        split_ifs <;> trivial
    · rename_i l e hne hx
      obtain ⟨_, ⟨⟩, -⟩ | ⟨⟨⟩⟩ := hacc _ _ hx
      exact absurd rfl hne
  | zero block | free block next =>
    cases he
    exact h.put_same rfl (by rw [hpc]; rfl) (by rintro _ ⟨⟩; exact hloop _)
  | poolHead b next =>
    cases he
    exact h.put_same rfl (by rw [hpc]; rfl) (by rintro _ ⟨⟩; exact ⟨rfl, rfl⟩)
  | resetNext b next | resetCount b next =>
    cases he
    exact h.put_same rfl (by rw [hpc]; rfl) (by rintro _ ⟨⟩; exact ⟨hk, rfl⟩)
  | swap | loadNext =>
    cases he
    exact h.put_same rfl (by rw [hpc]; rfl) (by rintro _ ⟨⟩; exact ⟨trivial, rfl⟩)

theorem exec_pooled (h : Pooled c) (hC : Coordinated ids adaptive c) (hE : Ends c)
    (hpc : c.pcs t = some p) (he : exec ids adaptive t ch c.shared p = some (s', o)) :
    Pooled (c.put t (s', o)) := by
  cases p with
  | push f pt => exact execPush_pooled h hC hE hpc he
  | pop f pt =>
    cases pt <;> simp only [exec, execPop] at he
    all_goals repeat' split at he
    all_goals cases he
    all_goals refine h.put_same rfl (by rw [hpc]; rfl) ?_
    all_goals
      rintro _ ⟨⟩
      all_goals exact ⟨trivial, rfl⟩
  | reclaim r pt => exact execReclaim_pooled h hC hE hpc he
  | pushPin v p' | popPin p' | pushUnpin p' =>
    simp only [exec] at he
    obtain ⟨l, ⟨q, -, rfl, rfl⟩ | ⟨e, -, hdone⟩⟩ := coordStep_cases he
    · exact h.put_same rfl (by rw [hpc]; rfl) (by rintro _ ⟨⟩; exact ⟨trivial, rfl⟩)
    · repeat' split at hdone
      all_goals cases hdone
      all_goals
        exact h.put_same rfl (by rw [hpc]; rfl) (by rintro _ ⟨⟩ <;> exact ⟨trivial, rfl⟩)
  | popUnpin res b p' =>
    simp only [exec, finish] at he
    obtain ⟨l, ⟨q, -, rfl, rfl⟩ | ⟨e, -, hdone⟩⟩ := coordStep_cases he
    · exact h.put_same rfl (by rw [hpc]; rfl) (by rintro _ ⟨⟩; exact ⟨trivial, rfl⟩)
    · repeat' split at hdone
      all_goals cases hdone
      all_goals
        exact h.put_same rfl (by rw [hpc]; rfl) (by rintro _ ⟨⟩ <;> exact ⟨trivial, rfl⟩)
  | pushBlock v lane tail =>
    cases he
    refine h.put_same rfl (by rw [hpc]; rfl) ?_
    rintro _ ⟨⟩
    unfold pushLoop
    split_ifs <;> exact ⟨trivial, rfl⟩
  | popBlock lane head =>
    cases he
    refine h.put_same rfl (by rw [hpc]; rfl) ?_
    rintro _ ⟨⟩
    unfold popLoop
    split_ifs <;> exact ⟨trivial, rfl⟩
  | pushTail | popHead | lenHead | lenTail =>
    cases he
    exact h.put_same rfl (by rw [hpc]; rfl) (by rintro _ ⟨⟩ <;> exact ⟨trivial, rfl⟩)

theorem reach_pooled {ok : Config ι (Store ι α) (Pc ι α) → Label ι (Op α) → Prop} {first : ℕ}
    (h : Reach (atomicVec ids adaptive) ok (init first) c) : Pooled c := by
  refine h.invariant (I := Pooled) ?_ ?_ ?_
  · exact ⟨.refl, by simp [init]⟩
  · rintro c t op ⟨s', o⟩ - hP - hpc he
    cases op with
    | _ =>
      cases he
      exact hP.put_same rfl (by rw [hpc]; rfl) (by rintro _ ⟨⟩ <;> exact ⟨trivial, rfl⟩)
  · rintro c t ch p ⟨s', o⟩ hc hP - hpc he
    exact exec_pooled hP (reach_coordinated hc) (reach_ends hc) hpc he

end Steps

end AtomicVec

end Crossync
