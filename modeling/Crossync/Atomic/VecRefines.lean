import Crossync.Atomic.VecRep

/-!
# `AtomicVec` refines a plain list

Run one at a time, the operations of the queue do to its content what the list operations do to a
list, and return the same, from every constructor and for every sequence of calls.

Each call has one specification lemma: the call ends, with every bound on its loops that is large
enough it leaves the same store, and that store represents what the list operation yields. The
lemmas are stated for any relation of stores and lists that the steps of the code keep
(`Represents`), so that a relation that says more of the store than `Rep` does gets them for the
price of its own steps. `exec_spec` collects them and `run_spec` puts a sequence of calls together.

## Representations

`Represents` is a property of relations. The weakest relation says that the content is the list; a
stronger one adds who owns every block and value. Both get the call lemmas from the same proofs, so
the results about reads and about the destructor do not repeat the refinement.

## The one call that fails

`pop_batch` prepares a vector for as many values as it is asked for, and this fails for a request
beyond the address space, before the queue is touched. The refinement carries the condition, and
`popBatch_overflows` is an input that violates it.
-/

open Linked

namespace Crossync

namespace AtomicVec

namespace Alone

variable {α : Type*}

/-! ### What the calls rest on -/

/-- **The store represents the list `q`.** -/
def Rep (s : Store α) (q : List α) : Prop := ∃ H bs rs ps, RepAt s H q bs rs ps

/-- `reset_with`: the emptied store with the cache cleared and both ends on the first slot of its
one block. -/
def rewound (blk : Block α) (s : Store α) : Store α :=
  rewind s.head.block (((List.range blockCap).foldl (fun (s : Store α) i ↦ s.cacheSet i 0)
    { s with head := { s.head with index := 0 }, tail := { s.tail with index := 0 } }).setBlock
      s.head.block (some (Block.reset blk)))

/-- **A relation of stores and lists that the steps of the code keep.** Whatever else such a
relation says of the store, the calls refine the list operations by it. -/
structure Represents (alloc : ℕ → Mem (Block α) → ℕ) (R : Store α → List α → Prop) : Prop where
  fresh : R (Alone.new alloc) []
  fill : ∀ {s q}, R s q → ∀ n, ∃ s', fillPool alloc n s = some s' ∧ R s' q
  len_eq : ∀ {s q}, R s q → len s = q.length
  push : ∀ {s q}, R s q → ∀ v, ∃ s', pushInternal alloc v s = some s' ∧ R s' (q ++ [v])
  pop_empty : ∀ {s}, R s [] → popRaw s = some (s, none, false)
  pop : ∀ {s v q}, R s (v :: q) → ∃ s' reclaim, popRaw s = some (s', some v, reclaim) ∧ R s' q
  reclaim : ∀ {s q}, R s q → ∃ N s', R s' q ∧ s'.retired = 0 ∧
    ∀ fuel, N ≤ fuel → reclaimRetired fuel s = some s'
  rewind : ∀ {s}, R s [] → s.retired = 0 →
    s.head.block ≠ 0 ∧ ∃ blk, s.heap s.head.block = some blk ∧ R (rewound blk s) []

/-! ### Calls

One specification lemma for each call, over any representation. -/

namespace Represents

variable {alloc : ℕ → Mem (Block α) → ℕ} {R : Store α → List α → Prop} (hR : Represents alloc R)
  {s : Store α} {q : List α}

include hR

/-- **`push_batch`** appends. -/
theorem pushBatch (h : R s q) (vs : List α) :
    ∃ s', Alone.pushBatch alloc vs s = some s' ∧ R s' (q ++ vs) := by
  induction vs generalizing s q with
  | nil => exact ⟨s, rfl, by rwa [List.append_nil]⟩
  | cons v vs ih =>
    obtain ⟨s₁, hpush, h₁⟩ := hR.push h v
    obtain ⟨s₂, hrest, h₂⟩ := ih h₁
    refine ⟨s₂, ?_, ?_⟩
    · rw [Alone.pushBatch, hpush]
      exact hrest
    · rwa [List.append_assoc, List.singleton_append] at h₂

/-- **`try_reclaim`** ends and keeps the content. -/
theorem tryReclaim (h : R s q) :
    ∃ N s', R s' q ∧ ∀ fuel, N ≤ fuel → Alone.tryReclaim fuel s = some s' := by
  by_cases hzero : s.retiredCount = 0
  · exact ⟨0, s, h, fun fuel _ ↦ if_pos hzero⟩
  · obtain ⟨N, s', h', -, hrun⟩ := hR.reclaim h
    exact ⟨N, s', h', fun fuel hf ↦ (if_neg hzero).trans (hrun fuel hf)⟩

/-- **`pop`** takes the front value, if there is one. -/
theorem pop_call (h : R s q) :
    ∃ N s', R s' q.tail ∧ ∀ fuel, N ≤ fuel → Alone.pop fuel s = some (s', q.head?) := by
  cases q with
  | nil =>
    refine ⟨0, s, h, fun fuel _ ↦ ?_⟩
    rw [Alone.pop, hR.pop_empty h]
    rfl
  | cons v q =>
    obtain ⟨s₁, reclaim, hpop, h₁⟩ := hR.pop h
    cases reclaim with
    | true =>
      obtain ⟨N, s₂, h₂, hrun⟩ := hR.tryReclaim h₁
      refine ⟨N, s₂, h₂, fun fuel hf ↦ ?_⟩
      rw [Alone.pop, hpop]
      show (Alone.tryReclaim fuel s₁).map _ = _
      rw [hrun fuel hf]
      rfl
    | false =>
      refine ⟨0, s₁, h₁, fun fuel _ ↦ ?_⟩
      rw [Alone.pop, hpop]
      rfl

/-- The loop of `pop_batch` takes up to `count` values from the front. -/
theorem popLoop (h : R s q) (count : ℕ) :
    ∃ N s', R s' (q.drop count) ∧
      ∀ fuel, N ≤ fuel → Alone.popLoop fuel count s = some (s', q.take count) := by
  induction count generalizing s q with
  | zero => exact ⟨0, s, h, fun fuel _ ↦ rfl⟩
  | succ count ih =>
    obtain ⟨N, s₁, h₁, hpop⟩ := hR.pop_call h
    cases q with
    | nil =>
      refine ⟨N, s₁, h₁, fun fuel hf ↦ ?_⟩
      rw [Alone.popLoop, hpop fuel hf]
      rfl
    | cons v q =>
      obtain ⟨M, s₂, h₂, hrest⟩ := ih h₁
      refine ⟨max N M, s₂, h₂, fun fuel hf ↦ ?_⟩
      rw [Alone.popLoop, hpop fuel (by omega)]
      show (Alone.popLoop fuel count s₁).map _ = _
      rw [hrest fuel (by omega)]
      rfl

/-- **`pop_batch`** takes up to `count` values from the front, or panics and takes nothing. -/
theorem popBatch (h : R s q) (size count : ℕ) :
    ∃ N s', R s' (Spec.takeFront size count q).1 ∧
      ∀ fuel, N ≤ fuel → Alone.popBatch size fuel count s =
        some (s', (Spec.takeFront size count q).2) := by
  unfold Alone.popBatch Spec.takeFront
  split_ifs with hover
  · exact ⟨0, s, h, fun fuel _ ↦ rfl⟩
  · obtain ⟨N, s', h', hrun⟩ := hR.popLoop h count
    refine ⟨N, s', h', fun fuel hf ↦ ?_⟩
    rw [hrun fuel hf]
    rfl

/-- The loop that pops until the queue is empty takes everything. -/
theorem popAll (h : R s q) :
    ∃ s', R s' [] ∧ ∀ fuel, q.length < fuel → Alone.popAll fuel s = some (s', q) := by
  induction q generalizing s with
  | nil =>
    refine ⟨s, h, fun fuel hf ↦ ?_⟩
    cases fuel with
    | zero => cases hf
    | succ k =>
      rw [Alone.popAll, popInternal, hR.pop_empty h]
      rfl
  | cons v q ih =>
    obtain ⟨s₁, reclaim, hpop, h₁⟩ := hR.pop h
    obtain ⟨s₂, h₂, hrest⟩ := ih h₁
    refine ⟨s₂, h₂, fun fuel hf ↦ ?_⟩
    cases fuel with
    | zero => cases hf
    | succ k =>
      rw [Alone.popAll, popInternal, hpop]
      show (Alone.popAll k s₁).map _ = _
      rw [hrest k (by simpa using hf)]
      rfl

/-- **`as_vec`** takes everything, or panics and takes nothing. -/
theorem asVec (h : R s q) (size : ℕ) :
    ∃ N s', R s' (Spec.takeFront size q.length q).1 ∧
      ∀ fuel, N ≤ fuel → Alone.asVec size fuel s =
        some (s', (Spec.takeFront size q.length q).2) := by
  unfold Alone.asVec Spec.takeFront
  rw [hR.len_eq h]
  split_ifs with hover
  · exact ⟨0, s, h, fun fuel _ ↦ rfl⟩
  · obtain ⟨s₁, h₁, hall⟩ := hR.popAll h
    obtain ⟨N, s₂, h₂, -, hrun⟩ := hR.reclaim h₁
    refine ⟨max N (q.length + 1), s₂, ?_, fun fuel hf ↦ ?_⟩
    · rwa [List.drop_length]
    · rw [hall fuel (by omega), List.take_length]
      show (Alone.reclaimRetired fuel s₁).map _ = _
      rw [hrun fuel (by omega)]
      rfl

/-- **`remove`** takes one value out, or panics and takes nothing. -/
theorem remove (h : R s q) (size index : ℕ) :
    ∃ N s', R s' (Spec.remove size index q).1 ∧
      ∀ fuel, N ≤ fuel → Alone.remove size alloc fuel index s =
        some (s', (Spec.remove size index q).2) := by
  unfold Spec.remove
  by_cases hout : q.length ≤ index
  · rw [if_neg (by omega)]
    refine ⟨0, s, ?_, fun fuel _ ↦ ?_⟩
    · rwa [List.eraseIdx_of_length_le hout]
    · rw [Alone.remove, hR.len_eq h, if_pos hout, List.getElem?_eq_none hout]
  by_cases hover : isizeMax < q.length * size
  · rw [if_pos ⟨by omega, hover⟩]
    refine ⟨0, s, h, fun fuel _ ↦ ?_⟩
    rw [Alone.remove, hR.len_eq h, if_neg hout, if_pos hover]
  · rw [if_neg fun hboth ↦ hover hboth.2]
    obtain ⟨s₁, h₁, hall⟩ := hR.popAll h
    obtain ⟨s₂, hpush, h₂⟩ := hR.pushBatch h₁ (q.eraseIdx index)
    obtain ⟨v, hget⟩ : ∃ v, q[index]? = some v := ⟨_, List.getElem?_eq_getElem (by omega)⟩
    refine ⟨q.length + 1, s₂, h₂, fun fuel hf ↦ ?_⟩
    simp only [Alone.remove, hR.len_eq h, if_neg hout, if_neg hover, hall fuel (by omega),
      hget, hpush,
      Option.map_some]

/-- **`reverse`** reverses. -/
theorem reverse (h : R s q) :
    ∃ N s', R s' q.reverse ∧ ∀ fuel, N ≤ fuel → Alone.reverse alloc fuel s = some s' := by
  obtain ⟨s₁, h₁, hall⟩ := hR.popAll h
  obtain ⟨s₂, hpush, h₂⟩ := hR.pushBatch h₁ q.reverse
  refine ⟨q.length + 1, s₂, h₂, fun fuel hf ↦ ?_⟩
  rw [Alone.reverse, hall fuel (by omega)]
  exact hpush

omit hR in
/-- Clearing the cache of blocks touches nothing else. -/
theorem foldl_cacheSet (is : List ℕ) (s : Store α) :
    ∃ tags ptrs, is.foldl (fun s i ↦ s.cacheSet i 0) s =
      { s with cacheTag := tags, cachePtr := ptrs } := by
  induction is generalizing s with
  | nil => exact ⟨s.cacheTag, s.cachePtr, rfl⟩
  | cons i is ih => exact ih (s.cacheSet i 0)

/-- **`reset_with`** replaces the content. -/
theorem resetWith (h : R s q) (cap : ℕ) (init : ℕ → α) :
    ∃ N s', R s' ((List.range cap).map init) ∧
      ∀ fuel, N ≤ fuel → Alone.resetWith alloc fuel cap init s = some (s', cap) := by
  obtain ⟨s₁, h₁, hall⟩ := hR.popAll h
  obtain ⟨N, s₂, h₂, hret, hrec⟩ := hR.reclaim h₁
  obtain ⟨hne, blk, hblk, h₃⟩ := hR.rewind h₂ hret
  obtain ⟨s₄, hpush, h₄⟩ := hR.pushBatch h₃ ((List.range cap).map init)
  refine ⟨max (q.length + 1) N, s₄, h₄, fun fuel hf ↦ ?_⟩
  -- clearing the cache leaves the memory, so the block is still there to be reset
  obtain ⟨tags, ptrs, hfold⟩ := foldl_cacheSet (List.range blockCap)
    { s₂ with head := { s₂.head with index := 0 }, tail := { s₂.tail with index := 0 } }
  rw [rewound, hfold] at hpush
  simp only [Alone.resetWith, hall fuel (by omega), hrec fuel (by omega), hfold, ne_eq, hne,
    not_false_eq_true, if_true, hblk, hpush, Option.map_some]

/-- **`new`**, **`with_capacity`** and **`from_iter`** leave what they are to hold. -/
theorem start_spec (st : Start α) : ∃ s, start alloc st = some s ∧ R s (Spec.start st) := by
  cases st with
  | new => exact ⟨_, rfl, hR.fresh⟩
  | withCapacity cap => exact hR.fill hR.fresh _
  | fromIter vs => exact hR.pushBatch hR.fresh vs

/-- **One call refines its list operation.** -/
theorem exec_spec (h : R s q) (size : ℕ) (cmd : Cmd α) :
    ∃ N s', R s' (Spec.exec size cmd q).1 ∧
      ∀ fuel, N ≤ fuel → exec size alloc fuel cmd s = some (s', (Spec.exec size cmd q).2) := by
  cases cmd with
  | push v =>
    obtain ⟨s', hpush, h'⟩ := hR.push h v
    refine ⟨0, s', h', fun fuel _ ↦ ?_⟩
    rw [exec, hpush]
    rfl
  | pushBatch vs =>
    obtain ⟨s', hpush, h'⟩ := hR.pushBatch h vs
    refine ⟨0, s', h', fun fuel _ ↦ ?_⟩
    rw [exec, hpush]
    rfl
  | pop =>
    obtain ⟨N, s', h', hrun⟩ := hR.pop_call h
    refine ⟨N, s', h', fun fuel hf ↦ ?_⟩
    rw [exec, hrun fuel hf]
    rfl
  | popBatch count => exact hR.popBatch h size count
  | drain =>
    obtain ⟨N, s', h', hrun⟩ := hR.popBatch h size q.length
    refine ⟨N, s', h', fun fuel hf ↦ ?_⟩
    rw [exec, drain, hR.len_eq h]
    exact hrun fuel hf
  | asVec => exact hR.asVec h size
  | remove index => exact hR.remove h size index
  | reverse =>
    obtain ⟨N, s', h', hrun⟩ := hR.reverse h
    refine ⟨N, s', h', fun fuel hf ↦ ?_⟩
    rw [exec, hrun fuel hf]
    rfl
  | resetWith cap init =>
    obtain ⟨N, s', h', hrun⟩ := hR.resetWith h cap init
    refine ⟨N, s', h', fun fuel hf ↦ ?_⟩
    rw [exec, hrun fuel hf]
    rfl
  | len =>
    refine ⟨0, s, h, fun fuel _ ↦ ?_⟩
    rw [exec, hR.len_eq h]
    rfl

/-- **A sequence of calls refines the sequence of list operations.** -/
theorem run_spec (h : R s q) (size : ℕ) (cmds : List (Cmd α)) :
    ∃ N s', R s' (Spec.run size cmds q).1 ∧
      ∀ fuel, N ≤ fuel → run size alloc fuel cmds s = some (s', (Spec.run size cmds q).2) := by
  induction cmds generalizing s q with
  | nil => exact ⟨0, s, h, fun fuel _ ↦ rfl⟩
  | cons cmd cmds ih =>
    obtain ⟨N, s₁, h₁, hexec⟩ := hR.exec_spec h size cmd
    obtain ⟨M, s₂, h₂, hrest⟩ := ih h₁
    refine ⟨max N M, s₂, h₂, fun fuel hf ↦ ?_⟩
    rw [run, hexec fuel (by omega)]
    show (run size alloc fuel cmds s₁).map _ = _
    rw [hrest fuel (by omega)]
    rfl

end Represents

/-! ### `reset_with` and the constructors

An emptied queue is filled again from its first slot. -/

section Fresh

variable {alloc : ℕ → Mem (Block α) → ℕ} {s : Store α} {q : List α}

/-- Both ends on one block that nobody has used. -/
theorem repAt_single {b : ℕ} {blk : Block α} {ps : List ℕ} (hhead : s.head = ⟨0, b⟩)
    (htail : s.tail = ⟨0, b⟩) (hne : b ≠ 0) (hblk : s.heap b = some blk) (hnext : blk.next = 0)
    (hzero : blk.counters = 0) (hret : s.retired = 0) (hpool : AtomicBuffer.Contains s.freeList ps)
    (hcap : s.freeList.cap = 512)
    (hpooled : ∀ p ∈ ps, p ≠ 0 ∧ ∃ nb, s.heap p = some nb ∧ nb.next = 0 ∧ nb.counters = 0)
    (hd : (b :: ps).Nodup) (hbound : ∃ B, ∀ a, B < a → s.heap a = none) :
    RepAt s 0 [] [b] [] ps where
  headIndex := by simp [hhead, slotOf]
  hasNext := by
    rw [hhead]
    intro hodd
    cases hodd
  tailIndex := by simp [htail, slotOf]
  chain := by
    rw [hhead]
    exact ⟨rfl, hne, blk, hblk, hnext⟩
  last := by rw [htail]; rfl
  span := by simp
  slots := fun i v c nb hv ↦ by cases hv
  counters := fun k c nb hc hnb ↦ by
    cases k with
    | zero =>
      cases hc
      cases hblk.symm.trans hnb
      exact hzero
    | succ k => cases hc
  retired := hret
  pool := hpool
  poolCap := hcap
  pooled := hpooled
  nodup := hd
  bounded := hbound

/-- An empty queue has one block. -/
theorem RepAt.single {H : ℕ} {bs rs ps : List ℕ} (h : RepAt s H [] bs rs ps) :
    bs = [s.head.block] ∧ s.tail.block = s.head.block := by
  obtain ⟨bs', rfl, -⟩ := h.head_block
  have hspan := h.span
  rw [List.length_nil, List.length_cons] at hspan
  have hnil : bs' = [] := List.eq_nil_of_length_eq_zero (by omega)
  subst hnil
  exact ⟨rfl, (Option.some.inj h.last).symm⟩

/-- **The rewound store** holds nothing, on the same block. -/
theorem RepAt.rewound {H : ℕ} {bs ps : List ℕ} (h : RepAt s H [] bs [] ps) :
    s.head.block ≠ 0 ∧ ∃ blk, s.heap s.head.block = some blk ∧
      RepAt (Alone.rewound blk s) 0 [] [s.head.block] [] ps := by
  obtain ⟨rfl, -⟩ := h.single
  obtain ⟨-, -, hne, blk, hblk, -⟩ := h.head_block
  refine ⟨hne, blk, hblk, ?_⟩
  obtain ⟨tags, ptrs, hfold⟩ := Represents.foldl_cacheSet (List.range blockCap)
    { s with head := { s.head with index := 0 }, tail := { s.tail with index := 0 } }
  rw [Alone.rewound, hfold]
  have hd : (s.head.block :: ps).Nodup := h.nodup
  have hps : ∀ p ∈ ps, p ≠ s.head.block :=
    fun p hp ↦ ne_of_mem_of_not_mem hp (List.nodup_cons.1 hd).1
  refine repAt_single rfl rfl hne (Function.update_self ..) rfl rfl h.retired h.pool
    h.poolCap ?_ hd ?_
  · intro p hp
    obtain ⟨hpne, nb, hnb, hn⟩ := h.pooled p hp
    exact ⟨hpne, nb, (Function.update_of_ne (hps p hp) _ _).trans hnb, hn⟩
  · obtain ⟨B, hB⟩ := h.bounded
    refine ⟨max B s.head.block, fun a ha ↦ ?_⟩
    exact (Function.update_of_ne (by omega) _ _).trans (hB a (by omega))

/-- **`new`** is empty. -/
theorem new_repAt (halloc : Allocates alloc) : ∃ b, RepAt (Alone.new alloc) 0 [] [b] [] [] := by
  obtain ⟨b, hnew, hne, -, hbound⟩ :=
    newBlock_spec (s := (Store.empty : Store α)) halloc ⟨0, fun _ _ ↦ rfl⟩
  refine ⟨b, ?_⟩
  unfold Alone.new
  rw [hnew]
  refine repAt_single rfl rfl hne (Function.update_self ..) rfl rfl rfl ?_ rfl
    (fun p hp ↦ absurd hp List.not_mem_nil) (List.nodup_singleton b) hbound
  exact AtomicBuffer.contains_empty ⟨9, by decide, rfl⟩ (by decide) (by decide)

/-- What the loop of `with_capacity` does: each new block is put into the pool, or freed at once. -/
inductive Fills : Store α → List ℕ → Store α → List ℕ → Prop where
  | nil (s : Store α) (ps : List ℕ) : Fills s ps s ps
  | pool {b : ℕ} {ps ps' : List ℕ} {s s' : Store α} {l : AtomicBuffer.Store ℕ}
    (hfree : s.heap b = none)
      (hpush : AtomicBuffer.pushAlone b s.freeList = some (l, true))
      (h : Fills { { s with allocs := s.allocs + 1 }.setBlock b (some .zeroed) with freeList := l }
        (ps ++ [b]) s' ps') : Fills s ps s' ps'
  | free {b : ℕ} {ps ps' : List ℕ} {s s' : Store α} (hfree : s.heap b = none)
      (h : Fills ({ s with allocs := s.allocs + 1 }.setBlock b none) ps s' ps') : Fills s ps s' ps'

/-- The blocks that `with_capacity` makes go to the pool. -/
theorem RepAt.fillPool {H : ℕ} {bs rs ps : List ℕ} (h : RepAt s H q bs rs ps)
    (halloc : Allocates alloc) (n : ℕ) :
    ∃ s' ps', Alone.fillPool alloc n s = some s' ∧ RepAt s' H q bs rs ps' ∧ Fills s ps s' ps' := by
  induction n generalizing s ps with
  | zero => exact ⟨s, ps, rfl, h, .nil s ps⟩
  | succ n ih =>
    obtain ⟨b, hnew, hne, hfree, hbound⟩ := newBlock_spec halloc h.bounded
    have hnot : b ∉ bs ++ rs ++ ps := by
      intro hmem
      obtain ⟨nb, hnb⟩ : ∃ nb, s.heap b = some nb := by
        rcases List.mem_append.1 hmem with hmem | hmem
        · rcases List.mem_append.1 hmem with hmem | hmem
          · exact (h.chain.exists_of_mem hmem).2
          · exact (h.retired.exists_of_mem hmem).2
        · obtain ⟨-, nb, hnb, -⟩ := h.pooled b hmem
          exact ⟨nb, hnb⟩
      rw [hfree] at hnb
      cases hnb
    have h₀ : RepAt { s with allocs := s.allocs + 1 } H q bs rs ps := { h with }
    by_cases hlt : ps.length < 512
    · obtain ⟨l, hpush, h₁⟩ := h₀.recycled hnot hne
        (show (Block.zeroed : Block α).next = 0 from rfl) rfl hlt
      obtain ⟨s', ps', hfill, h', heff⟩ := ih h₁
      refine ⟨s', ps', ?_, h', .pool hfree hpush heff⟩
      rw [Alone.fillPool, hnew]
      simp only [Store.setBlock] at hfill ⊢
      rw [hpush]
      exact hfill
    · -- the pool is full: the block is freed at once
      have hlen : ps.length = s.freeList.cap := by
        have hle := h.pool.length_le
        rw [h.poolCap] at hle ⊢
        omega
      obtain ⟨s', ps', hfill, h', heff⟩ := ih (h₀.freed hnot)
      refine ⟨s', ps', ?_, h', .free hfree heff⟩
      rw [Alone.fillPool, hnew]
      simp only [Store.setBlock] at hfill ⊢
      rw [h.pool.push_full hlen]
      simp only [Function.update_idem]
      exact hfill

end Fresh

/-! ### The representation is kept

`RepAt` is such a representation. -/

section Run

variable {alloc : ℕ → Mem (Block α) → ℕ}

theorem RepAt.len_eq {s : Store α} {H : ℕ} {q : List α} {bs rs ps : List ℕ}
    (h : RepAt s H q bs rs ps) :
    len s = q.length := by
  rw [len, h.headIndex, h.tailIndex, Nat.mul_div_cancel_left _ (by omega : 0 < 2), calcLen_slotOf]
  omega

/-- **The steps of the code keep the representation.** -/
theorem represents_rep (halloc : Allocates alloc) : Represents alloc (Rep (α := α)) where
  fresh := by
    obtain ⟨b, h⟩ := new_repAt (α := α) halloc
    exact ⟨0, [b], [], [], h⟩
  fill := by
    rintro s q ⟨H, bs, rs, ps, h⟩ n
    obtain ⟨s', ps', hfill, h', -⟩ := h.fillPool halloc n
    exact ⟨s', hfill, H, bs, rs, ps', h'⟩
  len_eq := by
    rintro s q ⟨H, bs, rs, ps, h⟩
    exact h.len_eq
  push := by
    rintro s q ⟨H, bs, rs, ps, h⟩ v
    obtain ⟨s', bs', ps', hpush, h', -⟩ := h.push halloc v
    exact ⟨s', hpush, H, bs', rs, ps', h'⟩
  pop_empty := by
    rintro s ⟨H, bs, rs, ps, h⟩
    exact h.pop_empty
  pop := by
    rintro s v q ⟨H, bs, rs, ps, h⟩
    obtain ⟨s', bs', rs', reclaim, hpop, h', -⟩ := h.pop
    exact ⟨s', reclaim, hpop, H + 1, bs', rs', ps, h'⟩
  reclaim := by
    rintro s q ⟨H, bs, rs, ps, h⟩
    obtain ⟨s', ps', h', -, hrun⟩ := h.reclaimRetired
    exact ⟨rs.length + 1, s', ⟨H, bs, [], ps', h'⟩, h'.retired, hrun⟩
  rewind := by
    rintro s ⟨H, bs, rs, ps, h⟩ hret
    obtain rfl := h.retired.null_iff.1 hret
    obtain ⟨hne, blk, hblk, h'⟩ := h.rewound
    exact ⟨hne, blk, hblk, 0, [s.head.block], [], ps, h'⟩

/-- **The queue refines a plain list.** From every constructor and for every sequence of calls, no
call fails, the results are those of the list operations, and so is the content: popping the final
store until it is empty yields the final list, in order. All of this with every bound on the loops
that is large enough, whatever blocks the allocator hands out and whatever `size` the values have:
`pop_batch`, `drain`, `as_vec` and `remove` panic, and leave the content alone, where the vector
they set aside would exceed `isize::MAX` bytes. -/
theorem refines_plain_list {α : Type*} {alloc : ℕ → Mem (Block α) → ℕ} (halloc : Allocates alloc)
    (size : ℕ) (st : Start α) (cmds : List (Cmd α)) :
    ∃ N s s', start alloc st = some s ∧
      ∀ fuel, N ≤ fuel →
        run size alloc fuel cmds s = some (s', (Spec.run size cmds (Spec.start st)).2) ∧
        (popAll fuel s').map Prod.snd = some (Spec.run size cmds (Spec.start st)).1 ∧
        len s' = (Spec.run size cmds (Spec.start st)).1.length := by
  have hR := represents_rep halloc
  obtain ⟨s, hstart, h⟩ := hR.start_spec st
  obtain ⟨N, s', h', hrun⟩ := hR.run_spec h size cmds
  obtain ⟨t, -, hall⟩ := hR.popAll h'
  refine ⟨max N ((Spec.run size cmds (Spec.start st)).1.length + 1), s, s', hstart,
    fun fuel hf ↦ ?_⟩
  refine ⟨hrun fuel (by omega), ?_, hR.len_eq h'⟩
  rw [hall fuel (by omega)]
  rfl

end Run

/-- An allocator: some address that is not null and not in use. -/
noncomputable def someFree (_ : ℕ) (m : Mem (Block α)) : ℕ :=
  Classical.epsilon fun a ↦ a ≠ 0 ∧ m a = none

theorem allocates_someFree : Allocates (someFree : ℕ → Mem (Block α) → ℕ) := by
  rintro _ m ⟨B, hB⟩
  exact Classical.epsilon_spec (p := fun a ↦ a ≠ 0 ∧ m a = none)
    ⟨B + 1, Nat.succ_ne_zero B, hB _ (Nat.lt_succ_self B)⟩

/-- Sixty-two values of eight bytes fill two blocks; the front block is emptied and retired, one
value is removed, and the rest is reversed. -/
theorem refines_plain_list_two_blocks :
    ∃ N s s', start someFree (.fromIter (List.range 62)) = some s ∧
      ∀ fuel, N ≤ fuel →
        run 8 someFree fuel [.popBatch 58, .remove 1, .reverse, .len] s =
          some (s', [.list (List.range 58), .value (some 59), .unit, .nat 3]) ∧
        (popAll fuel s').map Prod.snd = some [61, 60, 58] ∧ len s' = 3 :=
  refines_plain_list allocates_someFree 8 (.fromIter (List.range 62))
    [.popBatch 58, .remove 1, .reverse, .len]

/-- **A batch that no vector can hold.** On a queue of one value of eight bytes,
`pop_batch(usize::MAX)` panics, where the list operation takes the value. -/
theorem popBatch_overflows :
    ∃ s, start someFree (.fromIter [7]) = some s ∧
      ∀ fuel, run 8 someFree fuel [.popBatch (2 ^ 64 - 1)] s = some (s, [.panicked]) ∧
        (Spec.run 0 [.popBatch (2 ^ 64 - 1)] [7]).2 = [.list [7]] ∧
        run 8 someFree fuel [.popBatch (2 ^ 64 - 1)] s ≠
          some (s, (Spec.run 0 [.popBatch (2 ^ 64 - 1)] [7]).2) := by
  obtain ⟨s, hstart, -⟩ := (represents_rep (α := ℕ) allocates_someFree).start_spec (.fromIter [7])
  have hpanics : ∀ fuel, run 8 someFree fuel [.popBatch (2 ^ 64 - 1)] s =
      some (s, [.panicked]) := by
    intro fuel
    rfl
  have hlist : (Spec.run 0 [.popBatch (2 ^ 64 - 1)] [7]).2 = [.list [7]] := by
    rfl
  refine ⟨s, hstart, fun fuel ↦ ⟨hpanics fuel, hlist, ?_⟩⟩
  rw [hpanics, hlist]
  simp

end Alone

end AtomicVec

end Crossync
