import Crossync.Atomic.VecAlone

/-!
# The representation of a list by `AtomicVec`

`RepAt s H q bs rs ps` says how the store `s` represents the list `q`: data slot number `H` is the
next one to be popped, the blocks `bs` are linked from `head` to `tail` and hold `q` in the data
slots from `H` on, `rs` are the retired blocks and `ps` the pooled ones, and no block is in two
places. Every 32nd index is no data slot, so positions are translated (`slotOf`) and the ends sit at
`slotOf H` and `slotOf (H + q.length)`; the sticky flag `HAS_NEXT` is only ever set while `head` has
a later block to go to.

The two ends have one lemma each that says what keeps the representation (`RepAt.wrote`,
`RepAt.took`), and a case for the inside of a block and one for its end (`push_inside`,
`push_cross`, `pop_inside`, `pop_cross`). Reclaiming moves the retired blocks to the pool, or back
to the allocator when it is full.

## Two cases for each end

An operation at an end stays inside a block or crosses into the next one. The first case changes one
slot and one index. The second takes a block from the pool or the allocator, or gives one to the
retired list, and moves the end. All results about `push` and `pop` go through these four lemmas.
-/

open Linked

namespace Crossync

namespace AtomicVec

namespace Alone

variable {α : Type*}

/-! ### Positions

Data slots against index values. -/

/-- The index of a data slot. -/
def slotOf (n : ℕ) : ℕ := 32 * (n / 31) + n % 31

theorem slotOf_div (n : ℕ) : slotOf n / 32 = n / 31 := by
  unfold slotOf
  omega

theorem slotOf_mod (n : ℕ) : slotOf n % 32 = n % 31 := by
  unfold slotOf
  omega

theorem number_slotOf (n : ℕ) : number (slotOf n) = n := by
  unfold number blockCap
  rw [slotOf_div, slotOf_mod]
  omega

theorem slotOf_inj {m n : ℕ} (h : slotOf m = slotOf n) : m = n := by
  rw [← number_slotOf m, h, number_slotOf]

/-- Inside a block the next data slot is the next index. -/
theorem slotOf_succ {n : ℕ} (h : n % 31 ≠ 30) : slotOf (n + 1) = slotOf n + 1 := by
  unfold slotOf
  omega

/-- At the end of a block an index is skipped. -/
theorem slotOf_succ_gap {n : ℕ} (h : n % 31 = 30) : slotOf (n + 1) = slotOf n + 2 := by
  unfold slotOf
  omega

theorem calcLen_slotOf (m n : ℕ) : calcLen (slotOf m) (slotOf n) = n - m := by
  have hm := slotOf_div m
  have hn := slotOf_div n
  have hm' := slotOf_mod m
  have hn' := slotOf_mod n
  unfold calcLen blockCap
  split_ifs with h
  · omega
  · omega

/-! ### The representation

The content, and where every block is. -/

/-- An allocator returns an address that is not null and not in use, as long as there is one. -/
def Allocates (alloc : ℕ → Mem (Block α) → ℕ) : Prop :=
  ∀ n m, (∃ B, ∀ a, B < a → m a = none) → alloc n m ≠ 0 ∧ m (alloc n m) = none

/-- **The store represents the list `q`**, with the next pop at data slot `H`. -/
structure RepAt (s : Store α) (H : ℕ) (q : List α) (bs rs ps : List ℕ) : Prop where
  headIndex : s.head.index / 2 = slotOf H
  hasNext : s.head.index % 2 = 1 → H / 31 < (H + q.length) / 31
  tailIndex : s.tail.index = 2 * slotOf (H + q.length)
  chain : Linked.Chain s.heap s.head.block bs
  last : bs.getLast? = some s.tail.block
  span : bs.length = (H + q.length) / 31 - H / 31 + 1
  slots : ∀ (i : ℕ) v (b : ℕ) blk, q[i]? = some v → bs[(H + i) / 31 - H / 31]? = some b →
    s.heap b = some blk →
    blk.state ((H + i) % 31) = write ∧ blk.value ((H + i) % 31) = some (H + i, v)
  counters : ∀ (k b : ℕ) blk, bs[k]? = some b → s.heap b = some blk →
    blk.counters = if k = 0 then H % 31 else 0
  retired : Linked.Chain s.heap s.retired rs
  pool : AtomicBuffer.Contains s.freeList ps
  poolCap : s.freeList.cap = 512
  pooled : ∀ p ∈ ps, p ≠ 0 ∧ ∃ blk, s.heap p = some blk ∧ blk.next = 0 ∧ blk.counters = 0
  nodup : (bs ++ rs ++ ps).Nodup
  bounded : ∃ B, ∀ a, B < a → s.heap a = none

section Facts

variable {s s' : Store α} {H : ℕ} {q : List α} {bs rs ps : List ℕ}

theorem RepAt.nodup_blocks (h : RepAt s H q bs rs ps) : bs.Nodup :=
  (List.nodup_append.1 (List.nodup_append.1 h.nodup).1).1

/-- A store with the same memory at the blocks, and the same ends and lists. -/
theorem RepAt.congr (h : RepAt s H q bs rs ps) (hhead : s'.head = s.head) (htail : s'.tail = s.tail)
    (hret : s'.retired = s.retired) (hpool : s'.freeList = s.freeList)
    (hheap : ∀ a ∈ bs ++ rs ++ ps, s'.heap a = s.heap a)
    (hbound : ∃ B, ∀ a, B < a → s'.heap a = none) : RepAt s' H q bs rs ps where
  headIndex := by rw [hhead]; exact h.headIndex
  hasNext := by rw [hhead]; exact h.hasNext
  tailIndex := by rw [htail]; exact h.tailIndex
  chain := by
    rw [hhead]
    refine h.chain.congr fun a ha ↦ ?_
    rw [hheap a (List.mem_append_left _ (List.mem_append_left _ ha))]
  last := by rw [htail]; exact h.last
  span := h.span
  slots := fun i v b blk hv hb hblk ↦ by
    rw [hheap b (List.mem_append_left _ (List.mem_append_left _ (List.mem_of_getElem? hb)))] at hblk
    exact h.slots i v b blk hv hb hblk
  counters := fun k b blk hb hblk ↦ by
    rw [hheap b (List.mem_append_left _ (List.mem_append_left _ (List.mem_of_getElem? hb)))] at hblk
    exact h.counters k b blk hb hblk
  retired := by
    rw [hret]
    refine h.retired.congr fun a ha ↦ ?_
    rw [hheap a (List.mem_append_left _ (List.mem_append_right _ ha))]
  pool := by rw [hpool]; exact h.pool
  poolCap := by rw [hpool]; exact h.poolCap
  pooled := fun p hp ↦ by
    rw [hheap p (List.mem_append_right _ hp)]
    exact h.pooled p hp
  nodup := h.nodup
  bounded := hbound

/-- The last block, with its place in the chain. -/
theorem RepAt.tail_block (h : RepAt s H q bs rs ps) :
    bs[(H + q.length) / 31 - H / 31]? = some s.tail.block ∧ s.tail.block ∈ bs ∧
      ∃ blk, s.heap s.tail.block = some blk := by
  have hmem := List.mem_of_getLast? h.last
  refine ⟨?_, hmem, (h.chain.exists_of_mem hmem).2⟩
  have hlast := h.last
  rw [List.getLast?_eq_getElem?, h.span, Nat.add_sub_cancel] at hlast
  exact hlast

/-- The first block. -/
theorem RepAt.head_block (h : RepAt s H q bs rs ps) :
    ∃ bs', bs = s.head.block :: bs' ∧ s.head.block ≠ 0 ∧ ∃ blk, s.heap s.head.block = some blk ∧
      Linked.Chain s.heap blk.next bs' := by
  cases bs with
  | nil =>
    have := h.span
    rw [List.length_nil] at this
    omega
  | cons b bs' =>
    obtain ⟨hb, hne, blk, hblk, hrest⟩ := h.chain
    subst hb
    exact ⟨bs', rfl, hne, blk, hblk, hrest⟩

theorem RepAt.offset_tail (h : RepAt s H q bs rs ps) :
    offset s.tail.index = (H + q.length) % 31 ∧ number (s.tail.index / 2) = H + q.length := by
  rw [offset, h.tailIndex, Nat.mul_div_cancel_left _ (by omega : 0 < 2)]
  exact ⟨slotOf_mod _, number_slotOf _⟩

theorem RepAt.offset_head (h : RepAt s H q bs rs ps) : offset s.head.index = H % 31 := by
  rw [offset, h.headIndex]
  exact slotOf_mod _

end Facts

/-! ### Blocks

A block for the next data slots comes from the pool or the allocator. -/

section Acquire

variable {alloc : ℕ → Mem (Block α) → ℕ} {s : Store α} {H : ℕ} {q : List α} {bs rs ps : List ℕ}

/-- What a new block leaves as it was. -/
theorem newBlock_spec (halloc : Allocates alloc) (hb : ∃ B, ∀ a, B < a → s.heap a = none) :
    ∃ b, newBlock alloc s = ({ s.setBlock b (some .zeroed) with allocs := s.allocs + 1 }, b) ∧
      b ≠ 0 ∧ s.heap b = none ∧
      ∃ B, ∀ a, B < a → (Function.update s.heap b (some .zeroed)) a = none := by
  obtain ⟨hne, hfree⟩ := halloc s.allocs s.heap hb
  obtain ⟨B, hB⟩ := hb
  refine ⟨_, rfl, hne, hfree, max B (alloc s.allocs s.heap), fun a ha ↦ ?_⟩
  rw [Function.update_of_ne (by omega)]
  exact hB a (by omega)

/-- What `acquire_block` does to the store: the block is a new one, or the oldest of the pool. -/
structure Acquired (s s' : Store α) (b : ℕ) (ps ps' : List ℕ) : Prop where
  head : s'.head = s.head
  tail : s'.tail = s.tail
  cacheTag : s'.cacheTag = s.cacheTag
  cachePtr : s'.cachePtr = s.cachePtr
  source : ps = [] ∧ ps' = [] ∧ s'.freeList = s.freeList ∧ s.heap b = none ∧
      s'.heap = Function.update s.heap b (some .zeroed) ∨
    ps = b :: ps' ∧ AtomicBuffer.popAlone s.freeList = some (s'.freeList, some b) ∧ s'.heap = s.heap

/-- **`acquire_block`** hands out a block that is in no list, unlinked and unread: one of the pool,
or a new one. -/
theorem RepAt.acquire (h : RepAt s H q bs rs ps) (halloc : Allocates alloc) :
    ∃ s' b ps', acquireBlock alloc s = some (s', b) ∧ RepAt s' H q bs rs ps' ∧
      Acquired s s' b ps ps' ∧ b ≠ 0 ∧ b ∉ bs ++ rs ++ ps' ∧
      ∃ blk, s'.heap b = some blk ∧ blk.next = 0 ∧ blk.counters = 0 := by
  unfold acquireBlock
  rw [h.pool.lenAlone_eq]
  cases ps with
  | nil =>
    obtain ⟨b, hnew, hne, hfree, hbound⟩ := newBlock_spec halloc h.bounded
    have hnot : b ∉ bs ++ rs ++ [] := by
      intro hmem
      rw [List.append_nil, List.mem_append] at hmem
      obtain ⟨n, hn⟩ : ∃ n, s.heap b = some n :=
        hmem.elim (fun hm ↦ (h.chain.exists_of_mem hm).2) fun hm ↦ (h.retired.exists_of_mem hm).2
      rw [hfree] at hn
      cases hn
    refine ⟨_, b, [], if_pos rfl |>.trans (congrArg some hnew), ?_,
      ⟨rfl, rfl, rfl, rfl, Or.inl ⟨rfl, rfl, rfl, hfree, rfl⟩⟩, hne, hnot, .zeroed,
      Function.update_self .., rfl, rfl⟩
    exact h.congr rfl rfl rfl rfl
      (fun a ha ↦ Function.update_of_ne (ne_of_mem_of_not_mem ha hnot) _ _) hbound
  | cons b ps =>
    obtain ⟨l, hpop, hcap, hl⟩ := h.pool.pop
    have hnd : (bs ++ rs ++ ps).Nodup ∧ b ∉ bs ++ rs ++ ps := by
      have hperm : (bs ++ rs ++ b :: ps).Perm (b :: (bs ++ rs ++ ps)) := List.perm_middle
      have := hperm.nodup_iff.1 h.nodup
      exact ⟨(List.nodup_cons.1 this).2, (List.nodup_cons.1 this).1⟩
    obtain ⟨hne, blk, hblk, hnext, hcount⟩ := h.pooled b (List.mem_cons_self ..)
    refine ⟨{ s with freeList := l }, b, ps, ?_, ?_,
      ⟨rfl, rfl, rfl, rfl, Or.inr ⟨rfl, hpop, rfl⟩⟩, hne, hnd.2, blk, hblk, hnext, hcount⟩
    · rw [if_neg (by simp), hpop]
    · exact { h with
        pool := hl
        poolCap := hcap.trans h.poolCap
        pooled := fun p hp ↦ h.pooled p (List.mem_cons_of_mem _ hp)
        nodup := hnd.1 }

end Acquire

/-! ### `push` -/

section Push

variable {alloc : ℕ → Mem (Block α) → ℕ} {s : Store α} {H : ℕ} {q : List α} {bs rs ps : List ℕ}

/-- The block that a push writes to: its slot gets the value, the rest stays. -/
def written (blk : Block α) (n : ℕ) (v : α) : Block α :=
  { blk with
    value := Function.update blk.value (n % 31) (some (n, v))
    state := Function.update blk.state (n % 31) write }

/-- Writing the next data slot extends the content. -/
theorem slots_written (h : RepAt s H q bs rs ps) {blk : Block α} {v : α} {heap : Mem (Block α)}
    {bs' : List ℕ} (hbs : bs <+: bs')
    (hself : ∃ x, heap s.tail.block = some (written { blk with next := x } (H + q.length) v))
    (hblk : s.heap s.tail.block = some blk)
    (hother : ∀ a ∈ bs, a ≠ s.tail.block → heap a = s.heap a) :
    ∀ (i : ℕ) x (b : ℕ) nb, (q ++ [v])[i]? = some x → bs'[(H + i) / 31 - H / 31]? = some b →
      heap b = some nb →
      nb.state ((H + i) % 31) = write ∧ nb.value ((H + i) % 31) = some (H + i, x) := by
  obtain ⟨y, hself⟩ := hself
  obtain ⟨more, rfl⟩ := hbs
  obtain ⟨htail, hmem, -⟩ := h.tail_block
  intro i x b nb hx hb hnb
  by_cases hi : i < q.length
  · rw [List.getElem?_append_left hi] at hx
    have hlt : (H + i) / 31 - H / 31 < bs.length := by
      rw [h.span]
      have : (H + i) / 31 ≤ (H + q.length) / 31 := Nat.div_le_div_right (by omega)
      omega
    rw [List.getElem?_append_left hlt] at hb
    by_cases hbt : b = s.tail.block
    · -- another slot of the block that is written to
      subst hbt
      have hidx := (List.getElem?_inj hlt h.nodup_blocks).1 (hb.trans htail.symm)
      have hne : (H + i) % 31 ≠ (H + q.length) % 31 := by
        have : H / 31 ≤ (H + i) / 31 := Nat.div_le_div_right (by omega)
        have : H / 31 ≤ (H + q.length) / 31 := Nat.div_le_div_right (by omega)
        omega
      obtain ⟨hst, hval⟩ := h.slots i x _ blk hx hb hblk
      cases hself.symm.trans hnb
      exact ⟨(Function.update_of_ne hne _ _).trans hst, (Function.update_of_ne hne _ _).trans hval⟩
    · rw [hother b (List.mem_of_getElem? hb) hbt] at hnb
      exact h.slots i x b nb hx hb hnb
  · have hi' : i = q.length := by
      have := (List.getElem?_eq_some_iff.1 hx).1
      rw [List.length_append, List.length_singleton] at this
      omega
    subst hi'
    rw [List.getElem?_append_right le_rfl, Nat.sub_self] at hx
    cases hx
    have hlt : (H + q.length) / 31 - H / 31 < bs.length := by
      rw [h.span]
      omega
    rw [List.getElem?_append_left hlt, htail] at hb
    cases hb
    cases hself.symm.trans hnb
    exact ⟨Function.update_self .., Function.update_self ..⟩

/-- **A push keeps the representation**, whether or not it links a block: `bs'` are the blocks after
it. -/
theorem RepAt.wrote {s' : Store α} {blk : Block α} {bs' : List ℕ} {x : ℕ} (h : RepAt s H q bs rs ps)
    (v : α) (hblk : s.heap s.tail.block = some blk)
    (hheap : s'.heap =
      Function.update s.heap s.tail.block (some (written { blk with next := x } (H + q.length) v)))
    (hhead : s'.head = s.head) (hret : s'.retired = s.retired) (hpool : s'.freeList = s.freeList)
    (htail : s'.tail.index = 2 * slotOf (H + q.length + 1)) (hpre : bs <+: bs')
    (hnew : ∀ b ∈ bs', b ∉ bs → ∃ nb, s.heap b = some nb ∧ nb.counters = 0)
    (hchain : Linked.Chain s'.heap s.head.block bs') (hlast : bs'.getLast? = some s'.tail.block)
    (hspan : bs'.length = (H + q.length + 1) / 31 - H / 31 + 1) (hnodup : (bs' ++ rs ++ ps).Nodup) :
    RepAt s' H (q ++ [v]) bs' rs ps := by
  obtain ⟨-, hmem, -⟩ := h.tail_block
  have hlen : H + (q ++ [v]).length = H + q.length + 1 := by
    rw [List.length_append, List.length_singleton, Nat.add_assoc]
  have hself : s'.heap s.tail.block = some (written { blk with next := x } (H + q.length) v) := by
    rw [hheap, Function.update_self]
  have hother : ∀ a, a ≠ s.tail.block → s'.heap a = s.heap a := fun a ha ↦ by
    rw [hheap, Function.update_of_ne ha]
  have hrest : ∀ a ∈ rs ++ ps, a ≠ s.tail.block := by
    intro a ha hat
    have hd := h.nodup
    rw [List.append_assoc, List.nodup_append] at hd
    exact hd.2.2 _ hmem _ ha hat.symm
  have hcount : ∀ (k b : ℕ) nb, bs'[k]? = some b → s.heap b = some nb →
      nb.counters = if k = 0 then H % 31 else 0 := by
    intro k b nb hb hnb
    obtain ⟨more, rfl⟩ := hpre
    by_cases hk : k < bs.length
    · rw [List.getElem?_append_left hk] at hb
      exact h.counters k b nb hb hnb
    · -- a block that was linked by this push
      have hnot : b ∉ bs := by
        rw [List.getElem?_append_right (by omega)] at hb
        have hd := (List.nodup_append.1 (List.nodup_append.1 hnodup).1).1
        exact fun hm ↦ (List.nodup_append.1 hd).2.2 _ hm _ (List.mem_of_getElem? hb) rfl
      obtain ⟨nb', hnb', hzero⟩ := hnew b (List.mem_of_getElem? hb) hnot
      cases hnb'.symm.trans hnb
      have hpos := List.length_pos_of_mem hmem
      rw [if_neg (by omega), hzero]
  exact
    { headIndex := by rw [hhead]; exact h.headIndex
      hasNext := fun hodd ↦ by
        rw [hhead] at hodd
        rw [hlen]
        exact lt_of_lt_of_le (h.hasNext hodd) (Nat.div_le_div_right (by omega))
      tailIndex := by rw [hlen]; exact htail
      chain := by rw [hhead]; exact hchain
      last := hlast
      span := by rw [hlen]; exact hspan
      slots := slots_written h hpre ⟨x, hself⟩ hblk fun a _ ha ↦ hother a ha
      counters := fun k b nb hb hnb ↦ by
        by_cases hbt : b = s.tail.block
        · subst hbt
          cases hself.symm.trans hnb
          exact hcount k _ blk hb hblk
        · exact hcount k b nb hb ((hother b hbt).symm.trans hnb)
      retired := by
        rw [hret]
        refine h.retired.congr fun a ha ↦ ?_
        rw [hother a (hrest a (List.mem_append_left _ ha))]
      pool := by rw [hpool]; exact h.pool
      poolCap := by rw [hpool]; exact h.poolCap
      pooled := fun p hp ↦ by
        rw [hother p (hrest p (List.mem_append_right _ hp))]
        exact h.pooled p hp
      nodup := hnodup
      bounded := by
        obtain ⟨B, hB⟩ := h.bounded
        refine ⟨max B s.tail.block, fun a ha ↦ ?_⟩
        exact (hother a (by omega)).trans (hB a (by omega)) }

/-- What a push to data slot `n` does to the memory and to the cache. -/
inductive Pushed (s s' : Store α) (n : ℕ) (v : α) (bs bs' ps ps' : List ℕ) : Prop where
  | inside (blk : Block α) (hin : n % 31 ≠ 30) (hbs : bs' = bs) (hps : ps' = ps)
      (hpool : s'.freeList = s.freeList) (hblk : s.heap s.tail.block = some blk)
      (hheap : s'.heap = Function.update s.heap s.tail.block (some (written blk n v)))
      (htag : s'.cacheTag = s.cacheTag) (hptr : s'.cachePtr = s.cachePtr)
  | cross (s₁ : Store α) (nb : ℕ) (blk : Block α) (hlast : n % 31 = 30)
    (hacq : Acquired s s₁ nb ps ps')
      (hbs : bs' = bs ++ [nb]) (hpool : s'.freeList = s₁.freeList)
      (hblk : s₁.heap s.tail.block = some blk)
      (hheap : s'.heap =
        Function.update s₁.heap s.tail.block (some (written { blk with next := nb } n v)))
      (htag : s'.cacheTag = Function.update s.cacheTag ((n / 31 + 1) % 32) (some (n / 31 + 1)))
      (hptr : s'.cachePtr = Function.update s.cachePtr ((n / 31 + 1) % 32) nb)

/-- A push that stays in the last block. -/
theorem RepAt.push_inside (h : RepAt s H q bs rs ps) (v : α) (hin : (H + q.length) % 31 ≠ 30) :
    ∃ s', pushInternal alloc v s = some s' ∧ RepAt s' H (q ++ [v]) bs rs ps ∧
      Pushed s s' (H + q.length) v bs bs ps ps := by
  obtain ⟨hoff, hnum⟩ := h.offset_tail
  obtain ⟨htail, hmem, blk, hblk⟩ := h.tail_block
  have hlt := Nat.mod_lt (H + q.length) (by omega : 0 < 31)
  have hdiv : (H + q.length + 1) / 31 = (H + q.length) / 31 := by omega
  have hpush : pushInternal alloc v s = some ({ s with
      tail := ⟨s.tail.index + 2, s.tail.block⟩ }.setBlock s.tail.block
        (some (written { blk with next := blk.next } (H + q.length) v))) := by
    simp only [pushInternal, writeSlot, hoff, hnum, hblk, blockCap, written]
    rw [if_neg (by omega), if_neg (by omega)]
  refine ⟨_, hpush, ?_, .inside blk hin rfl rfl rfl hblk rfl rfl rfl⟩
  refine h.wrote v hblk rfl rfl rfl rfl ?_ (List.prefix_refl bs) (fun b hb hnb ↦ absurd hb hnb)
    (h.chain.update_of_next hblk rfl) h.last ?_ h.nodup
  · rw [slotOf_succ hin]
    show s.tail.index + 2 = _
    rw [h.tailIndex]
    omega
  · rw [hdiv]
    exact h.span

/-- The tail does not matter to `acquire_block`. -/
theorem acquireBlock_tail (t : Position) : acquireBlock alloc { s with tail := t } =
    (acquireBlock alloc s).map fun r ↦ ({ r.1 with tail := t }, r.2) := by
  unfold acquireBlock
  by_cases hlen : AtomicBuffer.lenAlone s.freeList = 0
  · rw [if_pos hlen, if_pos hlen]
    rfl
  · rw [if_neg hlen, if_neg hlen]
    dsimp only
    rcases AtomicBuffer.popAlone s.freeList with _ | ⟨l, _ | b⟩ <;> rfl

/-- A push to the last data slot of a block links the next one first. -/
theorem RepAt.push_cross (h : RepAt s H q bs rs ps) (halloc : Allocates alloc) (v : α)
    (hlast : (H + q.length) % 31 = 30) :
    ∃ s' bs' ps', pushInternal alloc v s = some s' ∧ RepAt s' H (q ++ [v]) bs' rs ps' ∧
      Pushed s s' (H + q.length) v bs bs' ps ps' := by
  obtain ⟨s₁, nb, ps', hacq, h₁, hacq', hne, hnot, nblk, hnblk, hnext, hzero⟩ := h.acquire halloc
  have hhead := hacq'.head
  have htl := hacq'.tail
  obtain ⟨hoff, hnum⟩ := h.offset_tail
  obtain ⟨htail, hmem, blk, hblk⟩ := h₁.tail_block
  have hnb : nb ∉ bs := fun hm ↦ hnot (List.mem_append_left _ (List.mem_append_left _ hm))
  have hnt : nb ≠ s₁.tail.block := fun he ↦ hnb (he ▸ hmem)
  have hdiv : (H + q.length + 1) / 31 = (H + q.length) / 31 + 1 := by omega
  have hle : H / 31 ≤ (H + q.length) / 31 := Nat.div_le_div_right (by omega)
  have hblk' : s₁.heap s.tail.block = some blk := htl ▸ hblk
  have hpush : ∃ s', pushInternal alloc v s = some s' ∧
      s'.heap = Function.update s₁.heap s₁.tail.block
        (some (written { blk with next := nb } (H + q.length) v)) ∧
      s'.head = s₁.head ∧ s'.retired = s₁.retired ∧ s'.freeList = s₁.freeList ∧
      s'.tail = ⟨s.tail.index + 2 + 2, nb⟩ ∧
      s'.cacheTag = Function.update s₁.cacheTag (((s.tail.index + 2) / 2 / blockCap + 1) % blockCap)
        (some ((s.tail.index + 2) / 2 / blockCap + 1)) ∧
      s'.cachePtr = Function.update s₁.cachePtr (((s.tail.index + 2) / 2 / blockCap + 1) % blockCap)
        nb := by
    simp only [pushInternal, hoff, blockCap, linkNext, acquireBlock_tail, hacq,
      Option.map_some, hblk',
      htl]
    rw [if_neg (by omega), if_pos (by omega)]
    simp only [writeSlot, Store.setBlock, Store.cacheSet, Function.update_self, hnum, hoff]
    refine ⟨_, rfl, ?_, rfl, rfl, rfl, rfl, rfl, rfl⟩
    rw [Function.update_idem]
    rfl
  obtain ⟨s', hpush, hheap, hhd, hret, hpool, hst, htag, hptr⟩ := hpush
  have hblock : (s.tail.index + 2) / 2 / blockCap + 1 = (H + q.length) / 31 + 1 := by
    have hdiv := slotOf_div (H + q.length)
    have hmod := slotOf_mod (H + q.length)
    rw [h.tailIndex]
    unfold blockCap
    omega
  rw [hblock, hacq'.cacheTag] at htag
  rw [hblock, hacq'.cachePtr] at hptr
  refine ⟨s', bs ++ [nb], ps', hpush, ?_,
    .cross s₁ nb blk hlast hacq' rfl hpool hblk' (htl ▸ hheap) htag hptr⟩
  refine h₁.wrote v hblk hheap hhd hret hpool ?_ (List.prefix_append ..) ?_ ?_ ?_ ?_ ?_
  · have hidx : s'.tail.index = s.tail.index + 2 + 2 := by rw [hst]
    rw [hidx, slotOf_succ_gap hlast, h.tailIndex]
    omega
  · intro b hb hnb'
    rcases List.mem_append.1 hb with hb | hb
    · exact absurd hb hnb'
    · obtain rfl := List.mem_singleton.1 hb
      exact ⟨nblk, hnblk, hzero⟩
  · -- the link is made, and then the value written beside it
    have hsnoc := h₁.chain.snoc h₁.nodup_blocks h₁.last hblk hne hnb hnblk hnext
    rw [hheap]
    refine hsnoc.congr fun a _ ↦ ?_
    by_cases ha : a = s₁.tail.block
    · subst ha
      rw [Function.update_self, Function.update_self]
      rfl
    · rw [Function.update_of_ne ha, Function.update_of_ne ha]
  · rw [hst]
    exact List.getLast?_concat ..
  · rw [List.length_append, List.length_singleton, h₁.span]
    omega
  · have hperm : (bs ++ [nb] ++ rs ++ ps').Perm (nb :: (bs ++ rs ++ ps')) := by
      simp only [List.append_assoc, List.singleton_append]
      exact List.perm_middle
    exact hperm.nodup_iff.2 (List.nodup_cons.2 ⟨hnot, h₁.nodup⟩)

/-- **`push`** appends. -/
theorem RepAt.push (h : RepAt s H q bs rs ps) (halloc : Allocates alloc) (v : α) :
    ∃ s' bs' ps', pushInternal alloc v s = some s' ∧ RepAt s' H (q ++ [v]) bs' rs ps' ∧
      Pushed s s' (H + q.length) v bs bs' ps ps' := by
  by_cases hlast : (H + q.length) % 31 = 30
  · exact h.push_cross halloc v hlast
  · obtain ⟨s', hpush, h', heff⟩ := RepAt.push_inside (α := α) h v hlast
    exact ⟨s', bs, ps, hpush, h', heff⟩

end Push

/-! ### `pop` -/

section Pop

variable {s : Store α} {H : ℕ} {q : List α} {bs rs ps : List ℕ}

/-- The reservation of a pop, when there is a value: the sticky flag is set only when `tail` is in a
later block. -/
theorem RepAt.reserve_some {v : α} (h : RepAt s H (v :: q) bs rs ps) :
    ∃ newHead, reserve s = some newHead ∧ newHead / 2 = slotOf H + 1 ∧
      (newHead % 2 = 1 → H / 31 < (H + (q.length + 1)) / 31) := by
  have hlen : (v :: q).length = q.length + 1 := rfl
  have hne : s.head.index / 2 ≠ s.tail.index / 2 := by
    rw [h.headIndex, h.tailIndex, Nat.mul_div_cancel_left _ (by omega : 0 < 2)]
    intro he
    have := slotOf_inj he
    omega
  have hblocks : s.head.index / 2 / blockCap = H / 31 ∧
      s.tail.index / 2 / blockCap = (H + (q.length + 1)) / 31 := by
    rw [h.headIndex, h.tailIndex, Nat.mul_div_cancel_left _ (by omega : 0 < 2)]
    exact ⟨slotOf_div _, slotOf_div _⟩
  have hle : H / 31 ≤ (H + (q.length + 1)) / 31 := Nat.div_le_div_right (by omega)
  have hidx := h.headIndex
  simp only [reserve, hblocks.1, hblocks.2]
  by_cases heven : (s.head.index + 2) % 2 = 0
  · rw [if_pos heven, if_neg hne]
    by_cases hlater : H / 31 ≠ (H + (q.length + 1)) / 31
    · exact ⟨_, if_pos hlater, by omega, fun _ ↦ by omega⟩
    · exact ⟨_, if_neg hlater, by omega, fun hodd ↦ by omega⟩
  · refine ⟨_, if_neg heven, by omega, fun hodd ↦ h.hasNext (by omega)⟩

/-- A pop finds nothing in an empty queue. -/
theorem RepAt.pop_empty (h : RepAt s H [] bs rs ps) : popRaw s = some (s, none, false) := by
  obtain ⟨-, -, hne, -⟩ := h.head_block
  have heven : s.head.index % 2 ≠ 1 := fun hodd ↦ by
    have := h.hasNext hodd
    rw [List.length_nil] at this
    omega
  have hsame : s.head.index / 2 = s.tail.index / 2 := by
    rw [h.headIndex, h.tailIndex, Nat.mul_div_cancel_left _ (by omega : 0 < 2)]
    rfl
  have hoff := h.offset_head
  have hlt := Nat.mod_lt H (by omega : 0 < 31)
  have hres : reserve s = none := by
    simp only [reserve]
    rw [if_pos (by omega), if_pos hsame]
  simp only [popRaw, hoff, hres, blockCap]
  rw [if_neg (by omega)]

/-- The block that a pop reads from. -/
def emptied (blk : Block α) (n : ℕ) : Block α :=
  { blk with
    value := Function.update blk.value (n % 31) none
    state := Function.update blk.state (n % 31) read
    counters := n % 31 + 1 }

/-- The value that is read, and what is left of the content. -/
theorem RepAt.first {v : α} {blk : Block α} (h : RepAt s H (v :: q) bs rs ps)
    (hblk : s.heap s.head.block = some blk) :
    blk.state (H % 31) = write ∧ blk.value (H % 31) = some (H, v) ∧ blk.counters = H % 31 := by
  obtain ⟨bs', rfl, -⟩ := h.head_block
  have hslot := h.slots 0 v s.head.block blk rfl (by rw [Nat.add_zero, Nat.sub_self]; rfl) hblk
  exact ⟨hslot.1, hslot.2, h.counters 0 _ blk rfl hblk⟩

/-- **A pop keeps the representation**, whether or not it retires a block: `bs'` are the blocks
after it, the first of `bs` stays in front until its last slot is read. -/
theorem RepAt.took {s' : Store α} {v : α} {blk nblk : Block α} {bs' rs' : List ℕ}
    (h : RepAt s H (v :: q) bs rs ps) (hblk : s.heap s.head.block = some blk)
    (hheap : s'.heap = Function.update s.heap s.head.block (some nblk))
    (hnblk : ∃ x, nblk = { emptied blk H with next := x }) (hpool : s'.freeList = s.freeList)
    (htail : s'.tail = s.tail) (hhead : s'.head.index / 2 = slotOf (H + 1))
    (hnext : s'.head.index % 2 = 1 → (H + 1) / 31 < (H + (q.length + 1)) / 31)
    (hbs : bs' = bs.drop ((H + 1) / 31 - H / 31)) (hchain : Linked.Chain s'.heap s'.head.block bs')
    (hret : Linked.Chain s'.heap s'.retired rs')
    (hperm : (bs' ++ rs' ++ ps).Perm (bs ++ rs ++ ps)) :
    RepAt s' (H + 1) q bs' rs' ps := by
  obtain ⟨bt, hbt, -⟩ := h.head_block
  obtain ⟨x, rfl⟩ := hnblk
  have hother : ∀ a, a ≠ s.head.block → s'.heap a = s.heap a := fun a ha ↦ by
    rw [hheap, Function.update_of_ne ha]
  have hself : s'.heap s.head.block = some { emptied blk H with next := x } := by
    rw [hheap, Function.update_self]
  have hfirst : bs[0]? = some s.head.block := by rw [hbt]; rfl
  have hlen : H + 1 + q.length = H + (q.length + 1) := by omega
  have hmono : (H + 1) / 31 ≤ (H + (q.length + 1)) / 31 := Nat.div_le_div_right (by omega)
  have hspan : bs.length = (H + (q.length + 1)) / 31 - H / 31 + 1 := h.span
  have hle : H / 31 ≤ (H + 1) / 31 := Nat.div_le_div_right (by omega)
  -- a block that is still linked, in the old numbering
  have hold : ∀ (k b : ℕ), bs'[k]? = some b → bs[(H + 1) / 31 - H / 31 + k]? = some b := by
    intro k b hb
    rw [hbs, List.getElem?_drop] at hb
    exact hb
  have hfront : ∀ (k : ℕ), bs[k]? = some s.head.block → k = 0 := by
    intro k hk
    have hlt := (List.getElem?_eq_some_iff.1 hk).1
    exact (List.getElem?_inj hlt h.nodup_blocks).1 (hk.trans hfirst.symm)
  exact
    { headIndex := hhead
      hasNext := fun hodd ↦ by rw [hlen]; exact hnext hodd
      tailIndex := by rw [htail, hlen]; exact h.tailIndex
      chain := hchain
      last := by
        rw [htail, hbs, List.getLast?_drop, if_neg (by omega)]
        exact h.last
      span := by
        rw [hbs, List.length_drop, hlen]
        omega
      slots := fun i y b nb hy hb hnb ↦ by
        have hidx : H + 1 + i = H + (i + 1) := by omega
        rw [hidx] at hb ⊢
        have hge : (H + 1) / 31 ≤ (H + (i + 1)) / 31 := Nat.div_le_div_right (by omega)
        have hb' := hold _ b hb
        rw [show (H + 1) / 31 - H / 31 + ((H + (i + 1)) / 31 - (H + 1) / 31) =
          (H + (i + 1)) / 31 - H / 31 by omega] at hb'
        have hy' : (v :: q)[i + 1]? = some y := hy
        by_cases hbh : b = s.head.block
        · -- a later slot of the block that is read from
          subst hbh
          have hzero := hfront _ hb'
          have hne : (H + (i + 1)) % 31 ≠ H % 31 := by omega
          obtain ⟨hst, hval⟩ := h.slots (i + 1) y _ blk hy' hb' hblk
          cases hself.symm.trans hnb
          exact ⟨(Function.update_of_ne hne _ _).trans hst,
            (Function.update_of_ne hne _ _).trans hval⟩
        · rw [hother b hbh] at hnb
          exact h.slots (i + 1) y b nb hy' hb' hnb
      counters := fun k b nb hb hnb ↦ by
        have hb' := hold k b hb
        by_cases hbh : b = s.head.block
        · subst hbh
          have hzero := hfront _ hb'
          cases hself.symm.trans hnb
          show H % 31 + 1 = _
          rw [if_pos (by omega)]
          omega
        · rw [hother b hbh] at hnb
          have hk : (H + 1) / 31 - H / 31 + k ≠ 0 := by
            intro hk
            rw [hk, hfirst] at hb'
            exact hbh (Option.some.inj hb').symm
          rw [h.counters _ b nb hb' hnb, if_neg hk]
          split_ifs with hk0
          · omega
          · rfl
      retired := hret
      pool := by rw [hpool]; exact h.pool
      poolCap := by rw [hpool]; exact h.poolCap
      pooled := fun p hp ↦ by
        have hne : p ≠ s.head.block := by
          have hd := h.nodup
          rw [List.append_assoc, List.nodup_append] at hd
          exact fun he ↦ hd.2.2 s.head.block (List.mem_of_getElem? hfirst) p
            (List.mem_append_right _ hp) he.symm
        rw [hother p hne]
        exact h.pooled p hp
      nodup := hperm.nodup_iff.2 h.nodup
      bounded := by
        obtain ⟨B, hB⟩ := h.bounded
        refine ⟨max B s.head.block, fun a ha ↦ ?_⟩
        exact (hother a (by omega)).trans (hB a (by omega)) }

/-- The read of `pop_raw`, in a store that has only moved `head`. -/
theorem RepAt.readSlot_eq {v : α} {blk : Block α} (h : RepAt s H (v :: q) bs rs ps) (p : Position)
    (hblk : s.heap s.head.block = some blk) :
    readSlot s.head.index s.head.block { s with head := p } =
      if H % 31 = 30 then
        some ({ s with
          head := p
          heap :=
            Function.update s.heap s.head.block (some { emptied blk H with next := s.retired })
          retired := s.head.block
          retiredCount := s.retiredCount + 1 }, v,
          decide (64 ≤ s.retiredCount + 1 ∧ (s.retiredCount + 1) % 64 = 0))
      else
        some ({ s with
          head := p
          heap := Function.update s.heap s.head.block (some (emptied blk H)) }, v, false) := by
  obtain ⟨hst, hval, hcount⟩ := h.first hblk
  have hoff := h.offset_head
  have hset : write &&& write ≠ 0 := by decide
  simp only [readSlot, hblk, hoff, hst, if_neg hset, hval, hcount, blockCap]
  by_cases hlast : H % 31 = 30
  · rw [if_pos (by omega), if_pos hlast]
    simp only [retire, Store.setBlock, Function.update_self, Function.update_idem, emptied]
  · rw [if_neg (by omega), if_neg hlast]
    rfl

/-- What a pop from data slot `H` does to the memory, and where the block goes. -/
structure Popped (s s' : Store α) (H : ℕ) (bs bs' rs rs' : List ℕ) : Prop where
  heap : ∃ blk x, s.heap s.head.block = some blk ∧
    s'.heap = Function.update s.heap s.head.block (some { emptied blk H with next := x })
  pool : s'.freeList = s.freeList
  cacheTag : s'.cacheTag = s.cacheTag
  cachePtr : s'.cachePtr = s.cachePtr
  lists : H % 31 ≠ 30 ∧ bs' = bs ∧ rs' = rs ∨
    H % 31 = 30 ∧ bs = s.head.block :: bs' ∧ rs' = s.head.block :: rs

/-- A pop that stays in the first block. -/
theorem RepAt.pop_inside {v : α} (h : RepAt s H (v :: q) bs rs ps) (hin : H % 31 ≠ 30) :
    ∃ s', popRaw s = some (s', some v, false) ∧ RepAt s' (H + 1) q bs rs ps ∧
      Popped s s' H bs bs rs rs := by
  obtain ⟨newHead, hres, hidx, hflag⟩ := h.reserve_some
  obtain ⟨bs', hbs, hne, blk, hblk, -⟩ := h.head_block
  have hoff := h.offset_head
  have hlt := Nat.mod_lt H (by omega : 0 < 31)
  have hdiv : (H + 1) / 31 = H / 31 := by omega
  have hpop : popRaw s = some ({ s with
      head := ⟨newHead, s.head.block⟩
      heap := Function.update s.heap s.head.block (some (emptied blk H)) }, some v, false) := by
    simp only [popRaw, hoff, hres, blockCap]
    rw [if_neg (by omega), if_neg (by omega)]
    simp only [h.readSlot_eq _ hblk, if_neg hin, Option.map_some]
  refine ⟨_, hpop, ?_, ⟨blk, blk.next, hblk, rfl⟩, rfl, rfl, rfl, Or.inl ⟨hin, rfl, rfl⟩⟩
  have hret : s.head.block ∉ rs := by
    have hd := (List.nodup_append.1 h.nodup).1
    exact fun hm ↦ (List.nodup_append.1 hd).2.2 _ (hbs ▸ List.mem_cons_self ..) _ hm rfl
  refine h.took hblk rfl ⟨blk.next, rfl⟩ rfl rfl ?_ ?_ ?_ (h.chain.update_of_next hblk rfl)
    (h.retired.update_of_notMem hret _) (List.Perm.refl _)
  · rw [slotOf_succ hin]
    exact hidx
  · rw [hdiv]
    exact hflag
  · rw [hdiv, Nat.sub_self, List.drop_zero]

/-- The pop of a block's last value goes on to the next block and retires the block. -/
theorem RepAt.pop_cross {v : α} (h : RepAt s H (v :: q) bs rs ps) (hlast : H % 31 = 30) :
    ∃ s' bs' rs' reclaim, popRaw s = some (s', some v, reclaim) ∧ RepAt s' (H + 1) q bs' rs' ps ∧
      Popped s s' H bs bs' rs rs' := by
  obtain ⟨newHead, hres, hidx, -⟩ := h.reserve_some
  obtain ⟨bt, hbs, hne, blk, hblk, hrest⟩ := h.head_block
  have hspan : bs.length = (H + (q.length + 1)) / 31 - H / 31 + 1 := h.span
  have hmono : (H + 1) / 31 ≤ (H + (q.length + 1)) / 31 := Nat.div_le_div_right (by omega)
  have hdiv : (H + 1) / 31 = H / 31 + 1 := by omega
  -- there is a second block
  obtain ⟨b, bt, rfl⟩ : ∃ b bt', bt = b :: bt' := by
    cases bt with
    | nil =>
      rw [hbs, List.length_singleton] at hspan
      omega
    | cons b bt => exact ⟨b, bt, rfl⟩
  obtain ⟨hb, hbne, nblk, hnblk, hafter⟩ := hrest
  have hb' : blk.next = b := hb
  have hoff := h.offset_head
  have hcross : ∃ index, crossBlock newHead s.head.block
        { s with head := ⟨newHead, s.head.block⟩ } = some { s with head := ⟨index, b⟩ } ∧
      index / 2 = slotOf (H + 1) ∧ (index % 2 = 1 → (H + 1) / 31 < (H + (q.length + 1)) / 31) := by
    simp only [crossBlock, hblk, hb', if_neg hbne, hnblk]
    refine ⟨_, rfl, ?_, fun hodd ↦ ?_⟩
    · rw [slotOf_succ_gap hlast]
      split_ifs <;> omega
    · -- the flag is set only when a third block is linked
      have hnz : nblk.next ≠ 0 := by
        intro hz
        rw [if_neg (not_not.2 hz)] at hodd
        omega
      have hbt : bt ≠ [] := fun hnil ↦ hnz (hafter.null_iff.2 hnil)
      have hpos := List.length_pos_of_ne_nil hbt
      rw [hbs, List.length_cons, List.length_cons] at hspan
      omega
  obtain ⟨index, hcross, hindex, hflag⟩ := hcross
  have hpop : ∃ reclaim, popRaw s = some ({ s with
      head := ⟨index, b⟩
      heap := Function.update s.heap s.head.block (some { emptied blk H with next := s.retired })
      retired := s.head.block
      retiredCount := s.retiredCount + 1 }, some v, reclaim) := by
    simp only [popRaw, hoff, hres, blockCap]
    rw [if_neg (by omega), if_pos (by omega)]
    simp only [hcross, h.readSlot_eq _ hblk, if_pos hlast, Option.map_some]
    exact ⟨_, rfl⟩
  obtain ⟨reclaim, hpop⟩ := hpop
  refine ⟨_, b :: bt, s.head.block :: rs, reclaim, hpop, ?_,
    ⟨blk, s.retired, hblk, rfl⟩, rfl, rfl, rfl, Or.inr ⟨hlast, hbs, rfl⟩⟩
  have hd := h.nodup_blocks
  rw [hbs, List.nodup_cons] at hd
  have hret : s.head.block ∉ rs := by
    have hd := (List.nodup_append.1 h.nodup).1
    exact fun hm ↦ (List.nodup_append.1 hd).2.2 _ (hbs ▸ List.mem_cons_self ..) _ hm rfl
  refine h.took hblk rfl ⟨s.retired, rfl⟩ rfl rfl hindex hflag ?_ ?_ ?_ ?_
  · rw [hdiv, Nat.add_sub_cancel_left, hbs]
    rfl
  · have htail : Linked.Chain s.heap b (b :: bt) := ⟨rfl, hbne, nblk, hnblk, hafter⟩
    exact htail.update_of_notMem hd.1 _
  · exact h.retired.push hne hret rfl
  · rw [hbs, List.append_assoc, List.append_assoc]
    exact (List.perm_middle : (b :: bt ++ s.head.block :: (rs ++ ps)).Perm _)

/-- **`pop_raw`** takes the front value. -/
theorem RepAt.pop {v : α} (h : RepAt s H (v :: q) bs rs ps) :
    ∃ s' bs' rs' reclaim, popRaw s = some (s', some v, reclaim) ∧ RepAt s' (H + 1) q bs' rs' ps ∧
      Popped s s' H bs bs' rs rs' := by
  by_cases hlast : H % 31 = 30
  · exact h.pop_cross hlast
  · obtain ⟨s', hpop, h', heff⟩ := h.pop_inside hlast
    exact ⟨s', bs, rs, false, hpop, h', heff⟩

end Pop

/-! ### Reclaiming

The retired blocks become clean and go to the pool as long as it has room. -/

section Reclaim

variable {s : Store α} {H : ℕ} {q : List α} {bs rs ps : List ℕ}

/-- A block in no list is given back to the allocator. -/
theorem RepAt.freed {a : ℕ} (h : RepAt s H q bs rs ps) (ha : a ∉ bs ++ rs ++ ps) :
    RepAt (s.setBlock a none) H q bs rs ps := by
  refine h.congr rfl rfl rfl rfl
    (fun b hb ↦ Function.update_of_ne (ne_of_mem_of_not_mem hb ha) _ _) ?_
  obtain ⟨B, hB⟩ := h.bounded
  refine ⟨max B a, fun c hc ↦ ?_⟩
  exact (Function.update_of_ne (by omega) _ _).trans (hB c (by omega))

/-- A block in no list is put into the pool, unless it is full. -/
theorem RepAt.recycled {a : ℕ} {blk : Block α} (h : RepAt s H q bs rs ps) (ha : a ∉ bs ++ rs ++ ps)
    (hne : a ≠ 0) (hnext : blk.next = 0) (hzero : blk.counters = 0) (hlt : ps.length < 512) :
    ∃ l, AtomicBuffer.pushAlone a s.freeList = some (l, true) ∧
      RepAt { s.setBlock a (some blk) with freeList := l } H q bs rs (ps ++ [a]) := by
  obtain ⟨l, hpush, hcap, hl⟩ := h.pool.push (by rw [h.poolCap]; exact hlt) a
  have hkeep : ∀ b ∈ bs ++ rs ++ ps, Function.update s.heap a (some blk) b = s.heap b :=
    fun b hb ↦ Function.update_of_ne (ne_of_mem_of_not_mem hb ha) _ _
  have hbound : ∃ B, ∀ b, B < b → Function.update s.heap a (some blk) b = none := by
    obtain ⟨B, hB⟩ := h.bounded
    refine ⟨max B a, fun c hc ↦ ?_⟩
    exact (Function.update_of_ne (by omega) _ _).trans (hB c (by omega))
  have h' : RepAt (s.setBlock a (some blk)) H q bs rs ps := h.congr rfl rfl rfl rfl hkeep hbound
  refine ⟨l, hpush, { h' with
    pool := hl
    poolCap := hcap.trans h.poolCap
    pooled := fun p hp ↦ ?_
    nodup := ?_ }⟩
  · rcases List.mem_append.1 hp with hp | hp
    · exact h'.pooled p hp
    · obtain rfl := List.mem_singleton.1 hp
      exact ⟨hne, blk, Function.update_self .., hnext, hzero⟩
  · rw [← List.append_assoc]
    refine List.nodup_append.2 ⟨h.nodup, List.nodup_singleton a, fun b hb c hc ↦ ?_⟩
    obtain rfl := List.mem_singleton.1 hc
    exact ne_of_mem_of_not_mem hb ha

/-- What reclaiming does to the blocks in hand: each one is freed, or reset and put into the
pool. -/
inductive Reclaims : List ℕ → Store α → List ℕ → Store α → List ℕ → Prop where
  | nil (s : Store α) (ps : List ℕ) : Reclaims [] s ps s ps
  | free {a : ℕ} {rs ps ps' : List ℕ} {s s' : Store α}
    (h : Reclaims rs (s.setBlock a none) ps s' ps') :
      Reclaims (a :: rs) s ps s' ps'
  | pool {a : ℕ} {rs ps ps' : List ℕ} {s s' : Store α} {blk : Block α} {l : AtomicBuffer.Store ℕ}
      (hpush : AtomicBuffer.pushAlone a s.freeList = some (l, true))
      (h : Reclaims rs { s.setBlock a (some (Block.reset blk)) with freeList := l }
        (ps ++ [a]) s' ps') :
      Reclaims (a :: rs) s ps s' ps'

/-- The blocks that were taken from the retired list go to the pool, or back to the allocator. -/
theorem RepAt.reclaimLoop (h : RepAt s H q bs [] ps) {p : ℕ} (hc : Linked.Chain s.heap p rs)
    (hd : (bs ++ rs ++ ps).Nodup) :
    ∃ s' ps', RepAt s' H q bs [] ps' ∧ Reclaims rs s ps s' ps' ∧
      ∀ k, rs.length < k → Alone.reclaimLoop k p s = some s' := by
  induction rs generalizing p s ps with
  | nil =>
    refine ⟨s, ps, h, .nil s ps, fun k hk ↦ ?_⟩
    cases k with
    | zero => cases hk
    | succ k => rw [Alone.reclaimLoop, if_pos (show p = 0 from hc)]
  | cons a rs ih =>
    obtain ⟨rfl, hne, blk, hblk, hrest⟩ := hc
    have hperm : (bs ++ p :: rs ++ ps).Perm (p :: (bs ++ rs ++ ps)) := by
      rw [List.append_assoc, List.append_assoc]
      exact List.perm_middle
    obtain ⟨hnot, hd'⟩ := List.nodup_cons.1 (hperm.nodup_iff.1 hd)
    have hrs : p ∉ rs := fun hm ↦ hnot (List.mem_append_left _ (List.mem_append_right _ hm))
    have hlists : p ∉ bs ++ [] ++ ps := by
      rw [List.append_nil]
      intro hm
      refine hnot ?_
      rw [List.append_assoc]
      exact (List.mem_append.1 hm).elim (List.mem_append_left _)
        fun hp ↦ List.mem_append_right _ (List.mem_append_right _ hp)
    by_cases hfull : AtomicBuffer.lenAlone s.freeList = s.freeList.cap
    · obtain ⟨s', ps', h', heff, hloop⟩ := ih (h.freed hlists) (hrest.update_of_notMem hrs none) hd'
      refine ⟨s', ps', h', .free heff, fun k hk ↦ ?_⟩
      cases k with
      | zero => cases hk
      | succ k =>
        simp only [Alone.reclaimLoop, if_neg hne, hblk, if_pos hfull]
        exact hloop k (by simpa using hk)
    · have hlt : ps.length < 512 := by
        have hle := h.pool.length_le
        rw [h.poolCap] at hle hfull
        rw [h.pool.lenAlone_eq] at hfull
        omega
      obtain ⟨l, hpush, h₁⟩ := h.recycled hlists hne
        (show (Block.reset blk).next = 0 from rfl) rfl hlt
      have hd₁ : (bs ++ rs ++ (ps ++ [p])).Nodup := by
        rw [← List.append_assoc]
        refine List.nodup_append.2 ⟨hd', List.nodup_singleton p, fun b hb c hc ↦ ?_⟩
        obtain rfl := List.mem_singleton.1 hc
        exact ne_of_mem_of_not_mem hb hnot
      obtain ⟨s', ps', h', heff, hloop⟩ := ih h₁ (hrest.update_of_notMem hrs _) hd₁
      refine ⟨s', ps', h', .pool hpush heff, fun k hk ↦ ?_⟩
      cases k with
      | zero => cases hk
      | succ k =>
        simp only [Alone.reclaimLoop, if_neg hne, hblk, if_neg hfull, Store.setBlock, hpush]
        exact hloop k (by simpa using hk)

/-- **`reclaim_retired`** leaves the content alone. -/
theorem RepAt.reclaimRetired (h : RepAt s H q bs rs ps) :
    ∃ s' ps', RepAt s' H q bs [] ps' ∧
      Reclaims rs { s with retired := 0, retiredCount := 0 } ps s' ps' ∧
      ∀ fuel, rs.length < fuel → Alone.reclaimRetired fuel s = some s' := by
  have h₀ : RepAt { s with retired := 0, retiredCount := 0 } H q bs [] ps := { h with
    retired := rfl
    nodup := by
      have hd := h.nodup
      rw [List.append_assoc, List.nodup_append] at hd
      rw [List.append_nil]
      refine List.nodup_append.2 ⟨hd.1, (List.nodup_append.1 hd.2.1).2.1, fun a ha b hb ↦ ?_⟩
      exact hd.2.2 a ha b (List.mem_append_right _ hb) }
  exact h₀.reclaimLoop h.retired h.nodup

end Reclaim

end Alone

end AtomicVec

end Crossync
