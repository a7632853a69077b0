import Crossync.Atomic.VecOwns

/-!
# Indexed access and traversal of `AtomicVec`

The operations that look at the content without taking it: `get` and `swap` by position, and the
traversals `index_of`, `contains`, `find`, `for_each`, `fold` and `reduce`. All of them run under
exclusive coordination, so they are modelled one at a time, over the blocks as they are.

Positions are found in two ways. `get` and `swap` divide by the 31 data slots of a block, from
wherever `head` stands in its own, and look the block up in the cache or walk to it; a traversal
goes through the index words from `head` to `tail`, block by block, and leaves out every 32nd one.
The five loops of the source differ only in what they do with a slot, so there is one loop here
(`traverse`) with that as a parameter. Reading a slot that is marked written and holds no value
fails (`none`), as does following a pointer to no block.

Both ways agree with the list: `Spans` says what the slots from some data slot on hold, block by
block, and `Spans.cons` takes the first block off, which is the step of every loop over blocks.

## Block cache

`get` and `swap` may find the block of a position in the cache instead of walking to it. The tag of
an entry says which block of the chain it is about, and an entry that is not null points at this
block as long as the block is linked (`Kept`). So the results cover both ways of finding a block
(`RepAt.cacheGet_eq`).
-/

open Linked

namespace Crossync

namespace AtomicVec

namespace Alone

variable {α : Type*}

section Code

variable (fuel : ℕ)

/-- `BlockArray::get`. -/
def Store.cacheGet (s : Store α) (idx : ℕ) : ℕ :=
  if s.cacheTag (idx % blockCap) = some idx then s.cachePtr (idx % blockCap) else 0

/-- `get_block_at`: the loop along the links, with the number of blocks left to pass. -/
def walk (s : Store α) : ℕ → ℕ → Option ℕ
  | 0, block => some block
  | n + 1, block =>
    if block = 0 then some 0
    else
      match s.heap block with
      | none => none
      | some b => walk s n b.next

/-- `get_block_at`. -/
def getBlockAt (targetBlock startBlock : ℕ) (s : Store α) : Option ℕ :=
  if s.cacheGet targetBlock ≠ 0 then some (s.cacheGet targetBlock)
  else walk s (targetBlock - startBlock) s.head.block

/-- What a slot shows: its value, if it is marked written. -/
def held (b : Block α) (i : ℕ) : Option (Option α) :=
  if b.state i &&& write ≠ 0 then
    match b.value i with
    | none => none
    | some (_, v) => some (some v)
  else some none

/-- `get_inner`. -/
def get (index : ℕ) (s : Store α) : Option (Option α) :=
  let startIdx := s.head.index / 2
  let endIdx := s.tail.index / 2
  if calcLen startIdx endIdx ≤ index then some none
  else
    let logical := startIdx % blockCap + index
    let adjustedBlockIdx := startIdx / blockCap + logical / (blockCap - 1)
    let finalOffset := logical % (blockCap - 1)
    match getBlockAt adjustedBlockIdx (startIdx / blockCap) s with
    | none => none
    | some block =>
      if block = 0 then some none
      else
        match s.heap block with
        | none => none
        | some b => held b finalOffset

/-- `get_slot_ptr`: the block and the offset, with block `0` for the null pointer. -/
def getSlotPtr (index startIdx : ℕ) (s : Store α) : Option (ℕ × ℕ) :=
  let logical := startIdx % blockCap + index
  let targetBlock := startIdx / blockCap + logical / (blockCap - 1)
  let offset := logical % (blockCap - 1)
  (getBlockAt targetBlock (startIdx / blockCap) s).map fun block ↦ (block, offset)

/-- The value cell of a slot is overwritten; a value is labelled with the data slot it is in. -/
def setValue (p : ℕ × ℕ) (n : ℕ) (x : Option (ℕ × α)) (s : Store α) : Option (Store α) :=
  match s.heap p.1 with
  | none => none
  | some b =>
    some (s.setBlock p.1 (some { b with
      value := Function.update b.value p.2 (x.map fun y ↦ (n, y.2)) }))

/-- The value cell of a slot. -/
def getValue (p : ℕ × ℕ) (s : Store α) : Option (Option (ℕ × α)) :=
  match s.heap p.1 with
  | none => none
  | some b => some (b.value p.2)

/-- `swap_inner`. -/
def swapInner (i j : ℕ) (s : Store α) : Option (Store α × Bool) :=
  let startIdx := s.head.index / 2
  let endIdx := s.tail.index / 2
  let len := calcLen startIdx endIdx
  if len ≤ i ∨ len ≤ j then some (s, false)
  else
    match getSlotPtr i startIdx s, getSlotPtr j startIdx s with
    | some p, some r =>
      if p.1 = 0 ∨ r.1 = 0 then some (s, false)
      else
        match getValue p s, getValue r s with
        | some x, some y =>
          match setValue p (number startIdx + i) y s with
          | none => none
          | some s => (setValue r (number startIdx + j) x s).map fun s ↦ (s, true)
        | _, _ => none
    | _, _ => none

/-- `swap`. -/
def swap (i j : ℕ) (s : Store α) : Option (Store α × Bool) :=
  if i = j then some (s, true) else swapInner i j s

section Traversal

variable {β γ : Type*} (visit : β → Option α → Except γ β)

/-- The inner loop of a traversal, over the slots of one block. `visit` is what the loop does with a
slot, given its value if it is marked written: it goes on with a new state, or returns. -/
def scanBlock (b : Block α) (blockStart blockEnd : ℕ) : ℕ → ℕ → β → Option (Except γ β)
  | 0, _, _ => none
  | k + 1, offset, acc =>
    if blockStart + offset < blockEnd ∧ offset < blockCap - 1 then
      match held b offset with
      | none => none
      | some v =>
        match visit acc v with
        | .error r => some (.error r)
        | .ok acc => scanBlock b blockStart blockEnd k (offset + 1) acc
    else some (.ok acc)

/-- The outer loop of a traversal, over the blocks. -/
def scan (s : Store α) (endIdx : ℕ) : ℕ → ℕ → ℕ → ℕ → β → Option (Except γ β)
  | 0, _, _, _, _ => none
  | k + 1, block, blockStart, offset, acc =>
    if blockStart < endIdx ∧ block ≠ 0 then
      match s.heap block with
      | none => none
      | some b =>
        match scanBlock visit b blockStart (min (blockStart + blockCap - 1) endIdx) blockCap
          offset acc with
        | none => none
        | some (.error r) => some (.error r)
        | some (.ok acc) => scan s endIdx k b.next (blockStart + blockCap) 0 acc
    else some (.ok acc)

/-- A traversal from `head` to `tail`. -/
def traverse (acc : β) (s : Store α) : Option (Except γ β) :=
  let startIdx := s.head.index / 2
  let endIdx := s.tail.index / 2
  scan visit s endIdx fuel s.head.block (startIdx / blockCap * blockCap) (startIdx % blockCap) acc

end Traversal

/-- `index_of_inner`: the position goes up at every slot. -/
def indexOf [BEq α] (value : α) (s : Store α) : Option (Option ℕ) :=
  (traverse fuel (fun logicalIdx o ↦
    match o with
    | some v => if v == value then .error logicalIdx else .ok (logicalIdx + 1)
    | none => .ok (logicalIdx + 1)) 0 s).map fun r ↦
      match r with
      | .error i => some i
      | .ok _ => none

/-- `contains`. -/
def contains [BEq α] (value : α) (s : Store α) : Option Bool :=
  (indexOf fuel value s).map Option.isSome

/-- `find_inner`. -/
def find (predicate : α → Bool) (s : Store α) : Option (Option α) :=
  (traverse fuel (fun (_ : Unit) o ↦
    match o with
    | some v => if predicate v then .error v else .ok ()
    | none => .ok ()) () s).map fun r ↦
      match r with
      | .error v => some v
      | .ok _ => none

/-- `fold_inner`. -/
def fold {β : Type*} (init : β) (f : β → α → β) (s : Store α) : Option β :=
  (traverse fuel (fun acc o ↦
    match o with
    | some v => .ok (f acc v)
    | none => (.ok acc : Except Empty β)) init s).map fun r ↦
      match r with
      | .ok acc => acc

/-- `for_each_inner`: the values that are handed to `f`, in order. -/
def forEach (s : Store α) : Option (List α) :=
  fold fuel [] (fun seen v ↦ seen ++ [v]) s

/-- `reduce_inner`. -/
def reduce (f : α → α → α) (s : Store α) : Option (Option α) :=
  if s.tail.index / 2 ≤ s.head.index / 2 then some none
  else
    fold fuel none (fun acc v ↦
      match acc with
      | none => some v
      | some a => some (f a v)) s

/-- How a queue comes into being, `init_with` included. -/
inductive Origin (α : Type*) where
  | start (st : Start α)
  | initWith (cap : ℕ) (init : ℕ → α)

/-- A queue as its constructor leaves it; the initializer of `init_with` yields `init`, call by
call. -/
def origin (alloc : ℕ → Mem (Block α) → ℕ) : Origin α → Option (Store α)
  | .start st => start alloc st
  | .initWith cap init =>
    match withCapacity alloc cap with
    | none => none
    | some s => pushBatch alloc ((List.range cap).map init) s

/-- What can be done to a queue: the calls, an attempt to reclaim, and `swap`. -/
inductive Act (α : Type*) where
  | call (cmd : Cmd α)
  | tryReclaim
  | swap (i j : ℕ)

/-- One operation, on values of `size` bytes. -/
def act (size : ℕ) (alloc : ℕ → Mem (Block α) → ℕ) : Act α → Store α → Option (Store α)
  | .call cmd, s => (exec size alloc fuel cmd s).map Prod.fst
  | .tryReclaim, s => tryReclaim fuel s
  | .swap i j, s => (swap i j s).map Prod.fst

/-- A sequence of operations. -/
def acts (size : ℕ) (alloc : ℕ → Mem (Block α) → ℕ) : List (Act α) → Store α → Option (Store α)
  | [], s => some s
  | a :: as, s =>
    match act fuel size alloc a s with
    | none => none
    | some s => acts size alloc as s

end Code

namespace Spec

/-- A list folded from its first element. -/
def reduce (f : α → α → α) : List α → Option α
  | [] => none
  | v :: vs => some (vs.foldl f v)

/-- Two positions of a list exchanged, if it has both. -/
def exchange (i j : ℕ) (q : List α) : List α :=
  match q[i]?, q[j]? with
  | some x, some y => (q.set i y).set j x
  | _, _ => q

/-- What a constructor leaves. -/
def origin : Origin α → List α
  | .start st => start st
  | .initWith cap init => (List.range cap).map init

/-- What an operation does to a plain list. -/
def act (size : ℕ) : Act α → List α → List α
  | .call cmd, q => (exec size cmd q).1
  | .tryReclaim, q => q
  | .swap i j, q => exchange i j q

end Spec

/-! ### What the slots hold

The content, cut into blocks. -/

section Spans

variable {heap : Mem (Block α)} {s : Store α} {H n : ℕ} {q vs : List α} {bs rs ps cs : List ℕ}

/-- The value in slot `i` of the block whose first data slot has number `base`, when the data slots
from `n` on hold `vs`. -/
def contentAt (n : ℕ) (vs : List α) (base i : ℕ) : Option α :=
  if i < 31 ∧ n ≤ base + i then vs[base + i - n]? else none

/-- **The blocks `cs` hold the values `vs`**, from data slot `n` on, and nothing else. -/
structure Spans (heap : Mem (Block α)) (n : ℕ) (vs : List α) (cs : List ℕ) : Prop where
  span : cs.length = (n + vs.length) / 31 - n / 31 + 1
  cell : ∀ (k b : ℕ), cs[k]? = some b → ∃ blk, heap b = some blk ∧
    ∀ i < 32, held blk i = some (contentAt n vs (31 * (n / 31 + k)) i)

/-- **The first block** holds as many of the values as fit behind its offset; the others hold the
rest. -/
theorem Spans.cons {b : ℕ} (h : Spans heap n vs (b :: cs)) :
    ∃ blk, heap b = some blk ∧
      (∀ i < 32, held blk i = some (contentAt n vs (31 * (n / 31)) i)) ∧
      (cs = [] ∧ n % 31 + vs.length < 31 ∨
        31 ≤ n % 31 + vs.length ∧ Spans heap (n + (31 - n % 31)) (vs.drop (31 - n % 31)) cs) := by
  obtain ⟨blk, hblk, hheld⟩ := h.cell 0 b rfl
  refine ⟨blk, hblk, hheld, ?_⟩
  have hspan := h.span
  rw [List.length_cons] at hspan
  by_cases hfit : n % 31 + vs.length < 31
  · exact Or.inl ⟨List.eq_nil_of_length_eq_zero (by omega), hfit⟩
  · refine Or.inr ⟨by omega, ?_, fun k c hc ↦ ?_⟩
    · rw [List.length_drop]
      omega
    · obtain ⟨nb, hnb, hheld⟩ := h.cell (k + 1) c hc
      refine ⟨nb, hnb, fun i hi ↦ ?_⟩
      rw [hheld i hi]
      -- the same slots, counted from the next block on
      have hbase : 31 * ((n + (31 - n % 31)) / 31 + k) = 31 * (n / 31 + (k + 1)) := by omega
      rw [hbase]
      simp only [contentAt, List.getElem?_drop]
      split_ifs
      · refine congrArg (fun m ↦ some vs[m]?) ?_
        omega
      · omega
      · omega
      · rfl

/-- The linked blocks hold the content. -/
theorem RepAt.spans (h : RepAt s H q bs rs ps) (hk : Kept s H (H + q.length) bs rs ps []) :
    Spans s.heap H q bs := by
  refine ⟨h.span, fun k b hb ↦ ?_⟩
  obtain ⟨-, blk, hblk⟩ := h.chain.exists_of_mem (List.mem_of_getElem? hb)
  refine ⟨blk, hblk, fun i hi ↦ ?_⟩
  have hstate := hk.linked k b blk hb hblk i hi
  by_cases hin : i < 31 ∧ H ≤ 31 * (H / 31 + k) + i ∧ 31 * (H / 31 + k) + i < H + q.length
  · obtain ⟨hi', hge, hlt⟩ := hin
    obtain ⟨v, hv⟩ : ∃ v, q[31 * (H / 31 + k) + i - H]? = some v :=
      ⟨_, List.getElem?_eq_getElem (by omega)⟩
    have hblock : (H + (31 * (H / 31 + k) + i - H)) / 31 - H / 31 = k := by omega
    have hoff : (H + (31 * (H / 31 + k) + i - H)) % 31 = i := by omega
    obtain ⟨hst, hval⟩ := h.slots _ v b blk hv (by rw [hblock]; exact hb) hblk
    rw [hoff] at hst hval
    rw [held, hst, if_pos (by decide), hval, contentAt, if_pos ⟨hi', hge⟩, hv]
  · -- not written: before `head`, after `tail`, or the slot that is never used
    have hnot : blk.state i &&& write = 0 := by
      rw [hstate, slotState]
      split_ifs
      · rfl
      · rfl
      · omega
      · rfl
    rw [held, if_neg (not_not.2 hnot), contentAt]
    split_ifs with hc
    · rw [List.getElem?_eq_none (by omega)]
    · rfl

end Spans

/-! ### Traversals

One loop with the visit as a parameter, and the operations of the source as its instances. -/

section Traversals

variable {s : Store α} {H n fuel : ℕ} {q vs : List α} {bs rs ps cs : List ℕ} {β γ : Type*}
  {visit : β → Option α → Except γ β}

/-- The inner loop visits the written slots from its offset on. -/
theorem scanBlock_eq {b : Block α} {blockStart blockEnd offset k : ℕ}
    (hheld : ∀ (j : ℕ) v, vs[j]? = some v → held b (offset + j) = some (some v))
    (hend : blockStart + offset + vs.length = blockEnd) (hcap : offset + vs.length ≤ 31)
    (hk : vs.length < k) (acc : β) :
    scanBlock visit b blockStart blockEnd k offset acc =
      some (vs.foldlM (fun a v ↦ visit a (some v)) acc) := by
  induction vs generalizing offset k acc with
  | nil =>
    cases k with
    | zero => cases hk
    | succ k =>
      rw [List.length_nil] at hend
      rw [scanBlock, if_neg (by omega)]
      rfl
  | cons v vs ih =>
    cases k with
    | zero => cases hk
    | succ k =>
      rw [List.length_cons] at hend hcap hk
      have hcond : blockStart + offset < blockEnd ∧ offset < blockCap - 1 := by
        unfold blockCap
        omega
      have hv : held b offset = some (some v) := hheld 0 v rfl
      rw [scanBlock, if_pos hcond, hv, List.foldlM_cons]
      cases hvisit : visit acc (some v) with
      | error r =>
        simp only [hvisit]
        rfl
      | ok acc =>
        simp only [hvisit]
        refine ih (fun j w hw ↦ ?_) (by omega) (by omega) (by omega) acc
        rw [Nat.add_right_comm]
        exact hheld (j + 1) w hw

/-- **The outer loop** visits what the blocks hold. -/
theorem scan_eq {p : ℕ} (hc : Linked.Chain s.heap p cs) (h : Spans s.heap n vs cs)
    (hf : cs.length < fuel) (acc : β) :
    scan visit s (slotOf (n + vs.length)) fuel p (n / 31 * 32) (n % 31) acc =
      some (vs.foldlM (fun a v ↦ visit a (some v)) acc) := by
  induction cs generalizing p n vs fuel acc with
  | nil =>
    have := h.span
    rw [List.length_nil] at this
    omega
  | cons b cs ih =>
    obtain ⟨rfl, hne, blk, hblk, hrest⟩ := hc
    obtain ⟨nb, hnb, hheld, htail⟩ := h.cons
    cases hblk.symm.trans hnb
    cases fuel with
    | zero => cases hf
    | succ k =>
      rw [List.length_cons] at hf
      have hend : slotOf (n + vs.length) = 32 * ((n + vs.length) / 31) + (n + vs.length) % 31 := rfl
      by_cases hstop : n / 31 * 32 < slotOf (n + vs.length)
      · -- the values of this block
        have hblock : scanBlock visit blk (n / 31 * 32)
            (min (n / 31 * 32 + blockCap - 1) (slotOf (n + vs.length))) blockCap (n % 31) acc =
              some ((vs.take (31 - n % 31)).foldlM (fun a v ↦ visit a (some v)) acc) := by
          have hlen : (vs.take (31 - n % 31)).length = min (31 - n % 31) vs.length :=
            List.length_take
          refine scanBlock_eq (fun j v hv ↦ ?_) ?_ ?_ ?_ acc
          · rw [List.getElem?_take] at hv
            split_ifs at hv with hj
            rw [hheld _ (by omega), contentAt, if_pos (by omega),
              show 31 * (n / 31) + (n % 31 + j) - n = j by omega, hv]
          · rw [hlen, hend]
            unfold blockCap
            omega
          · omega
          · rw [hlen]
            unfold blockCap
            omega
        rw [scan, if_pos ⟨hstop, hne⟩, hblk]
        simp only [hblock]
        have hsplit : vs.foldlM (fun a v ↦ visit a (some v)) acc =
            (vs.take (31 - n % 31)).foldlM (fun a v ↦ visit a (some v)) acc >>= fun a ↦
              (vs.drop (31 - n % 31)).foldlM (fun a v ↦ visit a (some v)) a := by
          rw [← List.foldlM_append, List.take_append_drop]
        rw [hsplit]
        cases (vs.take (31 - n % 31)).foldlM (fun a v ↦ visit a (some v)) acc with
        | error r => rfl
        | ok acc =>
          show scan visit s _ k (next blk) (n / 31 * 32 + blockCap) 0 acc =
            some ((vs.drop (31 - n % 31)).foldlM (fun a v ↦ visit a (some v)) acc)
          rcases htail with ⟨rfl, hfit⟩ | ⟨hfull, hspan⟩
          · -- the last block
            rw [List.drop_of_length_le (by omega)]
            cases k with
            | zero =>
              rw [List.length_nil] at hf
              omega
            | succ k =>
              rw [scan, if_neg fun hcond ↦ hcond.2 hrest]
              rfl
          · have hlen : n + (31 - n % 31) + (vs.drop (31 - n % 31)).length = n + vs.length := by
              rw [List.length_drop]
              omega
            have hstart : (n + (31 - n % 31)) / 31 * 32 = n / 31 * 32 + blockCap := by
              unfold blockCap
              omega
            have hoff : (n + (31 - n % 31)) % 31 = 0 := by omega
            have := ih hrest hspan (Nat.lt_of_succ_lt_succ hf) acc
            rwa [hlen, hstart, hoff] at this
      · -- `tail` stands at the start of this block
        have hnil : vs = [] := List.eq_nil_of_length_eq_zero (by omega)
        rw [scan, if_neg fun hcond ↦ hstop hcond.1, hnil]
        rfl

/-- **A traversal visits the content in order.** -/
theorem RepAt.traverse_eq (h : RepAt s H q bs rs ps) (hk : Kept s H (H + q.length) bs rs ps [])
    (hf : bs.length < fuel) (acc : β) :
    traverse fuel visit acc s = some (q.foldlM (fun a v ↦ visit a (some v)) acc) := by
  have : scan visit s _ fuel _ _ _ acc = _ := scan_eq h.chain (h.spans hk) hf acc
  rw [← slotOf_div, ← slotOf_mod] at this
  simp only [traverse, h.headIndex, h.tailIndex, Nat.mul_div_cancel_left _ (by omega : 0 < 2)]
  exact this

/-- A search that counts its rounds stops at the first hit. -/
theorem foldlM_search (test : α → Bool) (q : List α) (k : ℕ) :
    q.foldlM (fun i v ↦ if test v then .error i else .ok (i + 1)) k =
      match q.findIdx? test with
      | some i => (.error (k + i) : Except ℕ ℕ)
      | none => .ok (k + q.length) := by
  induction q generalizing k with
  | nil => rfl
  | cons v q ih =>
    rw [List.foldlM_cons, List.findIdx?_cons]
    cases test v with
    | true => rfl
    | false =>
      simp only [Bool.false_eq_true, if_false]
      show q.foldlM _ (k + 1) = _
      rw [ih (k + 1)]
      cases q.findIdx? test with
      | none =>
        rw [Option.map_none, List.length_cons]
        exact congrArg Except.ok (by omega)
      | some i => exact congrArg Except.error (Nat.add_right_comm k 1 i)

/-- **`index_of`** finds the first position. -/
theorem RepAt.indexOf_eq [BEq α] (h : RepAt s H q bs rs ps)
    (hk : Kept s H (H + q.length) bs rs ps []) (hf : bs.length < fuel) (value : α) :
    indexOf fuel value s = some (q.findIdx? (· == value)) := by
  rw [indexOf, h.traverse_eq hk hf, foldlM_search]
  cases q.findIdx? (· == value) with
  | none => rfl
  | some i =>
    rw [Option.map_some]
    exact congrArg (fun n ↦ some (some n)) (Nat.zero_add i)

/-- **`find`** finds the first value that passes the test. -/
theorem RepAt.find_eq (h : RepAt s H q bs rs ps) (hk : Kept s H (H + q.length) bs rs ps [])
    (hf : bs.length < fuel) (predicate : α → Bool) :
    Alone.find fuel predicate s = some (q.find? predicate) := by
  have hsearch : ∀ q : List α,
      q.foldlM (fun (_ : Unit) v ↦ if predicate v then .error v else .ok ()) () =
        match q.find? predicate with
        | some v => (.error v : Except α Unit)
        | none => .ok () := by
    intro q
    induction q with
    | nil => rfl
    | cons v q ih =>
      rw [List.foldlM_cons, List.find?_cons]
      cases predicate v with
      | true => rfl
      | false => exact ih
  rw [Alone.find, h.traverse_eq hk hf, hsearch]
  cases q.find? predicate with
  | none => rfl
  | some v => rfl

/-- **`fold`** folds the content. -/
theorem RepAt.fold_eq (h : RepAt s H q bs rs ps) (hk : Kept s H (H + q.length) bs rs ps [])
    (hf : bs.length < fuel) (init : β) (f : β → α → β) :
    fold fuel init f s = some (q.foldl f init) := by
  have hpure : q.foldlM (fun a v ↦ (.ok (f a v) : Except Empty β)) init = .ok (q.foldl f init) :=
    List.foldlM_pure
  rw [fold, h.traverse_eq hk hf, hpure]
  rfl

/-- **`for_each`** hands out the content in order. -/
theorem RepAt.forEach_eq (h : RepAt s H q bs rs ps) (hk : Kept s H (H + q.length) bs rs ps [])
    (hf : bs.length < fuel) : forEach fuel s = some q := by
  have hseen : ∀ (q seen : List α), q.foldl (fun seen v ↦ seen ++ [v]) seen = seen ++ q := by
    intro q
    induction q with
    | nil => exact fun seen ↦ (List.append_nil seen).symm
    | cons v q ih =>
      intro seen
      rw [List.foldl_cons, ih, List.append_assoc, List.singleton_append]
  rw [forEach, h.fold_eq hk hf, hseen, List.nil_append]

/-- **`reduce`** folds the content from its first value. -/
theorem RepAt.reduce_eq (h : RepAt s H q bs rs ps) (hk : Kept s H (H + q.length) bs rs ps [])
    (hf : bs.length < fuel) (f : α → α → α) :
    reduce fuel f s = some (Spec.reduce f q) := by
  have hsome : ∀ (vs : List α) (a : α), vs.foldl (fun acc v ↦
      match acc with
      | none => some v
      | some a => some (f a v)) (some a) = some (vs.foldl f a) := by
    intro vs
    induction vs with
    | nil => exact fun a ↦ rfl
    | cons v vs ih => exact fun a ↦ ih (f a v)
  have hindex : s.tail.index / 2 ≤ s.head.index / 2 ↔ q = [] := by
    rw [h.headIndex, h.tailIndex, Nat.mul_div_cancel_left _ (by omega : 0 < 2)]
    unfold slotOf
    constructor
    · intro hle
      exact List.eq_nil_of_length_eq_zero (by omega)
    · rintro rfl
      rfl
  rw [reduce]
  cases q with
  | nil => exact if_pos (hindex.2 rfl)
  | cons v vs =>
    rw [if_neg (hindex.not.2 (List.cons_ne_nil v vs)), h.fold_eq hk hf]
    exact congrArg some (hsome vs v)

end Traversals

/-! ### Positions

From an index of the content to a slot, through the cache or by walking. -/

section Positions

variable {s : Store α} {H : ℕ} {q : List α} {bs rs ps cs : List ℕ}

/-- The walk from a block of a chain. -/
theorem walk_eq {p : ℕ} (hc : Linked.Chain s.heap p cs) (n : ℕ) :
    walk s n p = some (cs[n]?.getD 0) := by
  induction cs generalizing p n with
  | nil =>
    obtain rfl : p = 0 := hc
    cases n with
    | zero => rfl
    | succ n => rw [walk, if_pos rfl]; rfl
  | cons a cs ih =>
    obtain ⟨rfl, hne, blk, hblk, hrest⟩ := hc
    cases n with
    | zero => rfl
    | succ n =>
      rw [walk, if_neg hne, hblk]
      exact ih hrest n

/-- **The cache agrees with the walk.** -/
theorem RepAt.cacheGet_eq (h : RepAt s H q bs rs ps)
    (hk : Kept s H (H + q.length) bs rs ps []) (d : ℕ) (hc : s.cacheGet (H / 31 + d) ≠ 0) :
    walk s d s.head.block = some (s.cacheGet (H / 31 + d)) := by
  rw [walk_eq h.chain]
  unfold Store.cacheGet blockCap at hc ⊢
  split_ifs at hc ⊢ with htag
  · obtain hzero | ⟨-, hget⟩ := hk.cached _ htag
    · exact absurd hzero hc
    · have := hget (Nat.le_add_right _ _)
      rw [Nat.add_sub_cancel_left] at this
      rw [this]
      rfl
  · exact absurd rfl hc

/-- `get_block_at` finds the block. -/
theorem RepAt.getBlockAt_eq (h : RepAt s H q bs rs ps)
    (hk : Kept s H (H + q.length) bs rs ps []) (d : ℕ) :
    getBlockAt (H / 31 + d) (H / 31) s = some (bs[d]?.getD 0) := by
  rw [getBlockAt]
  by_cases hc : s.cacheGet (H / 31 + d) = 0
  · rw [if_neg (not_not.2 hc), Nat.add_sub_cancel_left]
    exact walk_eq h.chain d
  · rw [if_pos hc, ← h.cacheGet_eq hk d hc]
    exact walk_eq h.chain d

/-- Where position `i` is: its block, which is linked, and its offset. -/
theorem RepAt.getSlotPtr_eq (h : RepAt s H q bs rs ps)
    (hk : Kept s H (H + q.length) bs rs ps []) {i : ℕ} (hi : i < q.length) :
    ∃ b blk, bs[(H + i) / 31 - H / 31]? = some b ∧ b ≠ 0 ∧ s.heap b = some blk ∧
      getSlotPtr i (slotOf H) s = some (b, (H + i) % 31) ∧
      getBlockAt (slotOf H / 32 + (slotOf H % 32 + i) / 31) (slotOf H / 32) s = some b := by
  have hlt : (H + i) / 31 - H / 31 < bs.length := by
    have : (H + i) / 31 ≤ (H + q.length) / 31 := Nat.div_le_div_right (by omega)
    rw [h.span]
    omega
  obtain ⟨b, hb⟩ : ∃ b, bs[(H + i) / 31 - H / 31]? = some b := ⟨_, List.getElem?_eq_getElem hlt⟩
  obtain ⟨hne, blk, hblk⟩ := h.chain.exists_of_mem (List.mem_of_getElem? hb)
  have hfound : getBlockAt (slotOf H / 32 + (slotOf H % 32 + i) / 31) (slotOf H / 32) s =
      some b := by
    rw [slotOf_div, slotOf_mod, h.getBlockAt_eq hk,
      show (H % 31 + i) / 31 = (H + i) / 31 - H / 31 by omega, hb]
    rfl
  refine ⟨b, blk, hb, hne, hblk, ?_, hfound⟩
  have hoff : (slotOf H % 32 + i) % 31 = (H + i) % 31 := by
    rw [slotOf_mod]
    omega
  show (getBlockAt (slotOf H / 32 + (slotOf H % 32 + i) / 31) (slotOf H / 32) s).map _ = _
  rw [hfound, ← hoff]
  rfl

/-- **`get`** reads the position. -/
theorem RepAt.get_eq (h : RepAt s H q bs rs ps) (hk : Kept s H (H + q.length) bs rs ps []) (i : ℕ) :
    Alone.get i s = some q[i]? := by
  have hlen : calcLen (slotOf H) (slotOf (H + q.length)) = q.length := by
    rw [calcLen_slotOf]
    omega
  simp only [Alone.get, h.headIndex, h.tailIndex,
    Nat.mul_div_cancel_left _ (by omega : 0 < 2), hlen]
  by_cases hi : q.length ≤ i
  · rw [if_pos hi, List.getElem?_eq_none hi]
  · obtain ⟨b, blk, hb, hne, hblk, -, hfound⟩ := h.getSlotPtr_eq hk (Nat.lt_of_not_le hi)
    obtain ⟨nb, hnb, hheld⟩ := (h.spans hk).cell _ b hb
    cases hblk.symm.trans hnb
    have hle : H / 31 ≤ (H + i) / 31 := Nat.div_le_div_right (by omega)
    have hoff : (slotOf H % 32 + i) % 31 = (H + i) % 31 := by
      rw [slotOf_mod]
      omega
    unfold blockCap
    rw [if_neg hi, hfound]
    simp only [if_neg hne, hblk]
    rw [hoff, hheld _ (by omega), contentAt, if_pos (by omega)]
    exact congrArg (fun n ↦ some q[n]?) (by omega)

end Positions

/-! ### `swap`

Two slots exchange their values; the state words stay. -/

section Swap

variable {s : Store α} {H : ℕ} {q : List α} {bs rs ps : List ℕ}

/-- What a block is but for its values. -/
def Block.marks (b : Block α) : ℕ × ℕ × (ℕ → ℕ) := (b.next, b.counters, b.state)

/-- One value cell is overwritten. -/
theorem RepAt.setValue_eq (h : RepAt s H q bs rs ps) (hk : Kept s H (H + q.length) bs rs ps [])
    {i b m : ℕ} {blk : Block α} (hi : i < q.length) (hb : bs[(H + i) / 31 - H / 31]? = some b)
    (hblk : s.heap b = some blk) (v : α) :
    ∃ nblk, Block.marks nblk = Block.marks blk ∧
      setValue (b, (H + i) % 31) (H + i) (some (m, v)) s = some (s.setBlock b (some nblk)) ∧
      RepAt (s.setBlock b (some nblk)) H (q.set i v) bs rs ps ∧
      Kept (s.setBlock b (some nblk)) H (H + q.length) bs rs ps [] := by
  have hmem := List.mem_of_getElem? hb
  have hlt := (List.getElem?_eq_some_iff.1 hb).1
  have hle : H / 31 ≤ (H + i) / 31 := Nat.div_le_div_right (by omega)
  have hrest : b ∉ rs ++ ps := by
    have hd := h.nodup
    rw [List.append_assoc, List.nodup_append] at hd
    exact fun hm ↦ hd.2.2 b hmem b hm rfl
  obtain ⟨nblk, hnblk⟩ : ∃ nblk : Block α, nblk = { blk with
      value := Function.update blk.value ((H + i) % 31) (some (H + i, v)) } := ⟨_, rfl⟩
  have hmarks : Block.marks nblk = Block.marks blk := by rw [hnblk]; rfl
  have hother : ∀ a, a ≠ b → (s.setBlock b (some nblk)).heap a = s.heap a :=
    fun a ha ↦ Function.update_of_ne ha _ _
  have hself : (s.setBlock b (some nblk)).heap b = some nblk := Function.update_self ..
  refine ⟨nblk, hmarks, ?_, ?_, ?_⟩
  · simp only [setValue, hblk, hnblk]
    rfl
  · have hlen : (q.set i v).length = q.length := List.length_set
    exact
      { h with
        hasNext := by rw [hlen]; exact h.hasNext
        tailIndex := by rw [hlen]; exact h.tailIndex
        chain := h.chain.update_of_next hblk (congrArg Prod.fst hmarks)
        span := by rw [hlen]; exact h.span
        slots := fun k w c nb hw hc hnb ↦ by
          by_cases hki : k = i
          · -- the cell itself
            subst hki
            rw [List.getElem?_set_self hi] at hw
            cases hw
            cases hb.symm.trans hc
            cases hself.symm.trans hnb
            obtain ⟨w, hw⟩ : ∃ w, q[k]? = some w := ⟨_, List.getElem?_eq_getElem hi⟩
            rw [hnblk]
            exact ⟨(h.slots k w b blk hw hb hblk).1, Function.update_self ..⟩
          · rw [List.getElem?_set_ne (Ne.symm hki)] at hw
            by_cases hcb : c = b
            · -- another slot of the same block
              subst hcb
              have hidx := (List.getElem?_inj (List.getElem?_eq_some_iff.1 hc).1 h.nodup_blocks).1
                (hc.trans hb.symm)
              have hle' : H / 31 ≤ (H + k) / 31 := Nat.div_le_div_right (by omega)
              have hne : (H + k) % 31 ≠ (H + i) % 31 := by omega
              obtain ⟨hst, hold⟩ := h.slots k w c blk hw hc hblk
              cases hself.symm.trans hnb
              rw [hnblk]
              exact ⟨hst, (Function.update_of_ne hne _ _).trans hold⟩
            · rw [hother c hcb] at hnb
              exact h.slots k w c nb hw hc hnb
        counters := fun k c nb hc hnb ↦ by
          by_cases hcb : c = b
          · subst hcb
            cases hself.symm.trans hnb
            rw [hnblk]
            exact h.counters k c blk hc hblk
          · rw [hother c hcb] at hnb
            exact h.counters k c nb hc hnb
        retired := h.retired.update_of_notMem (fun hm ↦ hrest (List.mem_append_left _ hm)) _
        pooled := fun p hp ↦ by
          have hpb : p ≠ b := fun he ↦ hrest (List.mem_append_right _ (he ▸ hp))
          rw [hother p hpb]
          exact h.pooled p hp
        bounded := by
          obtain ⟨B, hB⟩ := h.bounded
          refine ⟨max B b, fun a ha ↦ ?_⟩
          exact (hother a (by omega)).trans (hB a (by omega)) }
  · obtain ⟨hlive, hspent, hclean, hvacant⟩ :=
      hk.frame hmem h.nodup (show (s.setBlock b (some nblk)).heap = _ from rfl) rfl
    refine ⟨hlive, fun k c nb hc hnb ↦ ?_, hspent, hclean, hk.cached, hvacant⟩
    by_cases hcb : c = b
    · subst hcb
      cases hself.symm.trans hnb
      rw [hnblk]
      exact hk.linked k c blk hc hblk
    · rw [hother c hcb] at hnb
      exact hk.linked k c nb hc hnb

/-- **`swap`** exchanges two positions. -/
theorem RepAt.swap_eq (h : RepAt s H q bs rs ps)
    (hk : Kept s H (H + q.length) bs rs ps []) {i j : ℕ} (hij : i ≠ j) :
    ∃ s', swap i j s = some (s', decide (i < q.length ∧ j < q.length)) ∧
      RepAt s' H (Spec.exchange i j q) bs rs ps ∧
      Kept s' H (H + (Spec.exchange i j q).length) bs rs ps [] ∧
      s' = { s with heap := s'.heap } ∧
      ∀ a, (s'.heap a).map Block.marks = (s.heap a).map Block.marks := by
  have hlen : calcLen (slotOf H) (slotOf (H + q.length)) = q.length := by
    rw [calcLen_slotOf]
    omega
  simp only [swap, if_neg hij, swapInner, h.headIndex, h.tailIndex,
    Nat.mul_div_cancel_left _ (by omega : 0 < 2), hlen, number_slotOf]
  by_cases hout : q.length ≤ i ∨ q.length ≤ j
  · have hsame : Spec.exchange i j q = q := by
      unfold Spec.exchange
      rcases hout with hi | hj
      · rw [List.getElem?_eq_none hi]
      · rw [List.getElem?_eq_none hj]
        cases q[i]? <;> rfl
    rw [if_pos hout, hsame, decide_eq_false (by omega)]
    exact ⟨s, rfl, h, hk, rfl, fun _ ↦ rfl⟩
  · have hi : i < q.length := by omega
    have hj : j < q.length := by omega
    obtain ⟨b, blk, hb, hne, hblk, hp, -⟩ := h.getSlotPtr_eq hk hi
    obtain ⟨c, cblk, hc, hcne, hcblk, hr, -⟩ := h.getSlotPtr_eq hk hj
    obtain ⟨x, hx⟩ : ∃ x, q[i]? = some x := ⟨_, List.getElem?_eq_getElem hi⟩
    obtain ⟨y, hy⟩ : ∃ y, q[j]? = some y := ⟨_, List.getElem?_eq_getElem hj⟩
    have hxval := (h.slots i x b blk hx hb hblk).2
    have hyval := (h.slots j y c cblk hy hc hcblk).2
    -- first one cell and then the other
    obtain ⟨nblk, hmarks, hset, h₁, hk₁⟩ := h.setValue_eq (m := H + j) hk hi hb hblk y
    obtain ⟨cblk₁, hcblk₁⟩ := (h₁.chain.exists_of_mem (List.mem_of_getElem? hc)).2
    have hlen₁ : (q.set i y).length = q.length := List.length_set
    rw [← hlen₁] at hk₁ hj
    obtain ⟨nblk₂, hmarks₂, hset₂, h₂, hk₂⟩ := h₁.setValue_eq (m := H + i) hk₁ hj hc hcblk₁ x
    have hexch : Spec.exchange i j q = (q.set i y).set j x := by
      simp only [Spec.exchange, hx, hy]
    have hlen₂ : ((q.set i y).set j x).length = (q.set i y).length := List.length_set
    rw [if_neg hout, hexch, decide_eq_true (by omega), hlen₂]
    refine ⟨(s.setBlock b (some nblk)).setBlock c (some nblk₂), ?_, h₂, hk₂, rfl, fun a ↦ ?_⟩
    · simp only [hp, hr, hne, hcne, or_self, if_false, getValue, hblk, hcblk, hxval, hyval,
        hset, hset₂,
        Option.map_some]
    · show (Function.update (Function.update s.heap b (some nblk)) c (some nblk₂) a).map _ = _
      have hfirst : ∀ a, (Function.update s.heap b (some nblk) a).map Block.marks =
          (s.heap a).map Block.marks := by
        intro a
        by_cases ha : a = b
        · subst ha
          rw [Function.update_self, hblk, Option.map_some, Option.map_some, hmarks]
        · rw [Function.update_of_ne ha]
      by_cases ha : a = c
      · subst ha
        rw [Function.update_self, ← hfirst a]
        show _ = ((s.setBlock b (some nblk)).heap a).map Block.marks
        rw [hcblk₁, Option.map_some, Option.map_some, hmarks₂]
      · rw [Function.update_of_ne ha]
        exact hfirst a

end Swap

/-! ### Every reachable state

From any constructor and after any operations the reads agree with the list. -/

section Reachable

variable {alloc : ℕ → Mem (Block α) → ℕ} {s : Store α} {q : List α}

theorem exchange_self (i : ℕ) (q : List α) : Spec.exchange i i q = q := by
  unfold Spec.exchange
  by_cases hi : i < q.length
  · rw [List.getElem?_eq_getElem hi]
    simp only [List.set_getElem_self]
  · rw [List.getElem?_eq_none (Nat.le_of_not_lt hi)]

/-- **Every constructor** leaves a queue that owns its memory. -/
theorem origin_owns (halloc : Allocates alloc) (o : Origin α) :
    ∃ s, origin alloc o = some s ∧ Owns s (Spec.origin o) := by
  have hR := represents_owns (α := α) halloc
  cases o with
  | start st => exact hR.start_spec st
  | initWith cap init =>
    obtain ⟨s, hcap, h⟩ := hR.start_spec (.withCapacity cap)
    have hcap' : withCapacity alloc cap = some s := hcap
    obtain ⟨s', hpush, h'⟩ := hR.pushBatch h ((List.range cap).map init)
    refine ⟨s', ?_, h'⟩
    rw [origin, hcap']
    exact hpush

/-- **One operation** keeps the ownership. -/
theorem act_owns (halloc : Allocates alloc) (h : Owns s q) (size : ℕ) (a : Act α) :
    ∃ N s', Owns s' (Spec.act size a q) ∧ ∀ fuel, N ≤ fuel → act fuel size alloc a s = some s' := by
  have hR := represents_owns (α := α) halloc
  cases a with
  | call cmd =>
    obtain ⟨N, s', h', hrun⟩ := hR.exec_spec h size cmd
    refine ⟨N, s', h', fun fuel hf ↦ ?_⟩
    rw [act, hrun fuel hf]
    rfl
  | tryReclaim => exact hR.tryReclaim h
  | swap i j =>
    by_cases hij : i = j
    · subst hij
      refine ⟨0, s, ?_, fun fuel _ ↦ ?_⟩
      · show Owns s (Spec.exchange i i q)
        rwa [exchange_self]
      · rw [act, swap, if_pos rfl]
        rfl
    · obtain ⟨H, bs, rs, ps, h, hk⟩ := h
      obtain ⟨s', hswap, h', hk', -⟩ := h.swap_eq hk hij
      refine ⟨0, s', ⟨H, bs, rs, ps, h', hk'⟩, fun fuel _ ↦ ?_⟩
      rw [act, hswap]
      rfl

/-- **A sequence of operations** keeps the ownership. -/
theorem acts_owns (halloc : Allocates alloc) (h : Owns s q) (size : ℕ) (as : List (Act α)) :
    ∃ N s', Owns s' (as.foldl (fun q a ↦ Spec.act size a q) q) ∧
      ∀ fuel, N ≤ fuel → acts fuel size alloc as s = some s' := by
  induction as generalizing s q with
  | nil => exact ⟨0, s, h, fun fuel _ ↦ rfl⟩
  | cons a as ih =>
    obtain ⟨N, s₁, h₁, hact⟩ := act_owns halloc h size a
    obtain ⟨M, s₂, h₂, hrest⟩ := ih h₁
    refine ⟨max N M, s₂, h₂, fun fuel hf ↦ ?_⟩
    rw [acts, hact fuel (by omega)]
    exact hrest fuel (by omega)

end Reachable

universe u v

/-- **The reads of a queue agree with the list `xs`**, with this bound on the loops. -/
structure ReadsAs {α : Type u} (fuel : ℕ) (s : Store α) (xs : List α) : Prop where
  len : len s = xs.length
  get : ∀ i, get i s = some xs[i]?
  /-- `swap` is true when both positions are there; then they are exchanged, and nothing but values
  moves. -/
  swap : ∀ i j, i ≠ j → ∃ s', Alone.swap i j s = some (s', decide (i < xs.length ∧ j < xs.length)) ∧
    (∀ k, Alone.get k s' = some (Spec.exchange i j xs)[k]?) ∧ s' = { s with heap := s'.heap } ∧
    (∀ a, (s'.heap a).map Block.marks = (s.heap a).map Block.marks) ∧
    (¬(i < xs.length ∧ j < xs.length) → s' = s)
  indexOf : ∀ [BEq α] (value : α), indexOf fuel value s = some (xs.findIdx? (· == value))
  contains : ∀ [BEq α] (value : α), contains fuel value s = some (xs.any (· == value))
  find : ∀ predicate : α → Bool, Alone.find fuel predicate s = some (xs.find? predicate)
  forEach : forEach fuel s = some xs
  fold : ∀ {β : Type v} (init : β) (f : β → α → β), fold fuel init f s = some (xs.foldl f init)
  reduce : ∀ f : α → α → α, reduce fuel f s = some (Spec.reduce f xs)
  /-- A block from the cache is the one that the walk along the links finds. -/
  cache : ∀ d, s.cacheGet (s.head.index / 2 / blockCap + d) ≠ 0 →
    walk s d s.head.block = some (s.cacheGet (s.head.index / 2 / blockCap + d))

/-- A queue that owns its memory is read as its content. -/
theorem Owns.readsAs {α : Type u} {s : Store α} {q : List α} (h : Owns s q) :
    ∃ N, ∀ fuel, N ≤ fuel → ReadsAs.{u, v} fuel s q := by
  obtain ⟨H, bs, rs, ps, h, hk⟩ := h
  refine ⟨bs.length + 1, fun fuel hf ↦ ⟨h.len_eq, h.get_eq hk, fun i j hij ↦ ?_, h.indexOf_eq hk hf,
    fun value ↦ ?_, h.find_eq hk hf, h.forEach_eq hk hf, h.fold_eq hk hf, h.reduce_eq hk hf, ?_⟩⟩
  · obtain ⟨s', hswap, h', hk', hsame, hmarks⟩ := h.swap_eq hk hij
    refine ⟨s', hswap, h'.get_eq hk', hsame, hmarks, fun hout ↦ ?_⟩
    have hlen : calcLen (s.head.index / 2) (s.tail.index / 2) = q.length := h.len_eq
    rw [decide_eq_false hout, swap, if_neg hij, swapInner] at hswap
    simp only [hlen] at hswap
    rw [if_pos (by omega)] at hswap
    cases hswap
    rfl
  · rw [contains, h.indexOf_eq hk hf, Option.map_some, List.findIdx?_isSome]
  · have hstart : s.head.index / 2 / blockCap = H / 31 := by
      rw [h.headIndex]
      exact slotOf_div H
    rw [hstart]
    exact h.cacheGet_eq hk

/-- **Indexed access and traversal agree with the content.** From every constructor and after every
sequence of operations the reads of the queue are those of its list, whatever blocks the allocator
handed out and whatever the cache of blocks holds. -/
theorem reads_agree {α : Type u} {alloc : ℕ → Mem (Block α) → ℕ} (halloc : Allocates alloc)
    (size : ℕ) (o : Origin α) (as : List (Act α)) :
    ∃ N s s', origin alloc o = some s ∧ ∀ fuel, N ≤ fuel → acts fuel size alloc as s = some s' ∧
      ReadsAs.{u, v} fuel s' (as.foldl (fun q a ↦ Spec.act size a q) (Spec.origin o)) := by
  obtain ⟨s, horigin, h⟩ := origin_owns halloc o
  obtain ⟨N, s', h', hrun⟩ := acts_owns halloc h size as
  obtain ⟨M, hreads⟩ := h'.readsAs
  exact ⟨max N M, s, s', horigin, fun fuel hf ↦ ⟨hrun fuel (by omega), hreads fuel (by omega)⟩⟩

/-- A thousand values in more than 32 blocks; some are popped, two of the rest are swapped, the
queue is reset and filled again. -/
theorem reads_agree_many_blocks :
    ∃ N s s', origin someFree (.initWith 1100 id) = some s ∧ ∀ fuel, N ≤ fuel →
      acts fuel 8 someFree [.call (.popBatch 40), .swap 0 1, .call (.resetWith 3 (· + 7)),
        .tryReclaim] s =
        some s' ∧ ReadsAs.{0, 0} fuel s' [7, 8, 9] :=
  reads_agree allocates_someFree 8 (.initWith 1100 id)
    [.call (.popBatch 40), .swap 0 1, .call (.resetWith 3 (· + 7)), .tryReclaim]

end Alone

end AtomicVec

end Crossync
