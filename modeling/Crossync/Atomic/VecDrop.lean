import Crossync.Atomic.VecReads

/-!
# Dropping an `AtomicVec`

The last handle walks three structures: the chain from `head`, the pool, and the chain of retired
blocks. It takes a box from every block it finds, drops the queue itself, which frees what is left
in the pool, and then drops the boxes; each of them drops its slots, and a slot that is written and
not read destroys its value.

In the model every one of these can go wrong: a block that is not there is a double free (`none`),
and so is a value that a slot should hold and does not. `Ledger` says what rules this out in every
state that the operations reach: the three lists are disjoint, without repetition, and together all
that is allocated; the pooled blocks are clean, the retired ones spent, and the slots marked written
hold the content and nothing else.

## What could go wrong

The three lists are walked one after the other and the blocks collected are dropped together, so a
block in two lists would be freed twice, and a value in a slot that is marked written but was read
would be destroyed twice. `Ledger` is exactly the absence of both, and it is kept by the operations
(`Owns`), so nothing has to be assumed about the state in which the last handle is dropped.
-/

open Linked

namespace Crossync

namespace AtomicVec

namespace Alone

variable {α : Type*}

section Code

/-- `Drop for Slot`: the values that are destroyed. -/
def dropSlot (b : Block α) (i : ℕ) : Option (List α) :=
  if b.state i &&& write ≠ 0 ∧ b.state i &&& read = 0 then
    match b.value i with
    | none => none
    | some (_, v) => some [v]
  else some []

/-- The slots of a block are dropped. -/
def dropSlots (b : Block α) : List ℕ → Option (List α)
  | [] => some []
  | i :: is =>
    match dropSlot b i with
    | none => none
    | some vs => (dropSlots b is).map (vs ++ ·)

/-- The boxes of some blocks are dropped, in order: the memory after it, and the values
destroyed. -/
def dropBoxes : List ℕ → Mem (Block α) → Option (Mem (Block α) × List α)
  | [], m => some (m, [])
  | a :: as, m =>
    match m a with
    | none => none
    | some b =>
      match dropSlots b (List.range blockCap) with
      | none => none
      | some vs => (dropBoxes as (Function.update m a none)).map fun r ↦ (r.1, vs ++ r.2)

/-- `Drop for AtomicVec`, by the last handle: the memory it leaves, the blocks it frees and the
values it destroys, each in order. -/
def dropLast (fuel : ℕ) (s : Store α) : Option (Mem (Block α) × List ℕ × List α) :=
  match addresses s.heap fuel s.head.block with
  | none => none
  | some linked =>
    match AtomicBuffer.drainAlone s.freeList.cap s.freeList with
    | none => none
    | some (freeList, pooled) =>
      match addresses s.heap fuel s.retired with
      | none => none
      | some retired =>
        let owned := linked ++ pooled ++ retired
        -- the queue is dropped before the boxes are, and its pool with it
        let boxes := AtomicBuffer.leftovers freeList ++ owned
        (dropBoxes boxes s.heap).map fun r ↦ (r.1, boxes, r.2)

end Code

/-! ### The cells that are marked written

What the destructors of the blocks find. -/

section Cells

variable {heap : Mem (Block α)} {blk : Block α} {content : ℕ → Option α} {n : ℕ} {vs : List α}
  {cs : List ℕ}

/-- What the slots of a block that are in state `WRITE` hold. -/
def writtenCells (heap : Mem (Block α)) (a : ℕ) : List (Option α) :=
  match heap a with
  | none => []
  | some b => ((List.range blockCap).filter fun i ↦ b.state i = write).map fun i ↦
    (b.value i).map Prod.snd

/-- The slots of a block hold this content, and each of them is unused, written or read. -/
def Shows (b : Block α) (content : ℕ → Option α) : Prop :=
  ∀ i < 32, (b.state i = write ∧ ∃ m v, b.value i = some (m, v) ∧ content i = some v) ∨
    ((b.state i = 0 ∨ b.state i = read) ∧ content i = none)

/-- What a slot is read as, with its state word, says what it shows. -/
theorem shows_of_held (hheld : ∀ i < 32, held blk i = some (content i))
    (hstate : ∀ i < 32, blk.state i = write ∨ blk.state i = 0 ∨ blk.state i = read) :
    Shows blk content := by
  intro i hi
  have hread := hheld i hi
  rcases hstate i hi with hst | hst
  · rw [held, hst, if_pos (by decide)] at hread
    cases hval : blk.value i with
    | none =>
      rw [hval] at hread
      cases hread
    | some x =>
      rw [hval] at hread
      exact Or.inl ⟨hst, x.1, x.2, rfl, (Option.some.inj hread).symm⟩
  · refine Or.inr ⟨hst, ?_⟩
    have hzero : ¬blk.state i &&& write ≠ 0 := by
      rcases hst with hst | hst <;> rw [hst] <;> decide
    rw [held, if_neg hzero] at hread
    exact (Option.some.inj hread).symm

/-- What is marked written, and what a drop destroys. -/
theorem Shows.slots (h : Shows blk content) {is : List ℕ} (his : ∀ i ∈ is, i < 32) :
    (is.filter fun i ↦ blk.state i = write).map (fun i ↦ (blk.value i).map Prod.snd) =
        (is.filterMap content).map some ∧
      dropSlots blk is = some (is.filterMap content) := by
  induction is with
  | nil => exact ⟨rfl, rfl⟩
  | cons i is ih =>
    obtain ⟨ihc, ihd⟩ := ih fun j hj ↦ his j (List.mem_cons_of_mem _ hj)
    rcases h i (his i (List.mem_cons_self ..)) with ⟨hst, m, v, hval, hc⟩ | ⟨hst, hc⟩
    · -- a written slot
      have hdrop : dropSlot blk i = some [v] := by
        rw [dropSlot, hst, if_pos (by decide), hval]
      rw [List.filter_cons_of_pos (by simpa using hst), List.map_cons, ihc, hval,
        List.filterMap_cons_some hc, dropSlots, hdrop]
      refine ⟨rfl, ?_⟩
      show (dropSlots blk is).map _ = _
      rw [ihd]
      rfl
    · have hnot : blk.state i ≠ write := by
        rcases hst with hst | hst <;> rw [hst] <;> decide
      have hdrop : dropSlot blk i = some [] := by
        rw [dropSlot, if_neg]
        rcases hst with hst | hst <;> rw [hst] <;> decide
      rw [List.filter_cons_of_neg (by simpa using hnot), ihc, List.filterMap_cons_none hc,
        dropSlots, hdrop]
      refine ⟨rfl, ?_⟩
      show (dropSlots blk is).map _ = _
      rw [ihd]
      rfl

/-- The content of a block, slot by slot, is the next values of the list. -/
theorem filterMap_contentAt (n : ℕ) (vs : List α) :
    (List.range blockCap).filterMap (contentAt n vs (31 * (n / 31))) = vs.take (31 - n % 31) := by
  have hprefix : ∀ m : ℕ, m ≤ 31 →
      (List.range m).filterMap (contentAt n vs (31 * (n / 31))) = vs.take (m - n % 31) := by
    intro m
    induction m with
    | zero =>
      intro _
      rw [Nat.zero_sub]
      rfl
    | succ m ih =>
      intro hm
      rw [List.range_succ, List.filterMap_append, ih (by omega)]
      by_cases hge : n % 31 ≤ m
      · have hlast : [m].filterMap (contentAt n vs (31 * (n / 31))) = vs[m - n % 31]?.toList := by
          have : contentAt n vs (31 * (n / 31)) m = vs[m - n % 31]? := by
            rw [contentAt, if_pos (by omega)]
            exact congrArg (vs[·]?) (by omega)
          rw [List.filterMap_cons, this]
          cases vs[m - n % 31]? <;> rfl
        rw [hlast, show m + 1 - n % 31 = m - n % 31 + 1 by omega, List.take_add_one]
      · have hnone : contentAt n vs (31 * (n / 31)) m = none := by
          rw [contentAt, if_neg (by omega)]
        rw [List.filterMap_cons_none hnone, show m + 1 - n % 31 = m - n % 31 by omega]
        exact List.append_nil _
  -- the last slot of a block is never used
  have hgap : contentAt n vs (31 * (n / 31)) 31 = none := if_neg (by omega)
  show (List.range (31 + 1)).filterMap _ = _
  rw [List.range_succ, List.filterMap_append, List.filterMap_cons_none hgap, hprefix 31 le_rfl]
  exact List.append_nil _

/-- The cells of a block that shows a content. -/
theorem Shows.cells {a : ℕ} (h : Shows blk content) (ha : heap a = some blk) :
    writtenCells heap a = ((List.range blockCap).filterMap content).map some ∧
      dropSlots blk (List.range blockCap) = some ((List.range blockCap).filterMap content) := by
  have hrange : ∀ i ∈ List.range blockCap, i < 32 := fun i hi ↦ List.mem_range.1 hi
  have := h.slots hrange
  rw [writtenCells, ha]
  exact this

/-- **The written cells of the linked blocks are the content**, in order. -/
theorem Spans.cells (h : Spans heap n vs cs)
    (hstate : ∀ b ∈ cs, ∀ blk, heap b = some blk → ∀ i < 32,
      blk.state i = write ∨ blk.state i = 0 ∨ blk.state i = read) :
    cs.flatMap (writtenCells heap) = vs.map some := by
  induction cs generalizing n vs with
  | nil =>
    have := h.span
    rw [List.length_nil] at this
    omega
  | cons b cs ih =>
    obtain ⟨blk, hblk, hheld, htail⟩ := h.cons
    have hshows : Shows blk (contentAt n vs (31 * (n / 31))) := shows_of_held hheld
      (hstate b (List.mem_cons_self ..) blk hblk)
    rw [List.flatMap_cons, (hshows.cells hblk).1, filterMap_contentAt]
    rcases htail with ⟨rfl, hfit⟩ | ⟨hfull, hspan⟩
    · rw [List.take_of_length_le (by omega)]
      exact List.append_nil _
    · rw [ih hspan fun c hc ↦ hstate c (List.mem_cons_of_mem _ hc), ← List.map_append,
        List.take_append_drop]

end Cells

/-! ### The ledger of blocks and values

From the representation of the content to what the last handle does. -/

section Ledger

variable {s : Store α} {H : ℕ} {q : List α} {bs rs ps : List ℕ}

/-- **Every block and every value has one owner.** The blocks `linked` from `head`, the blocks
`pooled` in the free list and the `retired` ones. -/
structure Ledger (s : Store α) (q : List α) (linked pooled retired : List ℕ) : Prop where
  chain : Linked.Chain s.heap s.head.block linked
  pool : AtomicBuffer.Contains s.freeList pooled
  retiredChain : Linked.Chain s.heap s.retired retired
  nodup : (linked ++ pooled ++ retired).Nodup
  /-- Allocated and not yet freed. -/
  live : ∀ a, s.heap a ≠ none ↔ a ∈ linked ++ pooled ++ retired
  clean : ∀ a ∈ pooled, ∃ b, s.heap a = some b ∧ b.next = 0 ∧ b.counters = 0 ∧
    ∀ i < blockCap, b.state i = 0
  spent : ∀ a ∈ retired, ∃ b, s.heap a = some b ∧ ∀ i < blockCap - 1, b.state i = read
  /-- The slots in state `WRITE`, of all the blocks there are. -/
  written : (linked ++ pooled ++ retired).flatMap (writtenCells s.heap) = q.map some

/-- A block without a written slot. -/
theorem shows_none {b : Block α} (h : ∀ i < 32, b.state i = 0 ∨ b.state i = read) :
    Shows b fun _ ↦ none :=
  fun i hi ↦ Or.inr ⟨h i hi, rfl⟩

/-- The state words of the blocks, by the list they are in. -/
theorem Kept.shows {xs : List ℕ} {E : ℕ} (hk : Kept s H E bs rs ps xs) :
    (∀ a ∈ bs, ∀ b, s.heap a = some b → ∀ i < 32, b.state i = write ∨ b.state i = 0 ∨
      b.state i = read) ∧
      (∀ a ∈ ps, ∀ b, s.heap a = some b → Shows b fun _ ↦ none) ∧
      ∀ a ∈ rs, ∀ b, s.heap a = some b → Shows b fun _ ↦ none := by
  refine ⟨fun a ha b hb i hi ↦ ?_, fun a ha b hb ↦ ?_, fun a ha b hb ↦ ?_⟩
  · obtain ⟨k, hk'⟩ := List.mem_iff_getElem?.1 ha
    rw [hk.linked k a b hk' hb i hi, slotState]
    split_ifs <;> simp
  · exact shows_none fun i hi ↦ Or.inl (hk.clean a ha b hb i hi)
  · refine shows_none fun i hi ↦ ?_
    rw [hk.spent a ha b hb i hi]
    split_ifs <;> simp

/-- A block without a written slot has no written cell. -/
theorem flatMap_cells_nil {as : List ℕ} {heap : Mem (Block α)}
    (h : ∀ a ∈ as, ∀ b, heap a = some b → Shows b fun _ ↦ none) :
    as.flatMap (writtenCells heap) = [] := by
  refine List.flatMap_eq_nil_iff.2 fun a ha ↦ ?_
  cases hb : heap a with
  | none => rw [writtenCells, hb]
  | some b =>
    rw [((h a ha b hb).cells hb).1, List.filterMap_none]
    rfl

/-- **The ledger of a queue that owns its memory.** -/
theorem RepAt.ledger (h : RepAt s H q bs rs ps) (hk : Kept s H (H + q.length) bs rs ps []) :
    Ledger s q bs ps rs where
  chain := h.chain
  pool := h.pool
  retiredChain := h.retired
  nodup := by
    refine List.Perm.nodup ?_ h.nodup
    rw [List.append_assoc, List.append_assoc]
    exact List.perm_append_comm.append_left bs
  live := fun a ↦ by
    rw [hk.live a]
    simp only [List.mem_append, List.not_mem_nil, or_false]
    tauto
  clean := fun a ha ↦ by
    obtain ⟨-, b, hb, hnext, hzero⟩ := h.pooled a ha
    exact ⟨b, hb, hnext, hzero, hk.clean a ha b hb⟩
  spent := fun a ha ↦ by
    obtain ⟨-, b, hb⟩ := h.retired.exists_of_mem ha
    refine ⟨b, hb, fun i hi ↦ ?_⟩
    have hi' : i < 31 := hi
    rw [hk.spent a ha b hb i (by omega), if_pos hi']
  written := by
    obtain ⟨hlinked, hpooled, hretired⟩ := hk.shows
    rw [List.flatMap_append, List.flatMap_append, (h.spans hk).cells hlinked,
      flatMap_cells_nil hpooled,
      flatMap_cells_nil hretired, List.append_nil, List.append_nil]

/-- Dropping boxes of different blocks frees each and destroys what their slots hold. -/
theorem dropBoxes_eq {as : List ℕ} {m : Mem (Block α)} (hd : as.Nodup)
    (hshows : ∀ a ∈ as, ∃ b content, m a = some b ∧ Shows b content) :
    ∃ vs, dropBoxes as m = some (fun a ↦ if a ∈ as then none else m a, vs) ∧
      as.flatMap (writtenCells m) = vs.map some := by
  induction as generalizing m with
  | nil => exact ⟨[], by simp [dropBoxes], rfl⟩
  | cons a as ih =>
    obtain ⟨hnot, hd'⟩ := List.nodup_cons.1 hd
    obtain ⟨b, content, hb, hcontent⟩ := hshows a (List.mem_cons_self ..)
    obtain ⟨hcells, hdrop⟩ := hcontent.cells hb
    have hother : ∀ c ∈ as, Function.update m a none c = m c :=
      fun c hc ↦ Function.update_of_ne (ne_of_mem_of_not_mem hc hnot) _ _
    obtain ⟨vs, hrest, hvs⟩ := ih (m := Function.update m a none) hd' fun c hc ↦ by
      rw [hother c hc]
      exact hshows c (List.mem_cons_of_mem _ hc)
    refine ⟨(List.range blockCap).filterMap content ++ vs, ?_, ?_⟩
    · simp only [dropBoxes, hb, hdrop, hrest, Option.map_some]
      refine congrArg (fun m ↦ some (m, _)) (funext fun c ↦ ?_)
      by_cases hc : c = a
      · subst hc
        simp [hnot]
      · simp [hc]
    · rw [List.flatMap_cons, hcells, List.map_append, ← hvs]
      refine congrArg _ (List.flatMap_congr fun c hc ↦ ?_)
      rw [writtenCells, writtenCells, hother c hc]

/-- **The last handle** frees every block once and destroys what is left of the content. -/
theorem RepAt.dropLast_eq (h : RepAt s H q bs rs ps) (hk : Kept s H (H + q.length) bs rs ps [])
    {fuel : ℕ} (hf : bs.length + rs.length < fuel) :
    dropLast fuel s = some (fun _ ↦ none, bs ++ ps ++ rs, q) := by
  have hledger := h.ledger hk
  obtain ⟨hlinked, hpooled, hretired⟩ := hk.shows
  obtain ⟨l, hdrain, -, hvacant⟩ := h.pool.drain hk.vacant h.pool.length_le
  have hshows : ∀ a ∈ bs ++ ps ++ rs, ∃ b content, s.heap a = some b ∧ Shows b content := by
    intro a ha
    obtain ⟨b, hb⟩ := Option.ne_none_iff_exists'.1 ((hledger.live a).2 ha)
    rcases List.mem_append.1 ha with ha | ha
    · rcases List.mem_append.1 ha with ha | ha
      · obtain ⟨k, hget⟩ := List.mem_iff_getElem?.1 ha
        obtain ⟨nb, hnb, hheld⟩ := (h.spans hk).cell k a hget
        exact ⟨nb, _, hnb, shows_of_held hheld (hlinked a ha nb hnb)⟩
      · exact ⟨b, _, hb, hpooled a ha b hb⟩
    · exact ⟨b, _, hb, hretired a ha b hb⟩
  obtain ⟨vs, hdrop, hvs⟩ := dropBoxes_eq hledger.nodup hshows
  obtain rfl : q = vs :=
    List.map_injective_iff.2 (Option.some_injective α) (hledger.written.symm.trans hvs)
  have hempty : (fun a ↦ if a ∈ bs ++ ps ++ rs then none else s.heap a) = fun _ ↦ none := by
    funext a
    split_ifs with ha
    · rfl
    · exact not_not.1 fun hne ↦ ha ((hledger.live a).1 hne)
  rw [hempty] at hdrop
  simp only [dropLast, addresses_eq h.chain (show bs.length < fuel by omega), hdrain,
    addresses_eq h.retired (show rs.length < fuel by omega), hvacant.leftovers_eq,
    List.nil_append, hdrop,
    Option.map_some]

end Ledger

/-- **Ownership of blocks and values.** From every constructor, whatever capacity it was asked for,
and after every sequence of operations, the linked, pooled and retired blocks are disjoint, without
repetition and all that is allocated, with clean blocks in the pool, spent ones in the retired list
and the content in the slots marked written; and dropping the last handle frees each of the blocks
once, destroys each value of the content once and nothing else, and leaves no memory behind. -/
theorem blocks_owned_once {alloc : ℕ → Mem (Block α) → ℕ} (halloc : Allocates alloc) (size : ℕ)
    (o : Origin α) (as : List (Act α)) :
    ∃ N s s' linked pooled retired, origin alloc o = some s ∧
      Ledger s' (as.foldl (fun q a ↦ Spec.act size a q) (Spec.origin o)) linked pooled retired ∧
      ∀ fuel, N ≤ fuel → acts fuel size alloc as s = some s' ∧
        dropLast fuel s' = some (fun _ ↦ none, linked ++ pooled ++ retired,
          as.foldl (fun q a ↦ Spec.act size a q) (Spec.origin o)) := by
  obtain ⟨s, horigin, h⟩ := origin_owns halloc o
  obtain ⟨N, s', ⟨H, bs, rs, ps, h', hk'⟩, hrun⟩ := acts_owns halloc h size as
  refine ⟨max N (bs.length + rs.length + 1), s, s', bs, ps, rs, horigin, h'.ledger hk',
    fun fuel hf ↦ ?_⟩
  exact ⟨hrun fuel (by omega), h'.dropLast_eq hk' (by omega)⟩

/-- Seventy values in three blocks, two of which are emptied, and the rest reversed. -/
theorem blocks_owned_once_spent :
    ∃ N s s' linked pooled retired, origin someFree (.initWith 70 id) = some s ∧
      Ledger s' [69, 68] linked pooled retired ∧
      ∀ fuel, N ≤ fuel → acts fuel 8 someFree [.call (.popBatch 68), .call .reverse] s = some s' ∧
        dropLast fuel s' = some (fun _ ↦ none, linked ++ pooled ++ retired, [69, 68]) :=
  blocks_owned_once allocates_someFree 8 (.initWith 70 id) [.call (.popBatch 68), .call .reverse]

end Alone

end AtomicVec

end Crossync
