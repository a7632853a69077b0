import Crossync.Atomic.VecRefines

/-!
# Who owns the blocks of `AtomicVec`

`RepAt` says where the content is. `Kept` says the rest of what the memory holds: the blocks that
are linked, retired or pooled are all there are, the state word of every slot of each of them is
known, the cache of blocks points only at blocks that are still where its tag says, and the slots of
the pool that hold no block are null. Together (`Owns`) they are kept by the steps of the code, so
every call keeps them.

The state words are a function of the two ends alone (`slotState`): a data slot before `head` was
read, one between the ends is written, and one after `tail` was never used; the 32nd slot of a block
is never touched. A block that is taken out of one list and not yet in another is in hand (`xs`),
which is where `acquire_block` and `reclaim_retired` leave it for a moment.

## Why the state words are known

No flag of a block is trusted because of how it came about. What a slot's word is follows from where
the ends are, for the blocks between them and for the retired and the pooled ones alike. So a block
that is reused needs no argument beyond that its words are those of a fresh one.
-/

open Linked

namespace Crossync

namespace AtomicVec

namespace Alone

variable {α : Type*}

/-- The state word of slot `i` in the block whose first data slot has number `base`, when the data
slots before `H` were read and those from there to `E` written. -/
def slotState (H E base i : ℕ) : ℕ :=
  if 31 ≤ i then 0 else if base + i < H then read else if base + i < E then write else 0

/-- **What the memory and the cache hold**, with the blocks `xs` in hand. -/
structure Kept (s : Store α) (H E : ℕ) (bs rs ps xs : List ℕ) : Prop where
  live : ∀ a, s.heap a ≠ none ↔ a ∈ bs ∨ a ∈ rs ∨ a ∈ ps ∨ a ∈ xs
  linked : ∀ (k b : ℕ) blk, bs[k]? = some b → s.heap b = some blk →
    ∀ i < 32, blk.state i = slotState H E (31 * (H / 31 + k)) i
  spent : ∀ b ∈ rs, ∀ blk, s.heap b = some blk → ∀ i < 32, blk.state i = if i < 31 then read else 0
  clean : ∀ b ∈ ps, ∀ blk, s.heap b = some blk → ∀ i < 32, blk.state i = 0
  cached : ∀ idx, s.cacheTag (idx % 32) = some idx → s.cachePtr (idx % 32) = 0 ∨
    idx ≤ E / 31 ∧ (H / 31 ≤ idx → bs[idx - H / 31]? = some (s.cachePtr (idx % 32)))
  vacant : AtomicBuffer.Vacant s.freeList ps

/-- **The store represents the list `q` and owns what is in its memory.** -/
def Owns (s : Store α) (q : List α) : Prop :=
  ∃ H bs rs ps, RepAt s H q bs rs ps ∧ Kept s H (H + q.length) bs rs ps []

/-! ### Both ends

The steps of `push` and `pop`, with the block that changes hands. -/

section Ends

variable {s s' : Store α} {H E t : ℕ} {bs rs ps xs : List ℕ} {blk nblk : Block α}

theorem Kept.congr (hk : Kept s H E bs rs ps xs) (hheap : s'.heap = s.heap)
    (hpool : s'.freeList = s.freeList) (htag : s'.cacheTag = s.cacheTag)
    (hptr : s'.cachePtr = s.cachePtr) : Kept s' H E bs rs ps xs where
  live := hheap ▸ hk.live
  linked := hheap ▸ hk.linked
  spent := hheap ▸ hk.spent
  clean := hheap ▸ hk.clean
  cached := by rw [htag, hptr]; exact hk.cached
  vacant := hpool ▸ hk.vacant

/-- A write to a linked block leaves the other lists alone. -/
theorem Kept.frame (hk : Kept s H E bs rs ps xs) (ht : t ∈ bs) (hd : (bs ++ rs ++ ps).Nodup)
    (hheap : s'.heap = Function.update s.heap t (some nblk)) (hpool : s'.freeList = s.freeList) :
    (∀ a, s'.heap a ≠ none ↔ a ∈ bs ∨ a ∈ rs ∨ a ∈ ps ∨ a ∈ xs) ∧
      (∀ b ∈ rs, ∀ blk, s'.heap b = some blk → ∀ i < 32, blk.state i = if i < 31 then read else 0) ∧
      (∀ b ∈ ps, ∀ blk, s'.heap b = some blk → ∀ i < 32, blk.state i = 0) ∧
      AtomicBuffer.Vacant s'.freeList ps := by
  have hne : ∀ b ∈ rs ++ ps, b ≠ t := by
    intro b hb hbt
    rw [List.append_assoc, List.nodup_append] at hd
    exact hd.2.2 t ht b hb hbt.symm
  have hother : ∀ b, b ≠ t → s'.heap b = s.heap b := fun b hb ↦ by
    rw [hheap, Function.update_of_ne hb]
  refine ⟨fun a ↦ ?_, fun b hb nb hnb ↦ ?_, fun b hb nb hnb ↦ ?_, hpool ▸ hk.vacant⟩
  · by_cases ha : a = t
    · subst ha
      rw [hheap, Function.update_self]
      exact ⟨fun _ ↦ Or.inl ht, fun _ ↦ Option.some_ne_none _⟩
    · rw [hother a ha]
      exact hk.live a
  · rw [hother b (hne b (List.mem_append_left _ hb))] at hnb
    exact hk.spent b hb nb hnb
  · rw [hother b (hne b (List.mem_append_right _ hb))] at hnb
    exact hk.clean b hb nb hnb

/-- **The next data slot is written.** -/
theorem Kept.wrote (hk : Kept s H E bs rs ps xs) (hHE : H ≤ E) (hd : (bs ++ rs ++ ps).Nodup)
    (ht : bs[E / 31 - H / 31]? = some t) (hblk : s.heap t = some blk)
    (hstate : nblk.state = Function.update blk.state (E % 31) write)
    (hheap : s'.heap = Function.update s.heap t (some nblk)) (hpool : s'.freeList = s.freeList)
    (htag : s'.cacheTag = s.cacheTag) (hptr : s'.cachePtr = s.cachePtr) :
    Kept s' H (E + 1) bs rs ps xs := by
  obtain ⟨hlive, hspent, hclean, hvacant⟩ := hk.frame (List.mem_of_getElem? ht) hd hheap hpool
  have hdb : bs.Nodup := (List.nodup_append.1 (List.nodup_append.1 hd).1).1
  have hle : H / 31 ≤ E / 31 := Nat.div_le_div_right hHE
  refine ⟨hlive, fun k b nb hb hnb i hi ↦ ?_, hspent, hclean, fun idx hidx ↦ ?_, hvacant⟩
  · by_cases hbt : b = t
    · subst hbt
      have hk' : k = E / 31 - H / 31 :=
        (List.getElem?_inj (List.getElem?_eq_some_iff.1 hb).1 hdb).1 (hb.trans ht.symm)
      rw [hheap, Function.update_self] at hnb
      cases hnb
      have hold := hk.linked k b blk hb hblk i hi
      rw [hstate]
      by_cases hslot : i = E % 31
      · -- the slot itself
        subst hslot
        rw [Function.update_self, slotState, if_neg (by omega), if_neg (by omega),
          if_pos (by omega)]
      · rw [Function.update_of_ne hslot, hold]
        simp only [slotState]
        split_ifs <;> first | rfl | omega
    · -- the other blocks have no slot with this number
      rw [hheap, Function.update_of_ne hbt] at hnb
      rw [hk.linked k b nb hb hnb i hi]
      have hkne : k ≠ E / 31 - H / 31 := by
        rintro rfl
        exact hbt (Option.some.inj (hb.symm.trans ht))
      simp only [slotState]
      split_ifs <;> first | rfl | omega
  · rw [htag] at hidx
    rw [hptr]
    refine (hk.cached idx hidx).imp_right fun h ↦ ⟨?_, h.2⟩
    exact h.1.trans (Nat.div_le_div_right (Nat.le_succ E))

/-- **A new block is linked** at the end, with the tail about to enter it. -/
theorem Kept.link {nb : ℕ} (hk : Kept s H E bs rs ps [nb]) (hspan : E / 31 = H / 31 + bs.length)
    (hHE : H ≤ E) (hentry : E % 31 = 0)
    (hfresh : ∀ blk, s.heap nb = some blk → ∀ i < 32, blk.state i = 0) (hheap : s'.heap = s.heap)
    (hpool : s'.freeList = s.freeList)
    (htag : s'.cacheTag = Function.update s.cacheTag (E / 31 % 32) (some (E / 31)))
    (hptr : s'.cachePtr = Function.update s.cachePtr (E / 31 % 32) nb) :
    Kept s' H E (bs ++ [nb]) rs ps [] := by
  refine ⟨fun a ↦ ?_, fun k b blk hb hblk i hi ↦ ?_, fun b hb blk hblk ↦ ?_, fun b hb blk hblk ↦ ?_,
    fun idx hidx ↦ ?_, hpool ▸ hk.vacant⟩
  · rw [hheap, hk.live a]
    simp only [List.mem_append, List.mem_singleton, List.not_mem_nil, or_false]
    tauto
  · rw [hheap] at hblk
    by_cases hlt : k < bs.length
    · rw [List.getElem?_append_left hlt] at hb
      exact hk.linked k b blk hb hblk i hi
    · -- the new block starts where the tail is
      have hlen := (List.getElem?_eq_some_iff.1 hb).1
      rw [List.length_append, List.length_singleton] at hlen
      obtain rfl : k = bs.length := by omega
      rw [List.getElem?_concat_length] at hb
      cases hb
      rw [hfresh blk hblk i hi, slotState]
      split_ifs <;> first | rfl | omega
  · rw [hheap] at hblk
    exact hk.spent b hb blk hblk
  · rw [hheap] at hblk
    exact hk.clean b hb blk hblk
  · rw [htag] at hidx
    rw [hptr]
    by_cases hself : idx % 32 = E / 31 % 32
    · rw [hself, Function.update_self] at hidx
      obtain rfl : E / 31 = idx := Option.some.inj hidx
      rw [Function.update_self, hspan, Nat.add_sub_cancel_left]
      exact Or.inr ⟨le_rfl, fun _ ↦ List.getElem?_concat_length⟩
    · rw [Function.update_of_ne hself] at hidx ⊢
      refine (hk.cached idx hidx).imp_right fun h ↦ ⟨h.1, fun hge ↦ ?_⟩
      have hget := h.2 hge
      rw [List.getElem?_append_left (List.getElem?_eq_some_iff.1 hget).1]
      exact hget

/-- A new block is in hand. -/
theorem Kept.made {nb : ℕ} (hk : Kept s H E bs rs ps xs) (hfree : s.heap nb = none)
    (hheap : s'.heap = Function.update s.heap nb (some .zeroed)) (hpool : s'.freeList = s.freeList)
    (htag : s'.cacheTag = s.cacheTag) (hptr : s'.cachePtr = s.cachePtr) :
    Kept s' H E bs rs ps (nb :: xs) := by
  have hnot : ¬(nb ∈ bs ∨ nb ∈ rs ∨ nb ∈ ps ∨ nb ∈ xs) := fun hm ↦ (hk.live nb).2 hm hfree
  have hne : ∀ {l : List ℕ} {b : ℕ}, b ∈ l → nb ∉ l → s'.heap b = s.heap b := fun hb hn ↦ by
    rw [hheap, Function.update_of_ne (ne_of_mem_of_not_mem hb hn)]
  refine ⟨fun a ↦ ?_, fun k b blk hb hblk ↦ ?_, fun b hb blk hblk ↦ ?_, fun b hb blk hblk ↦ ?_, ?_,
    hpool ▸ hk.vacant⟩
  · by_cases ha : a = nb
    · subst ha
      rw [hheap, Function.update_self]
      simp
    · rw [hheap, Function.update_of_ne ha, hk.live a, List.mem_cons]
      simp [ha]
  · rw [hne (List.mem_of_getElem? hb) fun hm ↦ hnot (Or.inl hm)] at hblk
    exact hk.linked k b blk hb hblk
  · rw [hne hb fun hm ↦ hnot (Or.inr (Or.inl hm))] at hblk
    exact hk.spent b hb blk hblk
  · rw [hne hb fun hm ↦ hnot (Or.inr (Or.inr (Or.inl hm)))] at hblk
    exact hk.clean b hb blk hblk
  · rw [htag, hptr]
    exact hk.cached

/-- **A block is acquired**: it is in hand, and no slot of it was used. -/
theorem Kept.acquire {nb : ℕ} {ps' : List ℕ} (hk : Kept s H E bs rs ps [])
    (hcontains : AtomicBuffer.Contains s.freeList ps) (hacq : Acquired s s' nb ps ps') :
    Kept s' H E bs rs ps' [nb] ∧ ∀ blk, s'.heap nb = some blk → ∀ i < 32, blk.state i = 0 := by
  rcases hacq.source with ⟨rfl, rfl, hpool, hfree, hheap⟩ | ⟨rfl, hpop, hheap⟩
  · refine ⟨hk.made hfree hheap hpool hacq.cacheTag hacq.cachePtr, fun blk hblk i _ ↦ ?_⟩
    rw [hheap, Function.update_self] at hblk
    cases hblk
    rfl
  · -- the oldest block of the pool
    refine ⟨⟨fun a ↦ ?_, hheap ▸ hk.linked, hheap ▸ hk.spent, fun b hb ↦ ?_, ?_,
      hk.vacant.pop hcontains hpop⟩, ?_⟩
    · rw [hheap, hk.live a]
      simp only [List.mem_cons, List.not_mem_nil, or_false]
      tauto
    · rw [hheap]
      exact hk.clean b (List.mem_cons_of_mem _ hb)
    · rw [hacq.cacheTag, hacq.cachePtr]
      exact hk.cached
    · rw [hheap]
      exact hk.clean nb (List.mem_cons_self ..)

/-- **The first data slot is read**; with the last one of its block the block is retired. -/
theorem Kept.took {bs' rs' : List ℕ} (hk : Kept s H E bs rs ps []) (hHE : H < E)
    (hd : (bs ++ rs ++ ps).Nodup) (ht : bs[0]? = some t) (hblk : s.heap t = some blk)
    (hstate : nblk.state = Function.update blk.state (H % 31) read)
    (hheap : s'.heap = Function.update s.heap t (some nblk)) (hpool : s'.freeList = s.freeList)
    (htag : s'.cacheTag = s.cacheTag) (hptr : s'.cachePtr = s.cachePtr)
    (hlists : H % 31 ≠ 30 ∧ bs' = bs ∧ rs' = rs ∨ H % 31 = 30 ∧ bs = t :: bs' ∧ rs' = t :: rs) :
    Kept s' (H + 1) E bs' rs' ps [] := by
  obtain ⟨hlive, hspent, hclean, hvacant⟩ := hk.frame (List.mem_of_getElem? ht) hd hheap hpool
  have hdb : bs.Nodup := (List.nodup_append.1 (List.nodup_append.1 hd).1).1
  have hself : ∀ nb, s'.heap t = some nb → nb = nblk := fun nb hnb ↦ by
    rw [hheap, Function.update_self] at hnb
    exact (Option.some.inj hnb).symm
  -- the state words of a linked block, with the slot that was just read
  have hwords : ∀ (k b : ℕ) nb, bs[k]? = some b → s'.heap b = some nb →
      ∀ i < 32, nb.state i = slotState (H + 1) E (31 * (H / 31 + k)) i := by
    intro k b nb hb hnb i hi
    by_cases hbt : b = t
    · subst hbt
      obtain rfl : k = 0 :=
        (List.getElem?_inj (List.getElem?_eq_some_iff.1 hb).1 hdb).1 (hb.trans ht.symm)
      have hold := hk.linked 0 b blk hb hblk i hi
      rw [hself nb hnb, hstate]
      by_cases hslot : i = H % 31
      · subst hslot
        rw [Function.update_self, slotState, if_neg (by omega), if_pos (by omega)]
      · rw [Function.update_of_ne hslot, hold]
        simp only [slotState]
        split_ifs <;> first | rfl | omega
    · rw [hheap, Function.update_of_ne hbt] at hnb
      have hkne : k ≠ 0 := by
        rintro rfl
        exact hbt (Option.some.inj (hb.symm.trans ht))
      rw [hk.linked k b nb hb hnb i hi]
      simp only [slotState]
      split_ifs <;> first | rfl | omega
  rcases hlists with ⟨hin, rfl, rfl⟩ | ⟨hlast, rfl, rfl⟩
  · have hdiv : (H + 1) / 31 = H / 31 := by omega
    refine ⟨hlive, ?_, hspent, hclean, ?_, hvacant⟩
    · rw [hdiv]
      exact hwords
    · rw [hdiv, htag, hptr]
      exact hk.cached
  · have hdiv : (H + 1) / 31 = H / 31 + 1 := by omega
    refine ⟨fun a ↦ ?_, fun k b nb hb hnb i hi ↦ ?_, fun b hb nb hnb i hi ↦ ?_, hclean,
      fun idx hidx ↦ ?_, hvacant⟩
    · rw [hlive a]
      simp only [List.mem_cons]
      tauto
    · rw [hwords (k + 1) b nb hb hnb i hi, hdiv, Nat.add_assoc, Nat.add_comm 1 k]
    · rcases List.mem_cons.1 hb with rfl | hb
      · -- the block that is retired: all its data slots were read
        rw [hwords 0 b nb rfl hnb i hi, slotState]
        split_ifs <;> first | rfl | omega
      · exact hspent b hb nb hnb i hi
    · rw [htag] at hidx
      rw [hptr, hdiv]
      refine (hk.cached idx hidx).imp_right fun h ↦ ⟨h.1, fun hge ↦ ?_⟩
      have hget := h.2 (by omega)
      rwa [show idx - H / 31 = idx - (H / 31 + 1) + 1 by omega, List.getElem?_cons_succ] at hget

end Ends

/-! ### The lists

Blocks between the retired list, the pool and the hands of a call. -/

section Lists

variable {alloc : ℕ → Mem (Block α) → ℕ} {s s' : Store α} {H E : ℕ} {q : List α}
  {bs rs ps ps' : List ℕ}

/-- **`push`** keeps what the memory holds. -/
theorem Kept.push {v : α} {bs' : List ℕ} (hk : Kept s H (H + q.length) bs rs ps [])
    (h : RepAt s H q bs rs ps) (heff : Pushed s s' (H + q.length) v bs bs' ps ps')
    (h' : RepAt s' H (q ++ [v]) bs' rs ps') : Kept s' H (H + q.length + 1) bs' rs ps' [] := by
  obtain ⟨htail, htmem, -⟩ := h.tail_block
  have hle : H / 31 ≤ (H + q.length) / 31 := Nat.div_le_div_right (by omega)
  cases heff with
  | inside blk hin hbs hps hpool hblk hheap htag hptr =>
    subst hbs hps
    exact hk.wrote (by omega) h.nodup htail hblk rfl hheap hpool htag hptr
  | cross s₁ nb blk hlast hacq hbs hpool hblk hheap htag hptr =>
    subst hbs
    obtain ⟨hk₁, hfresh⟩ := hk.acquire h.pool hacq
    have hd : (nb :: (bs ++ rs ++ ps')).Nodup := by
      refine List.Perm.nodup ?_ h'.nodup
      simp only [List.append_assoc, List.singleton_append]
      exact List.perm_middle
    have hnt : nb ≠ s.tail.block := fun he ↦ (List.nodup_cons.1 hd).1
      (List.mem_append_left _ (List.mem_append_left _ (he ▸ htmem)))
    have hk₂ : Kept { s₁ with heap := s'.heap } H (H + q.length + 1) bs rs ps' [nb] :=
      hk₁.wrote (by omega) (List.nodup_cons.1 hd).2 htail hblk
        (show (written { blk with next := nb } (H + q.length) v).state = _ from rfl) hheap
          rfl rfl rfl
    have hdiv : (H + q.length + 1) / 31 = (H + q.length) / 31 + 1 := by omega
    refine hk₂.link ?_ (by omega) (by omega) (fun nblk hnblk ↦ ?_) rfl hpool ?_ ?_
    · rw [hdiv, h.span]
      omega
    · refine hfresh nblk ?_
      rw [← hnblk]
      show s₁.heap nb = s'.heap nb
      rw [hheap, Function.update_of_ne hnt]
    · rw [hdiv, htag]
      exact congrArg (Function.update · _ _) hacq.cacheTag.symm
    · rw [hdiv, hptr]
      exact congrArg (Function.update · _ _) hacq.cachePtr.symm

/-- **`pop_raw`** keeps what the memory holds. -/
theorem Kept.pop {v : α} {bs' rs' : List ℕ} (hk : Kept s H (H + (v :: q).length) bs rs ps [])
    (h : RepAt s H (v :: q) bs rs ps) (heff : Popped s s' H bs bs' rs rs') :
    Kept s' (H + 1) (H + 1 + q.length) bs' rs' ps [] := by
  obtain ⟨bt, hbs, -⟩ := h.head_block
  obtain ⟨blk, x, hblk, hheap⟩ := heff.heap
  have hlen : H + (v :: q).length = H + 1 + q.length := by
    rw [List.length_cons]
    omega
  rw [hlen] at hk
  exact hk.took (by omega) h.nodup (by rw [hbs]; rfl) hblk rfl hheap heff.pool heff.cacheTag
    heff.cachePtr heff.lists

/-- The first block in hand is in no list. -/
theorem notMem_of_hand {a : ℕ} {xs : List ℕ} (hd : (bs ++ a :: xs ++ ps).Nodup) :
    (a ∉ bs ∧ a ∉ xs ∧ a ∉ ps) ∧ (bs ++ xs ++ ps).Nodup := by
  have hperm : (bs ++ a :: xs ++ ps).Perm (a :: (bs ++ xs ++ ps)) := by
    rw [List.append_assoc, List.append_assoc]
    exact List.perm_middle
  obtain ⟨hnot, hd'⟩ := List.nodup_cons.1 (hperm.nodup_iff.1 hd)
  simp only [List.mem_append, not_or, and_assoc] at hnot
  exact ⟨hnot, hd'⟩

/-- A block in hand is given back. -/
theorem Kept.freed {a : ℕ} {xs : List ℕ} (hk : Kept s H E bs rs ps (a :: xs))
    (hnot : a ∉ bs ∧ a ∉ rs ∧ a ∉ ps ∧ a ∉ xs) : Kept (s.setBlock a none) H E bs rs ps xs := by
  have hne : ∀ {l : List ℕ} {b : ℕ}, b ∈ l → a ∉ l → (s.setBlock a none).heap b = s.heap b :=
    fun hb hn ↦ Function.update_of_ne (ne_of_mem_of_not_mem hb hn) _ _
  refine ⟨fun b ↦ ?_, fun k b blk hb hblk ↦ ?_, fun b hb blk hblk ↦ ?_, fun b hb blk hblk ↦ ?_,
    hk.cached, hk.vacant⟩
  · by_cases hb : b = a
    · subst hb
      simp [Store.setBlock, hnot]
    · have := hk.live b
      simp only [List.mem_cons, hb, false_or] at this
      show Function.update s.heap a none b ≠ none ↔ _
      rwa [Function.update_of_ne hb]
  · rw [hne (List.mem_of_getElem? hb) hnot.1] at hblk
    exact hk.linked k b blk hb hblk
  · rw [hne hb hnot.2.1] at hblk
    exact hk.spent b hb blk hblk
  · rw [hne hb hnot.2.2.1] at hblk
    exact hk.clean b hb blk hblk

/-- A block in hand is put into the pool with its slots cleared. -/
theorem Kept.pooled {a : ℕ} {xs : List ℕ} {blk : Block α} {l : AtomicBuffer.Store ℕ}
    (hk : Kept s H E bs rs ps (a :: xs)) (hnot : a ∉ bs ∧ a ∉ rs ∧ a ∉ ps ∧ a ∉ xs)
    (hcontains : AtomicBuffer.Contains s.freeList ps) (hblk : ∀ i < 32, blk.state i = 0)
    (hpush : AtomicBuffer.pushAlone a s.freeList = some (l, true))
    (hheap : s'.heap = Function.update s.heap a (some blk)) (hpool : s'.freeList = l)
    (htag : s'.cacheTag = s.cacheTag) (hptr : s'.cachePtr = s.cachePtr) :
    Kept s' H E bs rs (ps ++ [a]) xs := by
  have hne : ∀ {l : List ℕ} {b : ℕ}, b ∈ l → a ∉ l → s'.heap b = s.heap b := fun hb hn ↦ by
    rw [hheap, Function.update_of_ne (ne_of_mem_of_not_mem hb hn)]
  refine ⟨fun b ↦ ?_, fun k b nb hb hnb ↦ ?_, fun b hb nb hnb ↦ ?_, fun b hb nb hnb ↦ ?_, ?_,
    hpool ▸ hk.vacant.push hcontains hpush⟩
  · by_cases hb : b = a
    · subst hb
      rw [hheap, Function.update_self]
      simp
    · rw [hheap, Function.update_of_ne hb, hk.live b]
      simp [hb]
  · rw [hne (List.mem_of_getElem? hb) hnot.1] at hnb
    exact hk.linked k b nb hb hnb
  · rw [hne hb hnot.2.1] at hnb
    exact hk.spent b hb nb hnb
  · rcases List.mem_append.1 hb with hb | hb
    · rw [hne hb hnot.2.2.1] at hnb
      exact hk.clean b hb nb hnb
    · obtain rfl := List.mem_singleton.1 hb
      rw [hheap, Function.update_self] at hnb
      cases hnb
      exact hblk
  · rw [htag, hptr]
    exact hk.cached

/-- The blocks in hand of `reclaim_retired` are all given back or pooled. -/
theorem Kept.reclaims {xs : List ℕ} (hk : Kept s H E bs [] ps xs) (heff : Reclaims xs s ps s' ps')
    (hcontains : AtomicBuffer.Contains s.freeList ps) (hd : (bs ++ xs ++ ps).Nodup) :
    Kept s' H E bs [] ps' [] := by
  induction heff with
  | nil s ps => exact hk
  | @free a xs ps ps' s s' heff ih =>
    obtain ⟨hnot, hd'⟩ := notMem_of_hand hd
    exact ih (hk.freed ⟨hnot.1, List.not_mem_nil, hnot.2.2, hnot.2.1⟩) hcontains hd'
  | @pool a xs ps ps' s s' blk l hpush heff ih =>
    obtain ⟨hnot, hd'⟩ := notMem_of_hand hd
    refine ih ?_ (hcontains.pushed hpush) ?_
    · have hclean : ∀ i < 32, (Block.reset blk).state i = 0 := fun i hi ↦ if_pos hi
      exact hk.pooled ⟨hnot.1, List.not_mem_nil, hnot.2.2, hnot.2.1⟩ hcontains hclean hpush rfl
        rfl rfl rfl
    · rw [← List.append_assoc]
      refine List.nodup_append.2 ⟨hd', List.nodup_singleton a, fun b hb c hc ↦ ?_⟩
      obtain rfl := List.mem_singleton.1 hc
      rintro rfl
      simp only [List.mem_append] at hb
      tauto

/-- The blocks that `with_capacity` makes are all pooled, or given back. -/
theorem Kept.fills (hk : Kept s H E bs rs ps []) (heff : Fills s ps s' ps')
    (hcontains : AtomicBuffer.Contains s.freeList ps) : Kept s' H E bs rs ps' [] := by
  induction heff with
  | nil s ps => exact hk
  | @pool b ps ps' s s' l hfree hpush heff ih =>
    have hnot : ¬(b ∈ bs ∨ b ∈ rs ∨ b ∈ ps ∨ b ∈ []) := fun hm ↦ (hk.live b).2 hm hfree
    have hmade : Kept (s.setBlock b (some .zeroed)) H E bs rs ps [b] :=
      hk.made hfree rfl rfl rfl rfl
    refine ih ?_ (hcontains.pushed hpush)
    have hclean : ∀ i < 32, (Block.zeroed : Block α).state i = 0 := fun i _ ↦ rfl
    refine hmade.pooled (by tauto) hcontains hclean hpush ?_ rfl rfl rfl
    exact (Function.update_idem ..).symm
  | @free b ps ps' s s' hfree heff ih =>
    refine ih ?_ hcontains
    exact hk.congr (Function.update_eq_self_iff.2 hfree.symm) rfl rfl rfl

end Lists

/-! ### Back to the first slot

A reset of the queue makes every block fresh again and keeps one of them. -/

section Single

variable {alloc : ℕ → Mem (Block α) → ℕ} {s : Store α} {ps : List ℕ}

/-- One linked block that nobody has used, and a cache that knows no other. -/
theorem kept_single {b : ℕ} (hlive : ∀ a, s.heap a ≠ none ↔ a = b ∨ a ∈ ps)
    (hfresh : ∀ blk, s.heap b = some blk → ∀ i < 32, blk.state i = 0)
    (hclean : ∀ p ∈ ps, ∀ blk, s.heap p = some blk → ∀ i < 32, blk.state i = 0)
    (htag : s.cacheTag 0 = some 0) (hptr : s.cachePtr 0 = b)
    (hnull : ∀ j, j ≠ 0 → j < 32 → s.cachePtr j = 0) (hv : AtomicBuffer.Vacant s.freeList ps) :
    Kept s 0 0 [b] [] ps [] := by
  refine ⟨fun a ↦ ?_, fun k c blk hc hblk i hi ↦ ?_, fun c hc ↦ (by cases hc), hclean,
    fun idx hidx ↦ ?_,
    hv⟩
  · rw [hlive a]
    simp
  · obtain ⟨rfl, rfl⟩ : k = 0 ∧ c = b := by
      cases k with
      | zero => exact ⟨rfl, (Option.some.inj hc).symm⟩
      | succ k => cases hc
    rw [hfresh blk hblk i hi, slotState]
    split_ifs <;> first | rfl | omega
  · by_cases hzero : idx % 32 = 0
    · rw [hzero, htag] at hidx
      cases hidx
      exact Or.inr ⟨Nat.zero_le _, fun _ ↦ congrArg some hptr.symm⟩
    · exact Or.inl (hnull _ hzero (Nat.mod_lt _ (by omega)))

theorem kept_new (halloc : Allocates alloc) :
    ∃ b, RepAt (Alone.new alloc) 0 [] [b] [] [] ∧ Kept (Alone.new alloc) 0 0 [b] [] [] [] := by
  obtain ⟨b, h⟩ := new_repAt (α := α) halloc
  obtain rfl : b = (Alone.new alloc).head.block := List.singleton_inj.1 h.single.1
  refine ⟨_, h, kept_single (fun a ↦ ?_) (fun blk hblk i _ ↦ ?_) (fun p hp ↦ (by cases hp)) rfl rfl
    (fun j hj hlt ↦ ?_) (AtomicBuffer.vacant_empty 512)⟩
  · by_cases ha : a = (Alone.new alloc).head.block
    · subst ha
      obtain ⟨-, -, -, blk, hblk, -⟩ := h.head_block
      rw [hblk]
      simp
    · have hnone : (Alone.new alloc).heap a = none := Function.update_of_ne ha _ _
      rw [hnone]
      simp [ha]
  · have hself : Function.update (fun _ ↦ none) (Alone.new alloc).head.block (some .zeroed)
        (Alone.new alloc).head.block = some blk := hblk
    rw [Function.update_self] at hself
    cases hself
    rfl
  · exact Function.update_of_ne hj _ _

/-- Clearing the cache nulls every entry. -/
theorem cachePtr_cleared (s : Store α) {j : ℕ} (hj : j < 32) :
    ((List.range blockCap).foldl (fun (s : Store α) i ↦ s.cacheSet i 0) s).cachePtr j = 0 := by
  -- an entry that was nulled stays so, and one is nulled at its turn
  have hfold : ∀ (is : List ℕ) (s : Store α), s.cachePtr j = 0 ∨ j ∈ is →
      (is.foldl (fun (s : Store α) i ↦ s.cacheSet i 0) s).cachePtr j = 0 := by
    intro is
    induction is with
    | nil => exact fun s h ↦ h.elim id fun hm ↦ absurd hm List.not_mem_nil
    | cons i is ih =>
      intro s h
      refine ih (s.cacheSet i 0) ?_
      by_cases hij : j = i % blockCap
      · exact Or.inl (hij ▸ Function.update_self ..)
      · refine h.imp (fun h0 ↦ (Function.update_of_ne hij _ _).trans h0) fun hm ↦ ?_
        refine (List.mem_cons.1 hm).resolve_left fun he ↦ hij ?_
        rw [← he]
        exact (Nat.mod_eq_of_lt hj).symm
  exact hfold _ s (Or.inr (List.mem_range.2 hj))

/-- **The rewound store** owns what it did. -/
theorem Kept.rewound {H E : ℕ} {bs : List ℕ} (blk : Block α) (hk : Kept s H E bs [] ps [])
    (h : RepAt s H [] bs [] ps) : Kept (Alone.rewound blk s) 0 0 [s.head.block] [] ps [] := by
  obtain ⟨rfl, -⟩ := h.single
  have hd : (s.head.block :: ps).Nodup := h.nodup
  have hps : ∀ p ∈ ps, p ≠ s.head.block :=
    fun p hp ↦ ne_of_mem_of_not_mem hp (List.nodup_cons.1 hd).1
  obtain ⟨tags, ptrs, hfold⟩ := Represents.foldl_cacheSet (List.range blockCap)
    { s with head := { s.head with index := 0 }, tail := { s.tail with index := 0 } }
  have hnull : ∀ j < 32, ptrs j = 0 := by
    intro j hj
    have := cachePtr_cleared
      { s with head := { s.head with index := 0 }, tail := { s.tail with index := 0 } } hj
    rwa [hfold] at this
  rw [Alone.rewound, hfold]
  refine kept_single (fun a ↦ ?_) (fun nb hnb i hi ↦ ?_) (fun p hp nb hnb ↦ ?_) rfl rfl
    (fun j hj hlt ↦ ?_) hk.vacant
  · show Function.update s.heap s.head.block _ a ≠ none ↔ _
    by_cases ha : a = s.head.block
    · subst ha
      rw [Function.update_self]
      simp
    · rw [Function.update_of_ne ha, hk.live a]
      simp [ha]
  · have hself : Function.update s.heap s.head.block (some (Block.reset blk)) s.head.block =
      some nb := hnb
    rw [Function.update_self] at hself
    cases hself
    exact if_pos hi
  · refine hk.clean p hp nb ?_
    rw [← hnb]
    exact (Function.update_of_ne (hps p hp) _ _).symm
  · exact (Function.update_of_ne hj _ _).trans (hnull j hlt)

/-- **The steps of the code keep the ownership.** -/
theorem represents_owns (halloc : Allocates alloc) : Represents alloc (Owns (α := α)) where
  fresh := by
    obtain ⟨b, h, hk⟩ := kept_new (α := α) halloc
    exact ⟨0, [b], [], [], h, hk⟩
  fill := by
    rintro s q ⟨H, bs, rs, ps, h, hk⟩ n
    obtain ⟨s', ps', hfill, h', heff⟩ := h.fillPool halloc n
    exact ⟨s', hfill, H, bs, rs, ps', h', hk.fills heff h.pool⟩
  len_eq := by
    rintro s q ⟨H, bs, rs, ps, h, -⟩
    exact h.len_eq
  push := by
    rintro s q ⟨H, bs, rs, ps, h, hk⟩ v
    obtain ⟨s', bs', ps', hpush, h', heff⟩ := h.push halloc v
    refine ⟨s', hpush, H, bs', rs, ps', h', ?_⟩
    rw [List.length_append, List.length_singleton, ← Nat.add_assoc]
    exact hk.push h heff h'
  pop_empty := by
    rintro s ⟨H, bs, rs, ps, h, -⟩
    exact h.pop_empty
  pop := by
    rintro s v q ⟨H, bs, rs, ps, h, hk⟩
    obtain ⟨s', bs', rs', reclaim, hpop, h', heff⟩ := h.pop
    exact ⟨s', reclaim, hpop, H + 1, bs', rs', ps, h', hk.pop h heff⟩
  reclaim := by
    rintro s q ⟨H, bs, rs, ps, h, hk⟩
    obtain ⟨s', ps', h', heff, hrun⟩ := h.reclaimRetired
    refine ⟨rs.length + 1, s', ⟨H, bs, [], ps', h', ?_⟩, h'.retired, hrun⟩
    -- the retired blocks are in hand
    have hhand : Kept { s with retired := 0, retiredCount := 0 } H (H + q.length) bs [] ps rs :=
      ⟨fun a ↦ by
        rw [hk.live a]
        simp only [List.not_mem_nil, or_false, false_or]
        tauto, hk.linked, fun b hb ↦ (by cases hb), hk.clean, hk.cached, hk.vacant⟩
    exact hhand.reclaims heff h.pool h.nodup
  rewind := by
    rintro s ⟨H, bs, rs, ps, h, hk⟩ hret
    obtain rfl := h.retired.null_iff.1 hret
    obtain ⟨hne, blk, hblk, h'⟩ := h.rewound
    exact ⟨hne, blk, hblk, 0, [s.head.block], [], ps, h', hk.rewound blk h⟩

end Single

end Alone

end AtomicVec

end Crossync
