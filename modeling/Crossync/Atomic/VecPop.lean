import Crossync.Atomic.VecPush

/-!
# A pop keeps the invariant

One lemma for each effect a pop has: it reserves a slot, moves `head` on to the next block, takes
the value, marks the slot, counts the read and, if the block is then spent, retires it.

## The hardest access

Counting the read. The pop that completes the 31st read of a block takes the block out of the chain,
and from then on it is in that pop's hands: no slot of it is published and unread, no other pop can
count on it, and nobody follows a link into it but those who are pinned. All three are read off the
phases.
-/

open Interleave

namespace Crossync

namespace AtomicVec

variable {ι α : Type*} [DecidableEq ι] {G : Ghost ι} {c : Config ι (Store ι α) (Pc ι α)} {t : ι}
  {ch : Choice ι} {s' : Store ι α} {o : Outcome (Pc ι α) (Ret α)} {f : PopFrame}

omit [DecidableEq ι] in
theorem atSlot_next {b k : ℕ} : AtSlot G b (k + 31) ↔ b = G.chain (k / 31 + 1) ∧
    k / 31 + 1 ≤ G.last := by
  rw [AtSlot, Nat.add_div_right k (by decide)]

omit [DecidableEq ι] in
/-- A slot that has been published has been pushed. -/
theorem Inv.brings_of_done (h : Inv G c) {k : ℕ} (hk : G.pushed k = .done) :
    Brings c.shared k (brought c.shared k) := by
  have hlt : k < c.shared.pushes.length := by
    by_contra hge
    rw [(h.ledger.pushed_free k).2 (not_lt.1 hge)] at hk
    cases hk
  have hget := List.getElem?_eq_getElem hlt
  exact ⟨_, hget, by rw [brought, hget]; rfl⟩

/-! ### The reservation and the next block

The index is moved by an exchange, or by the stores of the pop that has the last slot. -/

theorem Inv.pop_reserve (h : Inv G c) (hE : Ends c) {n : ℕ}
    (hpc : c.pcs t = some (.pop f (.cas n))) (hhead : c.shared.head.index = f.head) :
    ∃ G', Inv G' (c.put t ({ c.shared with
        head := { c.shared.head with index := n }
        pops := c.shared.pops + 1 }, (.goto (.pop f
          (if offset f.head + 1 = blockCap - 1 then .waitNext n else .waitWrite)) :
          Outcome (Pc ι α) (Ret α)))) := by
  obtain ⟨hoff, -, hn⟩ := hE.placed t _ hpc
  have hslot : f.slot = c.shared.pops := by
    rw [← hE.head_number, hhead]
    rfl
  obtain ⟨hblock, hlast⟩ := h.chain.head (by rw [hhead]; exact hoff)
  have hfb : f.block = G.chain (c.shared.pops / 31) := (h.knows t _ hpc hhead.symm).trans hblock
  have hdiv : number (f.head / 2) / 31 = f.head / 2 / 32 := number_div hoff
  have hat : AtSlot G f.block f.slot := by
    rw [hslot]
    exact ⟨hfb, hlast⟩
  refine ⟨{ G with popped := Function.update G.popped c.shared.pops (.held .reserved t) },
    h.put hE ?_ ?_ ?_ ?_ ?_ ?_⟩
  · refine h.ledger.reservePop hpc rfl rfl rfl rfl rfl ?_ ?_
    · split_ifs <;> rfl
    · rw [← hslot]
      split_ifs <;> rfl
  · refine h.chain.reservePop h.ledger.popped_free rfl rfl rfl rfl rfl (by omega) fun hc ↦ ?_
    have hnum := number_div (w := f.head / 2 + 1) (by dsimp only at hc; omega)
    rw [number_succ hoff] at hnum
    have hsame : (c.shared.pops + 1) / 31 = c.shared.pops / 31 := by
      rw [← hslot, PopFrame.slot, hnum, hdiv]
      omega
    dsimp only
    rw [hsame]
    exact ⟨hblock, hlast⟩
  · exact h.stock.congr (fun _ ↦ Iff.rfl) (fun _ ↦ Iff.rfl) (fun _ _ ↦ Iff.rfl) (fun _ _ ↦ rfl)
      rfl rfl rfl rfl
  · refine ⟨fun _ _ _ hb ↦ ⟨hb, rfl⟩, le_rfl, fun _ _ ↦ rfl, List.prefix_refl _,
      List.prefix_refl _, fun _ hk ↦ hk, fun w _ _ he ↦ ⟨he, rfl⟩, fun w hw _ he ↦ ?_,
      fun _ ↦ ⟨rfl, rfl⟩, fun _ ↦ rfl⟩
    dsimp only at he
    omega
  · rintro q ⟨⟩
    split_ifs
    all_goals exact hat
  · exact h.delivered_of_eq rfl (List.prefix_refl _)

theorem Inv.pop_headBlock (h : Inv G c) (hE : Ends c) {next n : ℕ}
    (hpc : c.pcs t = some (.pop f (.headBlock next n))) :
    Inv G (c.put t ({ c.shared with head := { c.shared.head with block := next } },
        (.goto (.pop f (.headIndex n)) : Outcome (Pc ι α) (Ret α)))) := by
  obtain ⟨hat, hnext⟩ := h.knows t _ hpc
  obtain ⟨hidx, hthirty⟩ := hE.turning.opened t f.head (by rw [hpc]; rfl)
  refine h.put hE ?_ ?_ ?_ ?_ ?_ ?_
  · refine h.ledger.put_same rfl rfl rfl ?_ ?_
    all_goals
      rw [hpc]
      rfl
  · refine h.chain.congr rfl rfl rfl (fun _ _ ↦ Iff.rfl) (fun _ ↦ Or.inl rfl) rfl rfl h.chain.tail
      fun hc ↦ ?_
    dsimp only at hc
    omega
  · exact h.stock.congr (fun _ ↦ Iff.rfl) (fun _ ↦ Iff.rfl) (fun _ _ ↦ Iff.rfl) (fun _ _ ↦ rfl)
      rfl rfl rfl rfl
  · refine ⟨fun _ _ _ hb ↦ ⟨hb, rfl⟩, le_rfl, fun _ _ ↦ rfl, List.prefix_refl _,
      List.prefix_refl _, fun _ hk ↦ hk, fun _ _ _ he ↦ ⟨he, rfl⟩, fun w _ hoff he ↦ ?_,
      fun _ ↦ ⟨rfl, rfl⟩, fun hc ↦ ?_⟩
    · dsimp only at he
      omega
    · rw [hpc] at hc
      cases hc
  · rintro _ ⟨⟩
    exact ⟨hat, hnext⟩
  · exact h.delivered_of_eq rfl (List.prefix_refl _)

theorem Inv.pop_headIndex (h : Inv G c) (hE : Ends c) {n : ℕ}
    (hpc : c.pcs t = some (.pop f (.headIndex n))) :
    Inv G (c.put t ({ c.shared with head := { c.shared.head with index := n } },
        (.goto (.pop f .waitWrite) : Outcome (Pc ι α) (Ret α)))) := by
  obtain ⟨hat, hnext⟩ := h.knows t _ hpc
  rw [atSlot_next] at hnext
  obtain ⟨hoff, -, hn⟩ := hE.placed t _ hpc
  obtain ⟨hidx, hthirty⟩ := hE.turning.opened t f.head (by rw [hpc]; rfl)
  have hnum : c.shared.pops = f.slot + 1 := by
    rw [← hE.head_number, hidx, number_succ hoff]
    rfl
  have hmod : f.slot % 31 = 30 := by
    rw [PopFrame.slot, number_mod hoff]
    exact hthirty
  have hdiv : c.shared.pops / 31 = f.slot / 31 + 1 := by omega
  refine h.put hE ?_ ?_ ?_ ?_ ?_ ?_
  · refine h.ledger.put_same rfl rfl rfl ?_ ?_
    all_goals
      rw [hpc]
      rfl
  · refine h.chain.congr rfl rfl rfl (fun _ _ ↦ Iff.rfl) (fun _ ↦ Or.inl rfl) rfl rfl h.chain.tail
      fun _ ↦ ?_
    rw [hdiv]
    exact hnext
  · exact h.stock.congr (fun _ ↦ Iff.rfl) (fun _ ↦ Iff.rfl) (fun _ _ ↦ Iff.rfl) (fun _ _ ↦ rfl)
      rfl rfl rfl rfl
  · refine ⟨fun _ _ _ hb ↦ ⟨hb, rfl⟩, le_rfl, fun _ _ ↦ rfl, List.prefix_refl _,
      List.prefix_refl _, fun _ hk ↦ hk, fun _ _ _ he ↦ ⟨he, rfl⟩, fun w hw _ he ↦ ?_,
      fun _ ↦ ⟨rfl, rfl⟩, fun _ ↦ rfl⟩
    dsimp only at he
    omega
  · rintro _ ⟨⟩
    exact hat
  · exact h.delivered_of_eq rfl (List.prefix_refl _)

/-! ### The value

It is moved out of the slot, and the slot is marked read. -/

omit [DecidableEq ι] in
/-- What a pop that holds a slot of a live block sees there. -/
theorem Inv.pop_shows (h : Inv G c) (hE : Ends c) {pt : PopPoint α} (st : PopStage)
    (hpc : c.pcs t = some (.pop f pt)) (hp : popClaim (.pop f pt : Pc ι α) = some (f.slot, st))
    (hst : st ≠ .counted) (hat : AtSlot G f.block f.slot) :
    (G.popped f.slot = .held st t ∧ reads G.popped (f.slot / 31) < 31) ∧
    (f.slot = 31 * (f.slot / 31) + offset f.head ∧ offset f.head < 31) ∧
    Shows G c.shared (f.slot / 31) (c.shared.heap f.block) := by
  have hphase := h.ledger.popped_eq hpc hp
  have hlive : reads G.popped (f.slot / 31) < 31 := by
    refine Chain.live_of_not_counted ?_
    rw [hphase]
    cases st <;> first | rfl | exact absurd rfl hst
  have hoff : f.head / 2 % 32 ≠ 31 := (hE.placed t _ hpc).1
  refine ⟨⟨hphase, hlive⟩, ⟨slot_offset hoff, offset_lt hoff⟩, ?_⟩
  rw [hat.1]
  exact h.chain.shows _ hat.2 hlive

theorem Inv.pop_take (h : Inv G c) (hE : Ends c) (hpc : c.pcs t = some (.pop f .take)) :
    ∃ G', Inv G' (c.put t (c.shared.setValue f.block (offset f.head) none,
        (.goto (.pop f (.mark ((c.shared.heap f.block).value (offset f.head)))) :
          Outcome (Pc ι α) (Ret α)))) := by
  obtain ⟨hat, hdone⟩ := h.knows t _ hpc
  obtain ⟨⟨hphase, hlive⟩, ⟨hk, hi⟩, hshow⟩ := h.pop_shows hE .reserved hpc rfl (by simp) hat
  have hvalue : (c.shared.heap f.block).value (offset f.head) = brought c.shared f.slot := by
    rw [hshow.value _ hi, ← hk, hphase, hdone]
    rfl
  rw [hvalue]
  refine ⟨{ G with popped := Function.update G.popped f.slot (.held .taken t) },
    h.put hE ?_ ?_ ?_ ?_ ?_ ?_⟩
  · refine h.ledger.advancePop (k := f.slot) .reserved .taken hpc ?_ ?_ ?_ ?_ ?_ ?_
    all_goals rfl
  · rw [hat.1]
    rw [hat.1] at hshow
    refine h.chain.setSlot hat.2 hlive hi hk rfl rfl rfl (fun _ _ ↦ rfl)
      (fun k' hk' ↦ Function.update_of_ne hk' _ _) ?_ ?_ ?_ ?_ ?_ rfl rfl
    · dsimp only
      rw [Function.update_self, hphase]
      rfl
    · intro _
      exact hdone
    · dsimp only
      rw [hshow.state _ hi, ← hk, Function.update_self, hphase, hdone]
      rfl
    · dsimp only
      rw [Function.update_self, Function.update_self, hdone]
      rfl
    · intro j hj
      exact ⟨rfl, Function.update_of_ne hj _ _⟩
  · rw [hat.1]
    exact h.stock.setBlock_chain h.chain hat.2 hlive rfl
  · rw [hat.1]
    exact .setBlock_chain h.chain hat.2 hlive rfl rfl rfl fun _ hd ↦ hd
  · rintro _ ⟨⟩
    exact ⟨hat, h.brings_of_done hdone⟩
  · exact h.delivered_of_eq rfl (List.prefix_refl _)

theorem Inv.pop_mark (h : Inv G c) (hE : Ends c) {v : Option (ℕ × α)}
    (hpc : c.pcs t = some (.pop f (.mark v))) :
    ∃ G', Inv G' (c.put t (c.shared.setState f.block (offset f.head) AtomicVec.read,
        (.goto (.pop f (.count v)) : Outcome (Pc ι α) (Ret α)))) := by
  obtain ⟨hat, hbr⟩ := h.knows t _ hpc
  obtain ⟨⟨hphase, hlive⟩, ⟨hk, hi⟩, hshow⟩ := h.pop_shows hE .taken hpc rfl (by simp) hat
  have hdone : G.pushed f.slot = .done := h.chain.taken _ (by rw [hphase]; rfl)
  refine ⟨{ G with popped := Function.update G.popped f.slot (.held .marked t) },
    h.put hE ?_ ?_ ?_ ?_ ?_ ?_⟩
  · refine h.ledger.advancePop (k := f.slot) .taken .marked hpc ?_ ?_ ?_ ?_ ?_ ?_
    all_goals rfl
  · rw [hat.1]
    rw [hat.1] at hshow
    refine h.chain.setSlot hat.2 hlive hi hk rfl rfl rfl (fun _ _ ↦ rfl)
      (fun k' hk' ↦ Function.update_of_ne hk' _ _) ?_ ?_ ?_ ?_ ?_ rfl rfl
    · dsimp only
      rw [Function.update_self, hphase]
      rfl
    · intro _
      exact hdone
    · dsimp only
      rw [Function.update_self, Function.update_self, hdone]
      rfl
    · dsimp only
      rw [hshow.value _ hi, ← hk, Function.update_self, hphase, hdone]
      rfl
    · intro j hj
      exact ⟨Function.update_of_ne hj _ _, rfl⟩
  · rw [hat.1]
    exact h.stock.setBlock_chain h.chain hat.2 hlive rfl
  · rw [hat.1]
    exact .setBlock_chain h.chain hat.2 hlive rfl rfl rfl fun _ hd ↦ hd
  · rintro _ ⟨⟩
    exact ⟨hat, hbr⟩
  · exact h.delivered_of_eq rfl (List.prefix_refl _)

/-! ### The count

The read that completes a block makes its pop the owner of the block. -/

/-- **The read is counted**, and a block whose 31 reads are counted passes from the chain into the
hands of the pop. -/
theorem Inv.pop_count (h : Inv G c) (hE : Ends c) {v : Option (ℕ × α)}
    (hpc : c.pcs t = some (.pop f (.count v))) :
    ∃ G', Inv G' (c.put t (c.shared.setCounters f.block ((c.shared.heap f.block).counters + 1),
        (.goto (if (c.shared.heap f.block).counters + 1 = blockCap - 1 then .pop f (.retireLoad v)
          else .popUnpin (some (number (f.head / 2), v)) false (Coord.dropPc f.lane)) :
          Outcome (Pc ι α) (Ret α)))) := by
  obtain ⟨hat, hbr⟩ := h.knows t _ hpc
  obtain ⟨⟨hphase, hlive⟩, ⟨hk, hi⟩, hshow⟩ := h.pop_shows hE .marked hpc rfl (by simp) hat
  have hcnt : (c.shared.heap f.block).counters = reads G.popped (f.slot / 31) := hshow.counters
  have hbefore : G.popped (31 * (f.slot / 31) + offset f.head) = .held .marked t := by
    rw [← hk]
    exact hphase
  by_cases hfull : reads G.popped (f.slot / 31) + 1 = 31
  · have hrole := h.chain.role_chain hat.2 hlive
    have hspent := h.chain.spent hat.2 hlive hi hfull hbefore
    rw [if_pos (by rw [hcnt]; exact hfull)]
    refine ⟨{ G with
        popped := Function.update G.popped f.slot (.held .counted t)
        role := Function.update G.role (G.chain (f.slot / 31)) (.owned t) },
      h.put hE ?_ ?_ ?_ ?_ ?_ ?_⟩
    · refine h.ledger.advancePop (k := f.slot) .marked .counted hpc ?_ ?_ ?_ ?_ ?_ ?_
      all_goals rfl
    · rw [hat.1]
      refine h.chain.count hat.2 hlive hi hk rfl rfl rfl hphase rfl (fun b m ↦ ?_) rfl
      dsimp only
      by_cases hb : b = G.chain (f.slot / 31)
      · subst hb
        rw [Function.update_self, hrole]
        refine ⟨fun hc ↦ (nomatch hc), fun hc ↦ ?_⟩
        have := hc.2 (Role.active.inj hc.1).symm
        omega
      · rw [Function.update_of_ne hb]
        refine ⟨fun hm ↦ ⟨hm, fun he ↦ ?_⟩, fun hm ↦ hm.1⟩
        obtain ⟨-, hch, -⟩ := (h.chain.active_iff b m).1 hm
        rw [he] at hch
        exact absurd hch.symm hb
    · refine h.stock.setRole (Or.inl ⟨_, hrole⟩) (Or.inr ⟨t, rfl⟩) rfl (fun a ha _ ↦ ?_) rfl rfl rfl
      rw [hat.1]
      exact Function.update_of_ne ha _ _
    · refine .of_memory (fun u b _ hb ↦ ?_) rfl rfl (fun _ hd ↦ hd) rfl (List.prefix_refl _) rfl rfl
      have hne : b ≠ G.chain (f.slot / 31) := h.chain.ne_of_role hat.2 hlive fun m hm ↦ by
        rw [hb] at hm
        cases hm
      rw [hat.1]
      exact ⟨(Function.update_of_ne hne _ _).trans hb, Function.update_of_ne hne _ _⟩
    · rintro _ ⟨⟩
      refine ⟨⟨?_, ?_⟩, hbr⟩
      · rw [hat.1]
        exact Function.update_self _ _ _
      · rw [hat.1]
        simp only [Store.setCounters, Store.setBlock, Function.update_self]
        exact ⟨hspent.state, hspent.value⟩
    · exact h.delivered_of_eq rfl (List.prefix_refl _)
  · rw [if_neg (by rw [hcnt]; exact hfull)]
    refine ⟨{ G with popped := Function.update G.popped f.slot (.held .counted t) },
      h.put hE ?_ ?_ ?_ ?_ ?_ ?_⟩
    · refine h.ledger.advancePop (k := f.slot) .marked .counted hpc ?_ ?_ ?_ ?_ ?_ ?_
      all_goals rfl
    · rw [hat.1]
      exact h.chain.count hat.2 hlive hi hk rfl rfl rfl hphase rfl
        (fun b m ↦ ⟨fun hm ↦ ⟨hm, fun _ ↦ by omega⟩, fun hm ↦ hm.1⟩) rfl
    · rw [hat.1]
      exact h.stock.setBlock_chain h.chain hat.2 hlive rfl
    · rw [hat.1]
      exact .setBlock_chain h.chain hat.2 hlive rfl rfl rfl fun _ hd ↦ hd
    · rintro _ ⟨⟩ k x hx
      cases hx
      exact hbr
    · exact h.delivered_of_eq rfl (List.prefix_refl _)

/-! ### The retired list

A push onto a list of addresses, whose head may have changed in between. -/

/-- A change to a block in the hands of its thread. -/
theorem Inv.put_owned (h : Inv G c) (hE : Ends c) {b : ℕ} {x : Block α}
    (hrole : G.role b = .owned t) (hx : x.value = (c.shared.heap b).value)
    (hq : o.pc.bind pushClaim = (c.pcs t).bind pushClaim)
    (hq' : o.pc.bind popClaim = (c.pcs t).bind popClaim)
    (hk : ∀ q, o.pc = some q → Knows G (c.shared.setBlock b x) t q) :
    Inv G (c.put t (c.shared.setBlock b x, o)) := by
  have hheap : ∀ a, G.role a ≠ .owned t → (c.shared.setBlock b x).heap a = c.shared.heap a := by
    intro a ha
    refine Function.update_of_ne ?_ _ _
    rintro rfl
    exact ha hrole
  refine h.put hE (h.ledger.put_same rfl rfl rfl hq hq') ?_ ?_ ?_ hk
    (h.delivered_of_eq rfl (List.prefix_refl _))
  · refine h.chain.congr rfl rfl rfl (fun _ _ ↦ Iff.rfl) (fun a ↦ ?_) rfl rfl h.chain.tail
      h.chain.head
    by_cases hab : a = b
    · subst hab
      refine Or.inr ⟨fun n hn ↦ ?_, fun i hi hv ↦ ?_⟩
      · rw [hrole] at hn
        cases hn
      · simp only [Store.setBlock, Function.update_self]
        rw [hx]
        exact hv
    · exact Or.inl (Function.update_of_ne hab _ _)
  · refine h.stock.congr (fun _ ↦ Iff.rfl) (fun _ ↦ Iff.rfl) (fun _ _ ↦ Iff.rfl) (fun a ha ↦ ?_)
      rfl rfl rfl rfl
    refine hheap a ?_
    rcases ha with ha | ⟨pos, ha⟩ <;> rw [ha] <;> simp
  · refine .of_memory (fun u a hu ha ↦ ⟨ha, hheap a ?_⟩) rfl rfl (fun _ hd ↦ hd) rfl
      (List.prefix_refl _) rfl rfl
    rw [ha]
    intro he
    exact hu (Role.owned.inj he)

theorem Inv.pop_retireNext (h : Inv G c) (hE : Ends c) {v : Option (ℕ × α)} {next : ℕ}
    (hpc : c.pcs t = some (.pop f (.retireNext v next))) :
    Inv G (c.put t (c.shared.setNext f.block next,
        (.goto (.pop f (.retireCas v next)) : Outcome (Pc ι α) (Ret α)))) := by
  obtain ⟨⟨hrole, hspent⟩, hbr⟩ := h.knows t _ hpc
  refine h.put_owned hE hrole rfl ?_ ?_ ?_
  · rw [hpc]
    rfl
  · rw [hpc]
    rfl
  · rintro _ ⟨⟩
    refine ⟨⟨⟨hrole, ?_⟩, ?_⟩, hbr⟩
    · simp only [Store.setBlock, Function.update_self]
      exact ⟨hspent.state, hspent.value⟩
    · simp [Store.setBlock]

/-- **A spent block is put on the retired list.** -/
theorem Inv.pop_retireCas (h : Inv G c) (hE : Ends c) {v : Option (ℕ × α)} {next : ℕ}
    (hpc : c.pcs t = some (.pop f (.retireCas v next))) (hnext : c.shared.retired = next) :
    ∃ G', Inv G' (c.put t ({ c.shared with retired := f.block },
        (.goto (.pop f (.retireCount v)) : Outcome (Pc ι α) (Ret α)))) := by
  obtain ⟨⟨⟨hrole, hspent⟩, hlink⟩, hbr⟩ := h.knows t _ hpc
  refine ⟨{ G with role := Function.update G.role f.block .retired }, h.put hE ?_ ?_ ?_ ?_ ?_ ?_⟩
  · refine h.ledger.put_same rfl rfl rfl ?_ ?_
    all_goals
      rw [hpc]
      rfl
  · refine h.chain.congr rfl rfl rfl (fun a n ↦ role_update_iff ?_ ?_ a)
      (fun _ ↦ Or.inl rfl) rfl rfl
      h.chain.tail h.chain.head
    · rw [hrole]
      intro hc
      cases hc
    · intro hc
      cases hc
  · exact h.stock.retire hrole hspent (hlink.trans hnext.symm)
  · exact .of_memory (fun u a hu ha ↦ ⟨owned_update hrole hu ha, rfl⟩) rfl rfl (fun _ hd ↦ hd) rfl
      (List.prefix_refl _) rfl rfl
  · rintro _ ⟨⟩
    exact hbr
  · exact h.delivered_of_eq rfl (List.prefix_refl _)

/-! ### All accesses -/

theorem execPop_inv (h : Inv G c) (hE : Ends c) {pt : PopPoint α}
    (hpc : c.pcs t = some (.pop f pt)) (he : execPop ch c.shared f pt = some (s', o)) :
    ∃ G', Inv G' (c.put t (s', o)) := by
  have hk : PopKnows G c.shared t f pt := h.knows t _ hpc
  have hsame : ∀ {s' : Store ι α} {q : Pc ι α}, SameMemory c.shared s' →
      pushClaim q = none → popClaim q = popClaim (.pop f pt : Pc ι α) → Knows G s' t q →
      ∃ G', Inv G' (c.put t (s', (.goto q : Outcome (Pc ι α) (Ret α)))) := by
    intro s' q hs hq hq' hk'
    refine ⟨G, h.put_same hE hs ?_ ?_ ?_⟩
    · rw [hpc]
      exact hq
    · rw [hpc]
      exact hq'
    · rintro _ ⟨⟩
      exact hk'
  cases pt with
  | tail =>
    simp only [execPop] at he
    split_ifs at he
    · cases he
      exact hsame (.refl _) rfl rfl (by rintro _ _ ⟨⟩)
    · cases he
      exact hsame (.refl _) rfl rfl hk
    · cases he
      exact hsame (.refl _) rfl rfl hk
  | cas n =>
    simp only [execPop] at he
    split at he
    · rename_i w hw
      obtain ⟨hhead, rfl⟩ := casWeak_eq_ok hw
      cases he
      exact h.pop_reserve hE hpc hhead
    · cases he
      exact hsame (.refl _) rfl rfl trivial
  | waitNext n =>
    simp only [execPop] at he
    obtain ⟨-, -, hshow⟩ := h.pop_shows hE .reserved hpc rfl (by simp) hk
    split_ifs at he with hnull
    · cases he
      exact hsame (.refl _) rfl rfl hk
    · cases he
      refine hsame (.refl _) rfl rfl ⟨hk, atSlot_next.2 ?_⟩
      rw [hshow.next] at hnull ⊢
      split_ifs at hnull with hlt
      · rw [if_pos hlt]
        exact ⟨rfl, hlt⟩
      · exact absurd rfl hnull
  | getNext n next =>
    simp only [execPop] at he
    split_ifs at he
    all_goals cases he
    all_goals exact hsame (.refl _) rfl rfl hk
  | headBlock next n =>
    cases he
    exact ⟨G, h.pop_headBlock hE hpc⟩
  | headIndex n =>
    cases he
    exact ⟨G, h.pop_headIndex hE hpc⟩
  | waitWrite =>
    simp only [execPop] at he
    obtain ⟨⟨hphase, -⟩, ⟨hslot, hi⟩, hshow⟩ := h.pop_shows hE .reserved hpc rfl (by simp) hk
    split_ifs at he with hzero
    · cases he
      exact hsame (.refl _) rfl rfl hk
    · cases he
      refine hsame (.refl _) rfl rfl ⟨hk, ?_⟩
      -- only a published slot shows the write bit
      rw [hshow.state _ hi, ← hslot, hphase] at hzero
      cases hp : G.pushed f.slot with
      | done => rfl
      | free =>
        rw [hp] at hzero
        exact absurd (by simp [slotState]) hzero
      | held st u =>
        rw [hp] at hzero
        cases st <;> exact absurd (by simp [slotState]) hzero
  | take =>
    cases he
    exact h.pop_take hE hpc
  | mark v =>
    cases he
    exact h.pop_mark hE hpc
  | count v =>
    cases he
    exact h.pop_count hE hpc
  | retireLoad v =>
    cases he
    exact hsame (.refl _) rfl rfl hk
  | retireNext v next =>
    cases he
    exact ⟨G, h.pop_retireNext hE hpc⟩
  | retireCas v next =>
    simp only [execPop] at he
    split at he
    · rename_i w hw
      obtain ⟨hnext, rfl⟩ := casWeak_eq_ok hw
      cases he
      exact h.pop_retireCas hE hpc hnext
    · cases he
      exact hsame (.refl _) rfl rfl ⟨hk.1.1, hk.2⟩
  | retireCount v =>
    cases he
    refine hsame ⟨rfl, rfl, rfl, rfl, rfl, rfl, rfl, rfl, rfl, rfl⟩ rfl rfl ?_
    rintro k x ⟨⟩
    exact hk

end AtomicVec

end Crossync
