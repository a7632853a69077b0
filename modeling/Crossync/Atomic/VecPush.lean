import Crossync.Atomic.VecInvariant

/-!
# A push keeps the invariant

One lemma for each effect a push has: it reserves a slot, it takes a block out of the pool or
allocates one, links it and moves `tail` on to it, writes its value and publishes it. All its other
accesses are loads, or stores to the cache of block addresses, which `push` and `pop` never read.

## The order of the stores

The push that reserves the last slot of a block links the next one before it moves `tail` there, and
publishes its own value last. Between the link and the move, a pop may follow the link: the next
block is in the chain from the link on, with all its slots free.
-/

open Interleave

namespace Crossync

namespace AtomicVec

variable {ι α : Type*} {G : Ghost ι} {c : Config ι (Store ι α) (Pc ι α)} {t : ι} {ch : Choice ι}
  {s' : Store ι α} {o : Outcome (Pc ι α) (Ret α)} {f : PushFrame α}

/-- What a step that keeps the record of returns keeps of it. -/
theorem Inv.delivered_of_eq (h : Inv G c) (hr : s'.returned = c.shared.returned)
    (hp : c.shared.pushes <+: s'.pushes) : ∀ k x, (k, x) ∈ s'.returned → Brings s' k x := by
  intro k x hx
  rw [hr] at hx
  exact (h.delivered k x hx).mono hp

/-- A block of the chain that is live is not in a thread's hands, nor outside the chain. -/
theorem Chain.ne_of_role {s : Store ι α} {n b : ℕ} (h : Chain G s) (hn : n ≤ G.last)
    (hlive : reads G.popped n < 31) (hb : ∀ m, G.role b ≠ .active m) : b ≠ G.chain n := by
  rintro rfl
  exact hb n (h.role_chain hn hlive)

/-- A change to one live block does not concern the blocks outside the chain. -/
theorem Stock.setBlock_chain {s : Store ι α} {n : ℕ} {x : Block α} {G' : Ghost ι} (h : Stock G s)
    (hc : Chain G s) (hn : n ≤ G.last) (hlive : reads G.popped n < 31) (hrole : G'.role = G.role) :
    Stock G' (s.setBlock (G.chain n) x) := by
  refine h.congr (fun b ↦ by rw [hrole]) (fun b ↦ by rw [hrole]) (fun b p ↦ by rw [hrole])
    (fun b hb ↦ ?_) rfl rfl rfl rfl
  refine Function.update_of_ne (hc.ne_of_role hn hlive fun m hm ↦ ?_) _ _
  rcases hb with hb | ⟨p, hb⟩ <;> rw [hb] at hm <;> cases hm

/-- A change to one live block does not concern the blocks in other threads' hands. -/
theorem Keeps.setBlock_chain {s : Store ι α} {n : ℕ} {x : Block α} {G' : Ghost ι}
    {q : Option (Pc ι α)} (hc : Chain G s) (hn : n ≤ G.last) (hlive : reads G.popped n < 31)
    (hrole : G'.role = G.role) (hch : G'.chain = G.chain) (hl : G'.last = G.last)
    (hpushed : ∀ k, G.pushed k = .done → G'.pushed k = .done) :
    Keeps t q G G' s (s.setBlock (G.chain n) x) := by
  refine .of_memory (fun u b _ hb ↦ ⟨hrole ▸ hb, ?_⟩) hch hl hpushed rfl
    (List.prefix_refl _) rfl rfl
  refine Function.update_of_ne (hc.ne_of_role hn hlive fun m hm ↦ ?_) _ _
  rw [hb] at hm
  cases hm

/-- The block and the offset of a reserved slot. -/
theorem slot_offset {w : ℕ} (h : w / 2 % 32 ≠ 31) :
    number (w / 2) = 31 * (number (w / 2) / 31) + offset w := by
  rw [offset_eq, ← number_mod h, Nat.div_add_mod]

theorem offset_lt {w : ℕ} (h : w / 2 % 32 ≠ 31) : offset w < 31 := by
  rw [offset_eq]
  omega

/-! ### The reservation

The exchange on `tail.index` makes the slot the push's own. -/

variable [DecidableEq ι]

theorem Inv.push_reserve (h : Inv G c) (hE : Ends c) (hpc : c.pcs t = some (.push f .cas))
    (htail : c.shared.tail.index = f.tail) :
    ∃ G', Inv G' (c.put t ({ c.shared with
        tail := { c.shared.tail with index := f.tail + 2 }
        pushes := c.shared.pushes ++ [f.value] }, (.goto (.push f
          (if offset f.tail + 1 = blockCap - 1 then .poolHead else .write)) :
          Outcome (Pc ι α) (Ret α)))) := by
  obtain ⟨⟨heven, hoff⟩, -⟩ := hE.placed t _ hpc
  have hslot : f.slot = c.shared.pushes.length := by
    rw [← hE.tail_number, htail]
    rfl
  obtain ⟨hblock, hlast⟩ := h.chain.tail (by rw [htail]; exact hoff)
  have hfb : f.block = G.chain G.last := (h.knows t _ hpc htail.symm).trans hblock
  have hdiv : number (f.tail / 2) / 31 = f.tail / 2 / 32 := number_div hoff
  have hres : Reserved G { c.shared with
      tail := { c.shared.tail with index := f.tail + 2 }
      pushes := c.shared.pushes ++ [f.value] } f := by
    refine ⟨⟨?_, ?_⟩, ?_⟩
    · rw [hslot, hlast]
      exact hfb
    · rw [hslot, hlast]
    · rw [hslot]
      simp
  refine ⟨{ G with pushed := Function.update G.pushed c.shared.pushes.length (.held .reserved t) },
    h.put hE ?_ ?_ ?_ ?_ ?_ ?_⟩
  · refine h.ledger.reservePush hpc rfl rfl rfl rfl rfl ?_ ?_
    · rw [← hslot]
      split_ifs <;> rfl
    · split_ifs <;> rfl
  · refine h.chain.reservePush h.ledger.pushed_free rfl rfl rfl rfl rfl (by omega) fun hc ↦ ?_
    refine ⟨hblock, ?_⟩
    have hnum := number_div (w := f.tail / 2 + 1) (by dsimp only at hc; omega)
    rw [number_succ hoff] at hnum
    have : number (f.tail / 2) = c.shared.pushes.length := hslot
    simp only [List.length_append, List.length_singleton]
    rw [← this, hnum]
    omega
  · exact h.stock.congr (fun _ ↦ Iff.rfl) (fun _ ↦ Iff.rfl) (fun _ _ ↦ Iff.rfl) (fun _ _ ↦ rfl)
      rfl rfl rfl rfl
  · refine ⟨fun _ _ _ hb ↦ ⟨hb, rfl⟩, le_rfl, fun _ _ ↦ rfl, List.prefix_append _ _,
      List.prefix_refl _, fun k hk ↦ ?_, fun w hw _ he ↦ ?_, fun w _ _ he ↦ ⟨he, rfl⟩,
      fun _ ↦ ⟨rfl, rfl⟩, fun _ ↦ rfl⟩
    · have hne : k ≠ c.shared.pushes.length := by
        rintro rfl
        rw [(h.ledger.pushed_free _).2 le_rfl] at hk
        cases hk
      exact (Function.update_of_ne hne _ _).trans hk
    · dsimp only at he
      omega
  · rintro q ⟨⟩
    split_ifs
    · exact ⟨hres, by rw [hslot, hlast]⟩
    · exact hres
  · exact h.delivered_of_eq rfl (List.prefix_append _ _)

/-! ### The next block

A clean block from the pool or from the allocator is linked, and `tail` is moved into it. -/

theorem Inv.push_poolPop (h : Inv G c) (hE : Ends c) (hP : Pooled c) {p : AtomicBuffer.Pc ℕ}
    (hpc : c.pcs t = some (.push f (.poolPop p)))
    (he : execPush t ch c.shared f (.poolPop p) = some (s', o)) :
    ∃ G', Inv G' (c.put t (s', o)) := by
  obtain ⟨φ, hI⟩ := hP.inv
  obtain ⟨hpop, hfresh⟩ := hP.knows t _ hpc
  obtain ⟨hbase, htake⟩ := h.knows t _ hpc
  have hview : (c.view Store.freeList poolPc).pcs t = some p := by simp [hpc, poolPc]
  have hsame : ∀ {l : AtomicBuffer.Store ℕ} {pt : PushPoint}, l.head = c.shared.freeList.head →
      l.pushes = c.shared.freeList.pushes → pushClaim (.push f pt : Pc ι α) =
        some (f.slot, .reserved) →
      PushKnows G { c.shared with freeList := l } t f pt →
      ∃ G', Inv G' (c.put t ({ c.shared with freeList := l },
        (.goto (.push f pt) : Outcome (Pc ι α) (Ret α)))) := by
    intro l pt hh hp hq hk
    refine ⟨G, h.put_same hE (.of_pool hh hp) ?_ ?_ ?_⟩
    · rw [hpc]
      exact hq
    · rw [hpc]
      rfl
    · rintro _ ⟨⟩
      exact hk
  simp only [execPush] at he
  cases p with
  | popHead =>
    simp only [AtomicBuffer.exec] at he
    cases he
    exact hsame rfl rfl rfl ⟨hbase, trivial⟩
  | popSequence pos =>
    simp only [AtomicBuffer.exec] at he
    split_ifs at he
    all_goals cases he
    all_goals exact hsame rfl rfl rfl ⟨hbase, trivial⟩
  | popTail pos =>
    simp only [AtomicBuffer.exec] at he
    split_ifs at he
    · cases he
      exact hsame rfl rfl rfl hbase
    · cases he
      exact hsame rfl rfl rfl ⟨hbase, trivial⟩
  | popTake pos =>
    simp only [AtomicBuffer.exec] at he
    cases he
    exact hsame rfl rfl rfl ⟨hbase, htake⟩
  | popPublish pos x =>
    obtain ⟨b, hb, hclean⟩ := htake
    obtain ⟨-, hx⟩ := hI.knows t _ hview
    have hx' : x.map Prod.snd = some b := by
      rw [hx, AtomicBuffer.brought]
      simp only [Config.view_shared]
      rw [hb]
      rfl
    simp only [AtomicBuffer.exec, hx'] at he
    cases he
    exact hsame rfl rfl rfl ⟨hbase, hclean⟩
  | popCas pos =>
    obtain rfl : pos = c.shared.freeList.head := hfresh
    simp only [AtomicBuffer.exec] at he
    cases hw : casWeak ch (AtomicBuffer.word c.shared.freeList.head)
      (AtomicBuffer.word c.shared.freeList.head)
      (AtomicBuffer.word (c.shared.freeList.head + 1)) with
    | ok w =>
      -- the block at this position is now in the hands of the push
      simp only [hw] at he
      cases he
      have hfull := (hI.knows t _ hview).2 rfl
      have hlap := hI.agrees.in_lap (p := c.shared.freeList.head) (by rw [hfull]; simp)
        (by rw [hfull]; simp)
      have hlen : c.shared.freeList.pushes.length = c.shared.freeList.tail := hI.agrees.length
      obtain ⟨b, hb⟩ : ∃ b, c.shared.freeList.pushes[c.shared.freeList.head]? = some b :=
        ⟨_, List.getElem?_eq_getElem (hlen ▸ hlap.1)⟩
      have hrole := (h.stock.pooled_iff b _).2 ⟨le_rfl, hb⟩
      refine ⟨{ G with role := Function.update G.role b (.owned t) }, h.put hE ?_ ?_ ?_ ?_ ?_ ?_⟩
      · refine h.ledger.put_same rfl rfl rfl ?_ ?_
        all_goals
          rw [hpc]
          rfl
      · refine h.chain.congr rfl rfl rfl (fun a n ↦ role_update_iff ?_ ?_ a)
          (fun _ ↦ Or.inl rfl) rfl rfl
          h.chain.tail h.chain.head
        · rw [hrole]
          intro hc
          cases hc
        · intro hc
          cases hc
      · exact h.stock.takeOut hb rfl rfl rfl rfl rfl rfl
      · refine .of_memory (fun u a _ ha ↦ ⟨?_, rfl⟩) rfl rfl (fun _ hk ↦ hk) rfl
          (List.prefix_refl _) rfl rfl
        refine (Function.update_of_ne ?_ _ _).trans ha
        rintro rfl
        rw [hrole] at ha
        cases ha
      · rintro _ ⟨⟩
        refine ⟨hbase, b, hb, ?_, h.stock.clean b _ hrole⟩
        exact Function.update_self _ _ _
      · exact h.delivered_of_eq rfl (List.prefix_refl _)
    | error w =>
      simp only [hw] at he
      cases he
      exact hsame rfl rfl rfl ⟨hbase, trivial⟩
  | _ => exact absurd hpop id

theorem Inv.push_alloc (h : Inv G c) (hE : Ends c) (hpc : c.pcs t = some (.push f .alloc)) {b : ℕ}
    (hb : b ≠ 0) (hfree : c.shared.allocated b = false) :
    ∃ G', Inv G' (c.put t ({ c.shared.setBlock b .zeroed with
        allocated := Function.update c.shared.allocated b true },
        (.goto (.push f (.linkNext b)) : Outcome (Pc ι α) (Ret α)))) := by
  have hrole : G.role b = .unallocated := by
    by_contra hne
    rw [(h.stock.alloc_iff b).2 hne] at hfree
    cases hfree
  have hheap : ∀ a, G.role a ≠ .unallocated →
      (c.shared.setBlock b .zeroed).heap a = c.shared.heap a := by
    intro a ha
    refine Function.update_of_ne ?_ _ _
    rintro rfl
    exact ha hrole
  have hupd : ∀ a, G.role a ≠ .unallocated → Function.update G.role b (.owned t) a = G.role a := by
    intro a ha
    refine Function.update_of_ne ?_ _ _
    rintro rfl
    exact ha hrole
  refine ⟨{ G with role := Function.update G.role b (.owned t) }, h.put hE ?_ ?_ ?_ ?_ ?_ ?_⟩
  · refine h.ledger.put_same rfl rfl rfl ?_ ?_
    all_goals
      rw [hpc]
      rfl
  · refine h.chain.congr rfl rfl rfl (fun a n ↦ ?_) (fun a ↦ ?_) rfl rfl h.chain.tail h.chain.head
    · refine role_update_iff ?_ ?_ a
      · rw [hrole]
        intro hc
        cases hc
      · intro hc
        cases hc
    · by_cases hab : a = b
      · subst hab
        refine Or.inr ⟨by rw [hrole]; simp, fun i _ _ ↦ ?_⟩
        simp [Store.setBlock, Block.zeroed]
      · exact Or.inl (Function.update_of_ne hab _ _)
  · exact h.stock.alloc hb hfree
  · refine .of_memory (fun u a _ ha ↦ ⟨(hupd a (by rw [ha]; simp)).trans ha,
      hheap a (by rw [ha]; simp)⟩) rfl rfl (fun _ hk ↦ hk) rfl (List.prefix_refl _) rfl rfl
  · rintro _ ⟨⟩
    refine ⟨h.knows t _ hpc, Function.update_self _ _ _, ?_⟩
    simp only [Store.setBlock, Function.update_self]
    exact ⟨rfl, rfl, fun _ _ ↦ rfl, fun _ _ ↦ rfl⟩
  · exact h.delivered_of_eq rfl (List.prefix_refl _)

/-- **The block in hand becomes the next block of the chain.** -/
theorem Inv.push_linkNext (h : Inv G c) (hE : Ends c) {b : ℕ}
    (hpc : c.pcs t = some (.push f (.linkNext b))) :
    ∃ G', Inv G' (c.put t (c.shared.setNext f.block b,
        (.goto (.push f (.cachePtr b)) : Outcome (Pc ι α) (Ret α)))) := by
  obtain ⟨⟨hres, hlast⟩, hrole, hclean⟩ := h.knows t _ hpc
  obtain ⟨hidx, hthirty⟩ := hE.linking.opened t f.tail (by rw [hpc]; rfl)
  have hphase : G.pushed f.slot = .held .reserved t := h.ledger.pushed_eq hpc rfl
  have hlive : reads G.popped G.last < 31 := by
    rw [hlast]
    exact h.chain.live_of_pushing (by rw [hphase]; simp)
  have hfb : f.block = G.chain G.last := by
    rw [hlast]
    exact hres.1.1
  have hb : ∀ n, G.role b ≠ .active n := by
    intro n hn
    rw [hrole] at hn
    cases hn
  have hheap : ∀ a, (∀ n, G.role a ≠ .active n) →
      (c.shared.setNext (G.chain G.last) b).heap a = c.shared.heap a := fun a ha ↦
    Function.update_of_ne (h.chain.ne_of_role le_rfl hlive ha) _ _
  have hpu := h.chain.pushes_le
  have hpo := h.chain.pops_le
  rw [hfb]
  refine ⟨{ G with
      chain := Function.update G.chain (G.last + 1) b
      last := G.last + 1
      role := Function.update G.role b (.active (G.last + 1)) }, h.put hE ?_ ?_ ?_ ?_ ?_ ?_⟩
  · refine h.ledger.put_same rfl rfl rfl ?_ ?_
    all_goals
      rw [hpc]
      rfl
  · refine h.chain.link hlive hb hclean (fun k hk ↦ ?_) (fun k hk ↦ ?_) (by omega)
    · exact (h.ledger.pushed_free k).2 (by omega)
    · exact (h.ledger.popped_free k).2 (by omega)
  · refine h.stock.setRole (Or.inr ⟨t, hrole⟩) (Or.inl ⟨_, rfl⟩) rfl (fun a _ ha ↦ ?_) rfl rfl rfl
    refine hheap a fun n hn ↦ ?_
    rcases ha with ha | ⟨pos, ha⟩ <;> rw [ha] at hn <;> cases hn
  · refine ⟨fun u a hu ha ↦ ⟨owned_update hrole hu ha, hheap a fun n hn ↦ ?_⟩, Nat.le_succ _,
      fun n hn ↦ ?_, List.prefix_refl _, List.prefix_refl _, fun _ hk ↦ hk,
      fun _ _ _ he ↦ ⟨he, rfl⟩,
      fun _ _ _ he ↦ ⟨he, rfl⟩, fun hc ↦ ?_, fun _ ↦ rfl⟩
    · rw [ha] at hn
      cases hn
    · exact Function.update_of_ne (by omega) _ _
    · rw [hpc] at hc
      cases hc
  · rintro _ ⟨⟩
    refine ⟨⟨⟨⟨?_, ?_⟩, hres.2⟩, ?_⟩, Function.update_self _ _ _⟩
    · dsimp only
      rw [Function.update_of_ne (by omega)]
      exact hres.1.1
    · exact hres.1.2.trans (Nat.le_succ _)
    · dsimp only
      omega
  · exact h.delivered_of_eq rfl (List.prefix_refl _)

theorem Inv.push_linkBlock (h : Inv G c) (hE : Ends c) {b : ℕ}
    (hpc : c.pcs t = some (.push f (.linkBlock b))) :
    Inv G (c.put t ({ c.shared with tail := { c.shared.tail with block := b } },
        (.goto (.push f .linkIndex) : Outcome (Pc ι α) (Ret α)))) := by
  obtain ⟨hbase, hb⟩ := h.knows t _ hpc
  obtain ⟨hidx, hthirty⟩ := hE.linking.opened t f.tail (by rw [hpc]; rfl)
  refine h.put hE ?_ ?_ ?_ ?_ ?_ ?_
  · refine h.ledger.put_same rfl rfl rfl ?_ ?_
    all_goals
      rw [hpc]
      rfl
  · refine h.chain.congr rfl rfl rfl (fun _ _ ↦ Iff.rfl) (fun _ ↦ Or.inl rfl) rfl rfl (fun hc ↦ ?_)
      h.chain.head
    dsimp only at hc
    omega
  · exact h.stock.congr (fun _ ↦ Iff.rfl) (fun _ ↦ Iff.rfl) (fun _ _ ↦ Iff.rfl) (fun _ _ ↦ rfl)
      rfl rfl rfl rfl
  · refine ⟨fun _ _ _ hb ↦ ⟨hb, rfl⟩, le_rfl, fun _ _ ↦ rfl, List.prefix_refl _,
      List.prefix_refl _, fun _ hk ↦ hk, fun w _ hoff he ↦ ?_, fun _ _ _ he ↦ ⟨he, rfl⟩,
      fun hc ↦ ?_, fun _ ↦ rfl⟩
    · -- nobody has loaded an index at which a slot may be reserved and that is current
      dsimp only at he
      omega
    · rw [hpc] at hc
      cases hc
  · rintro _ ⟨⟩
    exact ⟨hbase, hb.symm⟩
  · exact h.delivered_of_eq rfl (List.prefix_refl _)

theorem Inv.push_linkIndex (h : Inv G c) (hE : Ends c) (hpc : c.pcs t = some (.push f .linkIndex)) :
    Inv G (c.put t ({ c.shared with tail := { c.shared.tail with index := f.tail + 2 + 2 } },
        (.goto (.push f .write) : Outcome (Pc ι α) (Ret α)))) := by
  obtain ⟨⟨hres, hlast⟩, hblock⟩ := h.knows t _ hpc
  obtain ⟨⟨heven, hoff⟩, -⟩ := hE.placed t _ hpc
  obtain ⟨hidx, hthirty⟩ := hE.linking.opened t f.tail (by rw [hpc]; rfl)
  have heven' := hE.tail_even
  have hnum : c.shared.pushes.length = f.slot + 1 := by
    rw [← hE.tail_number, hidx, number_succ hoff]
    rfl
  have hmod : f.slot % 31 = 30 := by
    rw [PushFrame.slot, number_mod hoff]
    exact hthirty
  refine h.put hE ?_ ?_ ?_ ?_ ?_ ?_
  · refine h.ledger.put_same rfl rfl rfl ?_ ?_
    all_goals
      rw [hpc]
      rfl
  · refine h.chain.congr rfl rfl rfl (fun _ _ ↦ Iff.rfl) (fun _ ↦ Or.inl rfl) rfl rfl (fun _ ↦ ?_)
      h.chain.head
    exact ⟨hblock, by omega⟩
  · exact h.stock.congr (fun _ ↦ Iff.rfl) (fun _ ↦ Iff.rfl) (fun _ _ ↦ Iff.rfl) (fun _ _ ↦ rfl)
      rfl rfl rfl rfl
  · refine ⟨fun _ _ _ hb ↦ ⟨hb, rfl⟩, le_rfl, fun _ _ ↦ rfl, List.prefix_refl _,
      List.prefix_refl _, fun _ hk ↦ hk, fun w hw _ he ↦ ?_, fun _ _ _ he ↦ ⟨he, rfl⟩,
      fun _ ↦ ⟨rfl, rfl⟩, fun _ ↦ rfl⟩
    dsimp only at he
    omega
  · rintro _ ⟨⟩
    exact hres
  · exact h.delivered_of_eq rfl (List.prefix_refl _)

/-! ### The value

It is written first and published afterwards. -/

omit [DecidableEq ι] in
/-- Before its value is published a slot is not taken. -/
theorem Chain.popped_of_pushing {s : Store ι α} {k : ℕ} (h : Chain G s) (hk : G.pushed k ≠ .done) :
    G.popped k = .free ∨ ∃ u, G.popped k = .held .reserved u := by
  have hnot : (G.popped k).taken = false := by
    by_contra hc
    exact hk (h.taken k (by simpa using hc))
  cases hp : G.popped k with
  | free => exact Or.inl rfl
  | held st u => cases st <;> simp_all [Phase.taken]
  | done => simp [hp, Phase.taken] at hnot

theorem Inv.push_write (h : Inv G c) (hE : Ends c) (hpc : c.pcs t = some (.push f .write)) :
    ∃ G', Inv G' (c.put t (c.shared.setValue f.block (offset f.tail)
        (some (number (f.tail / 2), f.value)),
        (.goto (.push f .publish) : Outcome (Pc ι α) (Ret α)))) := by
  have hres : Reserved G c.shared f := h.knows t _ hpc
  obtain ⟨⟨heven, hoff⟩, -⟩ := hE.placed t _ hpc
  have hphase : G.pushed f.slot = .held .reserved t := h.ledger.pushed_eq hpc rfl
  have hnot : G.pushed f.slot ≠ .done := by
    rw [hphase]
    simp
  have hlive := h.chain.live_of_pushing hnot
  have hpop := h.chain.popped_of_pushing hnot
  have hshow := h.chain.shows _ hres.1.2 hlive
  have hk : f.slot = 31 * (f.slot / 31) + offset f.tail := slot_offset hoff
  have hi := offset_lt hoff
  rw [hres.1.1]
  refine ⟨{ G with pushed := Function.update G.pushed f.slot (.held .written t) },
    h.put hE ?_ ?_ ?_ ?_ ?_ ?_⟩
  · refine h.ledger.movePush .reserved hpc rfl (by simp) (by rintro _ _ ⟨⟩; rfl) rfl rfl rfl
      ?_ rfl
    intro k' st
    simp only [Outcome.pc_goto, Option.bind_some, pushClaim, Option.some.injEq, Prod.mk.injEq,
      Phase.held.injEq, and_true]
    exact ⟨fun hc ↦ ⟨hc.1.symm, hc.2⟩, fun hc ↦ ⟨hc.1.symm, hc.2⟩⟩
  · refine h.chain.setSlot hres.1.2 hlive hi hk rfl rfl rfl
      (fun k' hk' ↦ Function.update_of_ne hk' _ _) (fun _ _ ↦ rfl) rfl ?_ ?_ ?_ ?_ rfl rfl
    · intro hc
      dsimp only at hc
      rcases hpop with hp | ⟨u, hp⟩ <;> rw [hp] at hc <;> cases hc
    · dsimp only
      rw [hshow.state _ hi, ← hk, Function.update_self, hphase]
      rcases hpop with hp | ⟨u, hp⟩ <;> rw [hp] <;> rfl
    · dsimp only
      rw [Function.update_self, Function.update_self, brought, hres.2]
      rcases hpop with hp | ⟨u, hp⟩ <;> rw [hp] <;> rfl
    · intro j hj
      exact ⟨rfl, Function.update_of_ne hj _ _⟩
  · exact h.stock.setBlock_chain h.chain hres.1.2 hlive rfl
  · refine .setBlock_chain h.chain hres.1.2 hlive rfl rfl rfl fun k hd ↦ ?_
    refine (Function.update_of_ne ?_ _ _).trans hd
    rintro rfl
    exact hnot hd
  · rintro _ ⟨⟩
    exact ⟨hres.1, hres.2⟩
  · exact h.delivered_of_eq rfl (List.prefix_refl _)

theorem Inv.push_publish (h : Inv G c) (hE : Ends c) (hpc : c.pcs t = some (.push f .publish)) :
    ∃ G', Inv G' (c.put t (c.shared.setState f.block (offset f.tail) AtomicVec.write,
        (.goto (.pushUnpin (Coord.dropPc f.lane)) : Outcome (Pc ι α) (Ret α)))) := by
  have hres : Reserved G c.shared f := h.knows t _ hpc
  obtain ⟨⟨heven, hoff⟩, -⟩ := hE.placed t _ hpc
  have hphase : G.pushed f.slot = .held .written t := h.ledger.pushed_eq hpc rfl
  have hnot : G.pushed f.slot ≠ .done := by
    rw [hphase]
    simp
  have hlive := h.chain.live_of_pushing hnot
  have hpop := h.chain.popped_of_pushing hnot
  have hshow := h.chain.shows _ hres.1.2 hlive
  have hk : f.slot = 31 * (f.slot / 31) + offset f.tail := slot_offset hoff
  have hi := offset_lt hoff
  rw [hres.1.1]
  refine ⟨{ G with pushed := Function.update G.pushed f.slot .done }, h.put hE ?_ ?_ ?_ ?_ ?_ ?_⟩
  · refine h.ledger.movePush .written hpc rfl (by simp) (by rintro _ _ ⟨⟩) rfl rfl rfl ?_ rfl
    intro k' st
    simp [pushClaim]
  · refine h.chain.setSlot hres.1.2 hlive hi hk rfl rfl rfl
      (fun k' hk' ↦ Function.update_of_ne hk' _ _) (fun _ _ ↦ rfl) rfl ?_ ?_ ?_ ?_ rfl rfl
    · intro _
      exact Function.update_self _ _ _
    · dsimp only
      rw [Function.update_self, Function.update_self]
      rcases hpop with hp | ⟨u, hp⟩ <;> rw [hp] <;> rfl
    · dsimp only
      rw [hshow.value _ hi, ← hk, Function.update_self, hphase]
      rcases hpop with hp | ⟨u, hp⟩ <;> rw [hp] <;> rfl
    · intro j hj
      exact ⟨Function.update_of_ne hj _ _, rfl⟩
  · exact h.stock.setBlock_chain h.chain hres.1.2 hlive rfl
  · refine .setBlock_chain h.chain hres.1.2 hlive rfl rfl rfl fun k hd ↦ ?_
    dsimp only
    by_cases hkk : k = f.slot
    · rw [hkk, Function.update_self]
    · rwa [Function.update_of_ne hkk]
  · rintro _ ⟨⟩
    trivial
  · exact h.delivered_of_eq rfl (List.prefix_refl _)

/-! ### All accesses -/

theorem execPush_inv (h : Inv G c) (hE : Ends c) (hP : Pooled c) {pt : PushPoint}
    (hpc : c.pcs t = some (.push f pt)) (he : execPush t ch c.shared f pt = some (s', o)) :
    ∃ G', Inv G' (c.put t (s', o)) := by
  have hk : PushKnows G c.shared t f pt := h.knows t _ hpc
  have hsame : ∀ {s' : Store ι α} {pt' : PushPoint}, SameMemory c.shared s' →
      pushClaim (.push f pt' : Pc ι α) = pushClaim (.push f pt : Pc ι α) →
      PushKnows G s' t f pt' →
      ∃ G', Inv G' (c.put t (s', (.goto (.push f pt') : Outcome (Pc ι α) (Ret α)))) := by
    intro s' pt' hs hq hk'
    refine ⟨G, h.put_same hE hs ?_ ?_ ?_⟩
    · rw [hpc]
      exact hq
    · rw [hpc]
      rfl
    · rintro _ ⟨⟩
      exact hk'
  cases pt with
  | cas =>
    simp only [execPush] at he
    split at he
    · rename_i w hw
      obtain ⟨htail, rfl⟩ := casWeak_eq_ok hw
      cases he
      exact h.push_reserve hE hpc htail
    · cases he
      refine ⟨G, h.put_same hE (.refl _) ?_ ?_ ?_⟩
      · rw [hpc]
        rfl
      · rw [hpc]
        rfl
      · rintro _ ⟨⟩
        trivial
  | poolHead =>
    cases he
    exact hsame (.refl _) rfl hk
  | poolTail head =>
    simp only [execPush] at he
    split_ifs at he
    · cases he
      exact hsame (.refl _) rfl hk
    · cases he
      refine hsame (.refl _) rfl ⟨hk, ?_⟩
      unfold AtomicBuffer.popPc
      split_ifs <;> trivial
  | poolPop p => exact h.push_poolPop hE hP hpc he
  | alloc =>
    simp only [execPush] at he
    split at he
    · split_ifs at he with hb
      cases he
      exact h.push_alloc hE hpc hb.1 hb.2
    · cases he
  | linkNext b =>
    cases he
    exact h.push_linkNext hE hpc
  | cachePtr b | cacheTag b =>
    cases he
    exact hsame ⟨rfl, rfl, rfl, rfl, rfl, rfl, rfl, rfl, rfl, rfl⟩ rfl hk
  | linkBlock b =>
    cases he
    exact ⟨G, h.push_linkBlock hE hpc⟩
  | linkIndex =>
    cases he
    exact ⟨G, h.push_linkIndex hE hpc⟩
  | write =>
    cases he
    exact h.push_write hE hpc
  | publish =>
    cases he
    exact h.push_publish hE hpc

end AtomicVec

end Crossync
