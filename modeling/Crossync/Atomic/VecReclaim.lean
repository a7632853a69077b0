import Crossync.Atomic.VecPop

/-!
# Reclamation keeps the invariant, and so does every run

`reclaim_retired` takes the retired list into the hands of its thread, and each block of the list
goes from there to the pool, reset, or back to the allocator. The last part collects all accesses
(`exec_inv`) and all runs (`reach_inv`).

## Why the section is exclusive

The blocks on the retired list are spent, but a pinned thread may still have the address of one. The
reclaiming thread takes the list as a whole, and resets or frees its blocks in the exclusive
section. Outside of it, blocks are only added to the list.
-/

open Interleave

namespace Crossync

namespace AtomicVec

variable {ι α : Type*} [DecidableEq ι] {ids : Coord.ThreadIds ι} {adaptive : ℕ} {G : Ghost ι}
  {c : Config ι (Store ι α) (Pc ι α)} {t : ι} {ch : Choice ι} {s' : Store ι α} {p : Pc ι α}
  {o : Outcome (Pc ι α) (Ret α)} {r : Ret α}

/-! ### Returning

Dropping the pin or the exclusive guard is the last access of a call. -/

/-- The slot whose value a call is about to return. -/
def resultClaim : Ret α → Option (ℕ × PopStage)
  | .popped (some (k, _)) => some (k, .counted)
  | _ => none

omit [DecidableEq ι] in
theorem popClaim_reclaim (pt : ReclaimPoint ι) :
    popClaim (.reclaim r pt : Pc ι α) = resultClaim r := by
  cases r with
  | popped res =>
    cases res with
    | none => rfl
    | some e => rfl
  | _ => rfl

omit [DecidableEq ι] in
theorem popClaim_popUnpin (res : Result α) (b : Bool) (q : Coord.Pc ι) :
    popClaim (.popUnpin res b q : Pc ι α) = resultClaim (.popped res) := by
  cases res with
  | none => rfl
  | some e => rfl

/-- **A call returns**, and if it is a pop with a value, its slot is done. -/
theorem Inv.finish (h : Inv G c) (hE : Ends c) (hpc : c.pcs t = some p) {s₁ : Store ι α}
    (hs : SameMemory c.shared s₁) (hp : pushClaim p = none) (hp' : popClaim p = resultClaim r)
    (hbr : ∀ k x, r = .popped (some (k, x)) → Brings c.shared k x)
    (hf : AtomicVec.finish s₁ r = (s', o)) : ∃ G', Inv G' (c.put t (s', o)) := by
  have hsame : o.pc = none → SameMemory c.shared s' → resultClaim r = none →
      ∃ G', Inv G' (c.put t (s', o)) := by
    intro ho hs' hr
    refine ⟨G, h.put_same hE hs' ?_ ?_ ?_⟩
    · rw [ho, hpc]
      exact hp.symm
    · rw [ho, hpc]
      exact hr.symm.trans hp'.symm
    · rw [ho]
      simp
  unfold AtomicVec.finish at hf
  split at hf
  · rename_i e
    obtain ⟨k, x⟩ := e
    cases hf
    have hphase : G.popped k = .held .counted t := h.ledger.popped_eq hpc hp'
    have hupd : ∀ k', Function.update G.popped k .done k' = G.popped k' ∨
        Function.update G.popped k .done k' = .done ∧ G.popped k' = .held .counted t := by
      intro k'
      by_cases hk : k' = k
      · subst hk
        exact Or.inr ⟨Function.update_self _ _ _, hphase⟩
      · exact Or.inl (Function.update_of_ne hk _ _)
    refine ⟨{ G with popped := Function.update G.popped k .done }, h.put hE ?_ ?_ ?_ ?_ ?_ ?_⟩
    · refine h.ledger.finishPop (x := x) hpc hp' ?_ ?_ ?_ hp
      · exact hs.pushes
      · exact hs.pops
      · exact congrArg (· ++ [(k, x)]) hs.returned
    · refine h.chain.frame rfl rfl (fun _ _ ↦ Iff.rfl) (fun _ ↦ Or.inl (by rw [← hs.heap])) ?_
        ?_ ?_ ?_ ?_
        ?_ ?_ ?_
      · intro k'
        dsimp only
        rcases hupd k' with he | ⟨he, he'⟩
        · rw [he]
        · rw [he, he']
          rfl
      · intro k'
        dsimp only
        rcases hupd k' with he | ⟨he, he'⟩
        · rw [he]
        · rw [he, he']
          cases G.pushed k' with
          | held st u => cases st <;> rfl
          | _ => rfl
      · intro k'
        dsimp only [brought]
        rw [hs.pushes]
        rcases hupd k' with he | ⟨he, he'⟩
        · rw [he]
        · rw [he, he']
          cases G.pushed k' with
          | held st u => cases st <;> rfl
          | _ => rfl
      · intro k' hk'
        dsimp only at hk' ⊢
        refine h.chain.taken k' ?_
        rcases hupd k' with he | ⟨-, he'⟩
        · rwa [he] at hk'
        · rw [he']
          rfl
      · exact hs.pushes ▸ h.chain.pushes_le
      · exact hs.pops ▸ h.chain.pops_le
      · dsimp only
        rw [hs.tail, hs.pushes]
        exact h.chain.tail
      · dsimp only
        rw [hs.head, hs.pops]
        exact h.chain.head
    · exact h.stock.congr (fun _ ↦ Iff.rfl) (fun _ ↦ Iff.rfl) (fun _ _ ↦ Iff.rfl)
        (fun _ _ ↦ by rw [← hs.heap]) hs.allocated hs.retired hs.poolHead hs.poolPushes
    · exact .of_memory (fun _ _ _ hb ↦ ⟨hb, by rw [← hs.heap]⟩) rfl rfl (fun _ hd ↦ hd) hs.pushes
        (by rw [← hs.poolPushes]) hs.tail hs.head
    · simp
    · intro k' y hy
      rw [List.mem_append, List.mem_singleton, hs.returned] at hy
      refine Brings.mono ?_ (s := c.shared) (by rw [← hs.pushes])
      rcases hy with hy | hy
      · exact h.delivered k' y hy
      · cases hy
        exact hbr k x rfl
  · cases hf
    rename_i hne
    refine hsame rfl hs ?_
    cases r with
    | popped res =>
      cases res with
      | none => rfl
      | some e => exact absurd rfl (hne e)
    | _ => rfl

/-! ### The retired list is taken

One exchange gives the whole list to the thread in the section. -/

omit [DecidableEq ι] in
/-- A list in hand, whatever block it is known not to contain. -/
theorem Hoard.of_ne {s : Store ι α} {b first : ℕ} (h : Hoard G s t b first)
    (hnull : G.role 0 = .unallocated) :
    Hoard G s t 0 first := by
  obtain ⟨l, hl, -, hall⟩ := h
  refine ⟨l, hl, fun h0 ↦ ?_, hall⟩
  have := (hall 0 h0).1
  rw [hnull] at this
  cases this

omit [DecidableEq ι] in
/-- A change to the role or the content of a block that is not in the list. -/
theorem Hoard.frame {G' : Ghost ι} {s s' : Store ι α} {b first : ℕ} (h : Hoard G s t b first)
    (hrole : ∀ x, x ≠ b → G.role x = .owned t → G'.role x = .owned t)
    (hheap : ∀ x, x ≠ b → s'.heap x = s.heap x) : Hoard G' s' t b first := by
  obtain ⟨l, hl, hnot, hall⟩ := h
  have hne : ∀ x ∈ l, x ≠ b := by
    rintro x hx rfl
    exact hnot hx
  refine ⟨l, hl.congr fun x hx ↦ by rw [hheap x (hne x hx)], hnot, fun x hx ↦ ?_⟩
  refine ⟨hrole x (hne x hx) (hall x hx).1, ?_⟩
  rw [hheap x (hne x hx)]
  exact (hall x hx).2

omit [DecidableEq ι] in
/-- What the head of the loop needs to know. -/
theorem knows_reclaimLoop {s : Store ι α} {first : ℕ}
    (hbr : ∀ k x, r = .popped (some (k, x)) → Brings s k x) (h : Hoard G s t 0 first) :
    Knows G s t (reclaimLoop t r first) := by
  unfold reclaimLoop
  split_ifs with hz
  · exact ⟨hbr, trivial⟩
  · exact ⟨hbr, hz, h⟩

omit [DecidableEq ι] in
theorem popClaim_reclaimLoop (first : ℕ) :
    popClaim (reclaimLoop t r first : Pc ι α) = resultClaim r := by
  unfold reclaimLoop
  split_ifs <;> exact popClaim_reclaim _

omit [DecidableEq ι] in
theorem pushClaim_reclaimLoop (first : ℕ) : pushClaim (reclaimLoop t r first : Pc ι α) = none := by
  unfold reclaimLoop
  split_ifs <;> rfl

theorem Inv.reclaim_swap (h : Inv G c) (hE : Ends c) (hpc : c.pcs t = some (.reclaim r .swap)) :
    ∃ G', Inv G' (c.put t ({ c.shared with retired := 0 },
        (.goto (.reclaim r (.zero c.shared.retired)) : Outcome (Pc ι α) (Ret α)))) := by
  obtain ⟨hbr, -⟩ := h.knows t _ hpc
  refine ⟨{ G with role := Stock.takeRetired G.role t }, h.put hE ?_ ?_ ?_ ?_ ?_ ?_⟩
  · refine h.ledger.put_same rfl rfl rfl ?_ ?_
    · rw [hpc]
      rfl
    · rw [hpc]
      exact (popClaim_reclaim _).trans (popClaim_reclaim _).symm
  · exact h.chain.congr rfl rfl rfl (fun _ _ ↦ Stock.takeRetired_eq_iff (by simp) (by simp))
      (fun _ ↦ Or.inl rfl) rfl rfl h.chain.tail h.chain.head
  · exact h.stock.swap
  · refine .of_memory (fun u b _ hb ↦ ⟨?_, rfl⟩) rfl rfl (fun _ hd ↦ hd) rfl (List.prefix_refl _)
      rfl rfl
    exact (Stock.takeRetired_of_ne (by rw [hb]; simp)).trans hb
  · rintro _ ⟨⟩
    refine ⟨hbr, ?_⟩
    obtain ⟨l, hl, hmem⟩ := h.stock.retired
    refine ⟨l, hl, fun h0 ↦ ?_, fun x hx ↦ ⟨?_, h.stock.spent x ((hmem x).2 hx)⟩⟩
    · have := (hmem 0).2 h0
      rw [h.stock.null] at this
      cases this
    · show Stock.takeRetired G.role t x = _
      unfold Stock.takeRetired
      rw [(hmem x).2 hx]
  · exact h.delivered_of_eq rfl (List.prefix_refl _)

/-! ### One block

It is reset slot by slot and put into the pool, or freed when the pool is full. -/

/-- **A block is freed**: it is spent, and in the hands of this thread only. -/
theorem Inv.reclaim_free (h : Inv G c) (hE : Ends c) {b next : ℕ}
    (hpc : c.pcs t = some (.reclaim r (.free b next))) :
    ∃ G', Inv G'
      (c.put t ({ c.shared with allocated := Function.update c.shared.allocated b false },
        (.goto (reclaimLoop t r next) : Outcome (Pc ι α) (Ret α)))) := by
  obtain ⟨hbr, ⟨hrole, -⟩, hrest⟩ := h.knows t _ hpc
  refine ⟨{ G with role := Function.update G.role b .unallocated }, h.put hE ?_ ?_ ?_ ?_ ?_ ?_⟩
  · refine h.ledger.put_same rfl rfl rfl ?_ ?_
    · rw [hpc]
      exact pushClaim_reclaimLoop next
    · rw [hpc]
      exact (popClaim_reclaimLoop next).trans (popClaim_reclaim _).symm
  · refine h.chain.congr rfl rfl rfl (fun a n ↦ role_update_iff ?_ ?_ a)
      (fun _ ↦ Or.inl rfl) rfl rfl
      h.chain.tail h.chain.head
    · rw [hrole]
      intro hc
      cases hc
    · intro hc
      cases hc
  · exact h.stock.free hrole
  · exact .of_memory (fun u a hu ha ↦ ⟨owned_update hrole hu ha, rfl⟩) rfl rfl (fun _ hd ↦ hd) rfl
      (List.prefix_refl _) rfl rfl
  · rintro _ ⟨⟩
    refine knows_reclaimLoop hbr
      (Hoard.of_ne (b := b) (hrest.frame (fun x hx hr ↦ ?_) fun _ _ ↦ rfl) ?_)
    · exact (Function.update_of_ne hx _ _).trans hr
    · show Function.update G.role b .unallocated 0 = _
      by_cases hb0 : b = 0
      · rw [hb0, Function.update_self]
      · rw [Function.update_of_ne (Ne.symm hb0)]
        exact h.stock.null
  · exact h.delivered_of_eq rfl (List.prefix_refl _)

/-- A store of `reset` into a block in hand. -/
theorem Inv.reclaim_reset (h : Inv G c) (hE : Ends c) {b next : ℕ} {x : Block α}
    {pt pt' : ReclaimPoint ι} (hpc : c.pcs t = some (.reclaim r pt)) (hrole : G.role b = .owned t)
    (hx : x.value = (c.shared.heap b).value) (hrest : Hoard G c.shared t b next)
    (hk : Hoard G (c.shared.setBlock b x) t b next → ReclaimKnows G (c.shared.setBlock b x) t pt') :
    Inv G (c.put t (c.shared.setBlock b x,
        (.goto (.reclaim r pt') : Outcome (Pc ι α) (Ret α)))) := by
  refine h.put_owned hE hrole hx ?_ ?_ ?_
  · rw [hpc]
    rfl
  · rw [hpc]
    exact (popClaim_reclaim _).trans (popClaim_reclaim _).symm
  · rintro _ ⟨⟩
    refine ⟨(h.knows t _ hpc).1, hk (hrest.frame (fun _ _ hr ↦ hr) fun a ha ↦ ?_)⟩
    exact Function.update_of_ne ha _ _

/-- After the last slot has been reset the block is clean. -/
theorem Resetting.clean {x : Block α} {i : ℕ} (h : Resetting i x) (hi : 31 ≤ i) : Clean x :=
  ⟨h.next, h.counters, fun j hj ↦ h.reset j (by omega), h.value⟩

theorem Resetting.succ {x : Block α} {i : ℕ} (h : Resetting i x) :
    Resetting (i + 1) { x with state := Function.update x.state i 0 } := by
  refine ⟨h.next, h.counters, h.value, fun j hj ↦ ?_, fun j hj hij ↦ ?_⟩
  · dsimp only
    by_cases hji : j = i
    · rw [hji, Function.update_self]
    · rw [Function.update_of_ne hji]
      exact h.reset j (by omega)
  · dsimp only
    rw [Function.update_of_ne (by omega)]
    exact h.still j hj (by omega)

variable [Fintype ι]

/-- **A clean block is put into the pool.** -/
theorem Inv.reclaim_poolPush (h : Inv G c) (hC : Coordinated ids adaptive c) (hE : Ends c)
    (hP : Pooled c) {b next : ℕ} {p : AtomicBuffer.Pc ℕ}
    (hpc : c.pcs t = some (.reclaim r (.poolPush b next p)))
    (he : execReclaim ids adaptive t ch c.shared r (.poolPush b next p) = some (s', o)) :
    ∃ G', Inv G' (c.put t (s', o)) := by
  obtain ⟨φ, hI⟩ := hP.inv
  obtain ⟨hpush, hfresh⟩ := hP.knows t _ hpc
  obtain ⟨hbr, hclean, hrest⟩ := h.knows t _ hpc
  have hacc := fun l o' ↦ hP.poolPush_accepted hC hE hpc ch l o'
  have hsame : ∀ {l : AtomicBuffer.Store ℕ} {p' : AtomicBuffer.Pc ℕ},
      l.head = c.shared.freeList.head → l.pushes = c.shared.freeList.pushes →
      (Offering p' → Offering p) →
      ∃ G', Inv G' (c.put t ({ c.shared with freeList := l },
        (.goto (.reclaim r (.poolPush b next p')) : Outcome (Pc ι α) (Ret α)))) := by
    intro l p' hh hp hoff
    refine ⟨G, h.put_same hE (.of_pool hh hp) ?_ ?_ ?_⟩
    · rw [hpc]
      rfl
    · rw [hpc]
      exact (popClaim_reclaim _).trans (popClaim_reclaim _).symm
    · rintro _ ⟨⟩
      exact ⟨hbr, fun hp' ↦ hclean (hoff hp'), hrest⟩
  simp only [execReclaim] at he
  cases p with
  | pushTail v =>
    simp only [AtomicBuffer.exec] at he
    cases he
    exact hsame rfl rfl fun _ ↦ trivial
  | pushSequence v pos =>
    split at he
    · cases he
    · rename_i l p' hx
      cases he
      obtain ⟨_, ⟨⟩, -⟩ | ⟨⟨⟩⟩ := hacc _ _ hx
      simp only [AtomicBuffer.exec] at hx
      split_ifs at hx
      all_goals cases hx
      all_goals exact hsame rfl rfl fun _ ↦ trivial
    · rename_i l hx
      simp only [AtomicBuffer.exec] at hx
      split_ifs at hx
      all_goals cases hx
    · rename_i l e hne hx
      obtain ⟨_, ⟨⟩, -⟩ | ⟨⟨⟩⟩ := hacc _ _ hx
      exact absurd rfl hne
  | pushCas v pos =>
    obtain rfl : v = b := hpush
    obtain ⟨rfl, hroom⟩ := hfresh
    simp only [AtomicBuffer.exec] at he
    cases hw : casWeak ch (AtomicBuffer.word c.shared.freeList.tail)
      (AtomicBuffer.word c.shared.freeList.tail)
      (AtomicBuffer.word (c.shared.freeList.tail + 1)) with
    | error w =>
      simp only [hw] at he
      cases he
      exact hsame rfl rfl fun _ ↦ trivial
    | ok w =>
      simp only [hw] at he
      cases he
      obtain ⟨hrole, hcl⟩ := hclean trivial
      have hlen : c.shared.freeList.pushes.length = c.shared.freeList.tail := hI.agrees.length
      have hle : c.shared.freeList.head ≤ c.shared.freeList.pushes.length := by
        rw [hlen]
        exact hI.agrees.head_le
      refine ⟨{ G with role := Function.update G.role v (.pooled c.shared.freeList.pushes.length) },
        h.put hE ?_ ?_ ?_ ?_ ?_ ?_⟩
      · refine h.ledger.put_same rfl rfl rfl ?_ ?_
        · rw [hpc]
          rfl
        · rw [hpc]
          exact (popClaim_reclaim _).trans (popClaim_reclaim _).symm
      · refine h.chain.congr rfl rfl rfl (fun a n ↦ role_update_iff ?_ ?_ a)
          (fun _ ↦ Or.inl rfl) rfl rfl
          h.chain.tail h.chain.head
        · rw [hrole]
          intro hc
          cases hc
        · intro hc
          cases hc
      · exact h.stock.putIn hrole hcl hle rfl rfl rfl rfl rfl rfl
      · exact .of_memory (fun u a hu ha ↦ ⟨owned_update hrole hu ha, rfl⟩) rfl rfl
          (fun _ hd ↦ hd) rfl
          (List.prefix_append _ _) rfl rfl
      · rintro _ ⟨⟩
        refine ⟨hbr, fun hc ↦ hc.elim, hrest.frame (fun x hx hr ↦ ?_) fun _ _ ↦ rfl⟩
        exact (Function.update_of_ne hx _ _).trans hr
      · exact h.delivered_of_eq rfl (List.prefix_refl _)
  | pushStore v pos =>
    simp only [AtomicBuffer.exec] at he
    cases he
    exact hsame rfl rfl fun hc ↦ hc.elim
  | pushPublish pos =>
    simp only [AtomicBuffer.exec] at he
    cases he
    refine ⟨G, h.put_same hE (.of_pool rfl rfl) ?_ ?_ ?_⟩
    · rw [hpc]
      exact pushClaim_reclaimLoop next
    · rw [hpc]
      exact (popClaim_reclaimLoop next).trans (popClaim_reclaim _).symm
    · rintro _ ⟨⟩
      exact knows_reclaimLoop hbr (Hoard.of_ne (b := b) hrest h.stock.null)
  | _ => exact absurd hpush id

/-! ### All accesses

The induction over runs, with every access of the queue. -/

theorem execReclaim_inv (h : Inv G c) (hC : Coordinated ids adaptive c) (hE : Ends c)
    (hP : Pooled c) {pt : ReclaimPoint ι} (hpc : c.pcs t = some (.reclaim r pt))
    (he : execReclaim ids adaptive t ch c.shared r pt = some (s', o)) :
    ∃ G', Inv G' (c.put t (s', o)) := by
  obtain ⟨hbr, hk⟩ := h.knows t _ hpc
  have hsame : ∀ {s' : Store ι α} {pt' : ReclaimPoint ι}, SameMemory c.shared s' →
      (∀ k x, r = .popped (some (k, x)) → Brings s' k x) → ReclaimKnows G s' t pt' →
      ∃ G', Inv G' (c.put t (s', (.goto (.reclaim r pt') : Outcome (Pc ι α) (Ret α)))) := by
    intro s' pt' hs hbr' hk'
    refine ⟨G, h.put_same hE hs ?_ ?_ ?_⟩
    · rw [hpc]
      rfl
    · rw [hpc]
      exact (popClaim_reclaim _).trans (popClaim_reclaim _).symm
    · rintro _ ⟨⟩
      exact ⟨hbr', hk'⟩
  cases pt with
  | count =>
    simp only [execReclaim] at he
    split_ifs at he
    · exact h.finish hE hpc (.refl _) rfl (popClaim_reclaim _) hbr (Option.some.inj he)
    · cases he
      exact hsame (.refl _) hbr trivial
    · cases he
      exact hsame (.refl _) hbr trivial
  | enter q =>
    simp only [execReclaim] at he
    obtain ⟨l, ⟨q', -, rfl, rfl⟩ | ⟨e, hq, hdone⟩⟩ := coordStep_cases he
    · exact hsame (.of_coord l) hbr trivial
    · -- the value in hand is not lost: the coordination does not panic here
      rcases hC.enter_not_panicked hpc hq with rfl | rfl
      · cases hdone
        exact hsame (.of_coord l) hbr trivial
      · exact h.finish hE hpc (.of_coord l) rfl
          (popClaim_reclaim _) hbr hdone.symm
  | swap =>
    cases he
    exact h.reclaim_swap hE hpc
  | zero b =>
    cases he
    refine ⟨G, h.put_same hE ⟨rfl, rfl, rfl, rfl, rfl, rfl, rfl, rfl, rfl, rfl⟩ ?_ ?_ ?_⟩
    · rw [hpc]
      exact pushClaim_reclaimLoop b
    · rw [hpc]
      exact (popClaim_reclaimLoop b).trans (popClaim_reclaim _).symm
    · rintro _ ⟨⟩
      exact knows_reclaimLoop hbr hk
  | loadNext b =>
    cases he
    obtain ⟨hb, l, hl, -, hall⟩ := hk
    obtain ⟨l', rfl, hnot, hl'⟩ := hl.cases hb
    exact hsame (.refl _) hbr ⟨hall b (by simp), l', hl', hnot, fun x hx ↦ hall x (by simp [hx])⟩
  | poolHead b next =>
    cases he
    exact hsame (.refl _) hbr hk
  | poolTail b next head =>
    simp only [execReclaim] at he
    split_ifs at he
    all_goals cases he
    all_goals exact hsame (.refl _) hbr hk
  | free b next =>
    cases he
    exact h.reclaim_free hE hpc
  | resetNext b next =>
    cases he
    obtain ⟨⟨hrole, hspent⟩, hrest⟩ := hk
    refine ⟨G, h.reclaim_reset hE hpc hrole rfl hrest fun hh ↦ ⟨⟨⟨hrole, ?_⟩, ?_⟩, hh⟩⟩
    · simp only [Store.setBlock, Function.update_self]
      exact ⟨hspent.state, hspent.value⟩
    · simp [Store.setBlock]
  | resetCount b next =>
    cases he
    obtain ⟨⟨⟨hrole, hspent⟩, hnext⟩, hrest⟩ := hk
    refine ⟨G, h.reclaim_reset hE hpc hrole rfl hrest fun hh ↦ ⟨⟨hrole, ?_⟩, hh⟩⟩
    simp only [Store.setBlock, Function.update_self]
    exact ⟨hnext, rfl, hspent.value, fun j hj ↦ absurd hj (Nat.not_lt_zero j),
      fun j hj _ ↦ hspent.state j hj⟩
  | resetSlot b next i =>
    obtain ⟨⟨hrole, hreset⟩, hrest⟩ := hk
    have hsucc : Resetting (i + 1) ((c.shared.setState b i 0).heap b) := by
      simp only [Store.setState, Store.setBlock, Function.update_self]
      exact hreset.succ
    simp only [execReclaim] at he
    split_ifs at he with hi
    · cases he
      exact ⟨G, h.reclaim_reset hE hpc hrole rfl hrest fun hh ↦ ⟨⟨hrole, hsucc⟩, hh⟩⟩
    · cases he
      refine ⟨G, h.reclaim_reset hE hpc hrole rfl hrest fun hh ↦ ⟨fun _ ↦ ⟨hrole, ?_⟩, hh⟩⟩
      exact hsucc.clean (by simp only [blockCap] at hi; omega)
  | poolPush b next q => exact h.reclaim_poolPush hC hE hP hpc he
  | leave q =>
    simp only [execReclaim] at he
    obtain ⟨l, ⟨q', -, rfl, rfl⟩ | ⟨e, -, hdone⟩⟩ := coordStep_cases he
    · exact hsame (.of_coord l) hbr trivial
    · exact h.finish hE hpc (.of_coord l) rfl
        (popClaim_reclaim _) hbr hdone.symm

theorem exec_inv (h : Inv G c) (hC : Coordinated ids adaptive c) (hE : Ends c) (hP : Pooled c)
    (hpc : c.pcs t = some p) (he : exec ids adaptive t ch c.shared p = some (s', o)) :
    ∃ G', Inv G' (c.put t (s', o)) := by
  have hsame : ∀ {s' : Store ι α} {o : Outcome (Pc ι α) (Ret α)}, SameMemory c.shared s' →
      pushClaim p = none → popClaim p = none → o.pc.bind pushClaim = none →
      o.pc.bind popClaim = none → (∀ q, o.pc = some q → Knows G s' t q) →
      ∃ G', Inv G' (c.put t (s', o)) := by
    intro s' o hs hp hp' hq hq' hk
    refine ⟨G, h.put_same hE hs ?_ ?_ hk⟩
    · rw [hpc, hq]
      exact hp.symm
    · rw [hpc, hq']
      exact hp'.symm
  cases p with
  | push f pt => exact execPush_inv h hE hP hpc he
  | pop f pt => exact execPop_inv h hE hpc he
  | reclaim r pt => exact execReclaim_inv h hC hE hP hpc he
  | pushPin v q | popPin q | pushUnpin q =>
    simp only [exec] at he
    obtain ⟨l, ⟨q', -, rfl, rfl⟩ | ⟨e, -, hdone⟩⟩ := coordStep_cases he
    · exact hsame ⟨rfl, rfl, rfl, rfl, rfl, rfl, rfl, rfl, rfl, rfl⟩ rfl rfl rfl rfl
        (by rintro _ ⟨⟩; trivial)
    · repeat' split at hdone
      all_goals cases hdone
      all_goals
        exact hsame ⟨rfl, rfl, rfl, rfl, rfl, rfl, rfl, rfl, rfl, rfl⟩ rfl rfl rfl rfl
          (by rintro _ ⟨⟩ <;> trivial)
  | popUnpin res b q =>
    have hbr : ∀ k x, res = some (k, x) → Brings c.shared k x := h.knows t _ hpc
    have hbr' : ∀ k x, (Ret.popped res : Ret α) = .popped (some (k, x)) → Brings c.shared k x :=
      fun k x hx ↦ hbr k x (by cases hx; rfl)
    simp only [exec] at he
    obtain ⟨l, ⟨q', -, rfl, rfl⟩ | ⟨e, -, hdone⟩⟩ := coordStep_cases he
    · refine ⟨G, h.put_same hE ⟨rfl, rfl, rfl, rfl, rfl, rfl, rfl, rfl, rfl, rfl⟩ ?_ ?_ ?_⟩
      · rw [hpc]
        rfl
      · rw [hpc]
        exact (popClaim_popUnpin _ _ _).trans (popClaim_popUnpin _ _ _).symm
      · rintro _ ⟨⟩
        exact hbr
    · split_ifs at hdone
      · cases hdone
        refine ⟨G, h.put_same hE ⟨rfl, rfl, rfl, rfl, rfl, rfl, rfl, rfl, rfl, rfl⟩ ?_ ?_ ?_⟩
        · rw [hpc]
          rfl
        · rw [hpc]
          exact (popClaim_reclaim _).trans (popClaim_popUnpin _ _ _).symm
        · rintro _ ⟨⟩
          exact ⟨hbr', trivial⟩
      · exact h.finish hE hpc (.of_coord l) rfl
          (popClaim_popUnpin _ _ _) hbr' hdone.symm
  | pushBlock v lane tail =>
    cases he
    refine hsame (.refl _) rfl rfl ?_ ?_ ?_
    · unfold pushLoop
      split_ifs <;> rfl
    · unfold pushLoop
      split_ifs <;> rfl
    · rintro _ ⟨⟩
      unfold pushLoop
      split_ifs
      · trivial
      · exact fun _ ↦ rfl
  | popBlock lane head =>
    cases he
    refine hsame (.refl _) rfl rfl ?_ ?_ ?_
    · unfold popLoop
      split_ifs <;> rfl
    · unfold popLoop
      split_ifs <;> rfl
    · rintro _ ⟨⟩
      unfold popLoop
      split_ifs
      · trivial
      · exact fun _ ↦ rfl
      · exact fun _ ↦ rfl
  | pushTail | popHead | lenHead | lenTail =>
    cases he
    exact hsame (.refl _) rfl rfl rfl rfl (by rintro _ ⟨⟩ <;> trivial)

/-- The phases, the chain and the roles of a new queue. -/
def Ghost.new (first : ℕ) : Ghost ι where
  pushed _ := .free
  popped _ := .free
  chain _ := first
  last := 0
  role b := if b = first then .active 0 else .unallocated

omit [Fintype ι] [DecidableEq ι] in
theorem inv_init {first : ℕ} (hfirst : first ≠ 0) :
    Inv (Ghost.new first : Ghost ι) (init first : Config ι (Store ι α) (Pc ι α)) := by
  have hreads : ∀ n, reads (Ghost.new first : Ghost ι).popped n = 0 := by
    intro n
    simp [reads, Ghost.new, Phase.counted]
  refine ⟨?_, ?_, ?_, ?_, ?_⟩
  · constructor <;> simp [Ghost.new, init, Store.new, Staked]
  · refine ⟨fun b n ↦ ?_, fun n hn _ ↦ ?_, fun _ _ _ _ ↦ rfl, ?_, ?_, ?_, ?_, ?_⟩
    · rw [hreads]
      by_cases hb : b = first
      · subst hb
        simp [Ghost.new, eq_comm]
      · simp [Ghost.new, hb, Ne.symm hb]
    · obtain rfl : n = 0 := Nat.le_zero.1 hn
      refine ⟨fun i _ ↦ rfl, fun i _ ↦ rfl, ?_, rfl⟩
      rw [hreads]
      rfl
    · intro k hk
      cases hk
    all_goals simp [Ghost.new, init, Store.new]
  · refine ⟨fun b ↦ ?_, ?_, ⟨[], rfl, fun b ↦ ?_⟩, fun b hb ↦ ?_, fun b pos ↦ ?_, fun b pos hb ↦ ?_⟩
    · by_cases hb : b = first <;> simp [Ghost.new, init, Store.new, hb]
    · simp [Ghost.new, Ne.symm hfirst]
    · by_cases hb : b = first <;> simp [Ghost.new, hb]
    · by_cases hf : b = first <;> simp [Ghost.new, hf] at hb
    · by_cases hb : b = first <;> simp [Ghost.new, init, Store.new, AtomicBuffer.Store.empty, hb]
    · by_cases hf : b = first <;> simp [Ghost.new, hf] at hb
  · simp [init]
  · simp [init, Store.new]

theorem reach_inv {ok : Config ι (Store ι α) (Pc ι α) → Label ι (Op α) → Prop} {first : ℕ}
    (hfirst : first ≠ 0) (h : Reach (atomicVec ids adaptive) ok (init first) c) :
    ∃ G : Ghost ι, Inv G c := by
  refine h.invariant (I := fun c ↦ ∃ G : Ghost ι, Inv G c) ⟨_, inv_init hfirst⟩ ?_ ?_
  · rintro c t op ⟨s', o⟩ hc ⟨G, hI⟩ - hpc he
    cases op with
    | evict =>
      cases he
      refine ⟨G, hI.put_same (reach_ends hc) ⟨rfl, rfl, rfl, rfl, rfl, rfl, rfl, rfl, rfl, rfl⟩
        ?_ ?_ (by simp)⟩
      all_goals
        rw [hpc]
        rfl
    | _ =>
      cases he
      refine ⟨G, hI.put_same (reach_ends hc) (.refl _) ?_ ?_ ?_⟩
      · rw [hpc]
        rfl
      · rw [hpc]
        rfl
      · rintro _ ⟨⟩
        first
        | trivial
        | exact ⟨by simp, trivial⟩
  · rintro c t ch p ⟨s', o⟩ hc ⟨G, hI⟩ - hpc he
    exact exec_inv hI (reach_coordinated hc) (reach_ends hc) (reach_pooled hc) hpc he

end AtomicVec

end Crossync
