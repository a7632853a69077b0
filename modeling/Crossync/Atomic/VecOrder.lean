import Crossync.Interleave.Solo
import Crossync.Atomic.VecReclaim

/-!
# The order of the two ends of an `AtomicVec`

A pop looks at `tail` before it reserves a slot, unless `HAS_NEXT` in the word of `head` tells it
that `tail` is in a later block. The pop that moves `head` on to a next block does neither: it waits
for the *link* of the block, and then stores `head.index` outright, with `HAS_NEXT` if the next
block has a link itself. A push stores the link of a block before the cache entry, `tail.block` and
`tail.index`, so `head` can be moved past `tail`, and `HAS_NEXT` can be set while `tail` is still in
the same block (`pop_passes_push`).

## When the ends stay in order

`Crossed` says that a pop stores `head.index` only when `tail` has left the block that the pop
leaves and, if the pop sets `HAS_NEXT`, also the block that it enters. In the runs in which every
step meets it `head` never passes `tail` (`pop_follows_push`), and a step that does not meet it
breaks the order at once (`crossed_iff_inOrder`).

## Reading the condition

`Crossed` is about one access, the store of `head.index` by a pop that changes blocks. It asks what
`tail.index` says at that moment, and nothing of the past. The equivalence with the order after the
step is what makes it the exact condition: a run that violates it once has lost the order from then
on.
-/

open Interleave

namespace Crossync

namespace AtomicVec

variable {ι α : Type*} [Fintype ι] [DecidableEq ι] {ids : Coord.ThreadIds ι} {adaptive : ℕ}

/-! ### The order

What the condition says about the next store of `head.index`, and what the order says about both
ends. -/

/-- **`head` is not ahead of `tail`**, and `HAS_NEXT` is set only when `tail` is in a later
block. -/
structure InOrder (s : Store ι α) : Prop where
  le : s.head.index / 2 ≤ s.tail.index / 2
  hasNext : s.head.index % 2 = 1 → s.head.index / 2 / blockCap < s.tail.index / 2 / blockCap

/-- A pop stores `head.index` only when `tail` is not waiting at the end of the block that the pop
leaves nor, if the pop sets `HAS_NEXT`, at the end of the block that it enters. -/
def Crossed (c : Config ι (Store ι α) (Pc ι α)) : Label ι (Op α) → Prop
  | .call _ _ => True
  | .exec t _ =>
    match c.pcs t with
    | some (.pop f (.headIndex nextIndex)) =>
      c.shared.tail.index / 2 ≠ blockCap * (f.head / 2 / blockCap) + (blockCap - 1) ∧
      (nextIndex % 2 = 1 →
        c.shared.tail.index / 2 ≠ blockCap * (f.head / 2 / blockCap + 1) + (blockCap - 1))
    | _ => True

instance (c : Config ι (Store ι α) (Pc ι α)) (l : Label ι (Op α)) : Decidable (Crossed c l) := by
  unfold Crossed
  split
  · infer_instance
  · split <;> infer_instance

/-- What a pop has found out about `tail`. -/
def Foresees (s : Store ι α) : Pc ι α → Prop
  | .pop f (.cas newHead) => f.head = s.head.index →
    f.head / 2 < s.tail.index / 2 ∧ (newHead % 2 = 1 → f.head / 2 / 32 < s.tail.index / 2 / 32)
  | .pop f (.headBlock _ nextIndex) | .pop f (.headIndex nextIndex) => nextIndex % 2 = 1 →
    32 * (f.head / 2 / 32 + 1) + 31 ≤ s.tail.index / 2
  | _ => True

omit [Fintype ι] [DecidableEq ι] in
/-- The ends only move forward. -/
theorem Foresees.mono {s s' : Store ι α} {p : Pc ι α} (h : Foresees s p) (hp : Placed s p)
    (ht : s.tail.index ≤ s'.tail.index) (hh : s.head.index ≤ s'.head.index) : Foresees s' p := by
  have htail : s.tail.index / 2 ≤ s'.tail.index / 2 := Nat.div_le_div_right ht
  cases p with
  | pop f pt =>
    cases pt with
    | cas n =>
      intro hf
      have hle := hp.2.1
      obtain ⟨h₁, h₂⟩ := h (by omega)
      exact ⟨h₁.trans_le htail, fun hn ↦ (h₂ hn).trans_le (Nat.div_le_div_right htail)⟩
    | headBlock next n | headIndex n => exact fun hn ↦ (h hn).trans htail
    | _ => trivial
  | _ => trivial

/-- The order, with what the pops have found out. -/
structure Ordered (c : Config ι (Store ι α) (Pc ι α)) : Prop where
  order : InOrder c.shared
  foresees : ∀ t p, c.pcs t = some p → Foresees c.shared p

section Steps

variable {G : Ghost ι} {c : Config ι (Store ι α) (Pc ι α)} {t : ι} {ch : Choice ι} {s' : Store ι α}
  {p : Pc ι α} {o : Outcome (Pc ι α) (Ret α)}

omit [Fintype ι] [DecidableEq ι] in
/-- A block is linked only after the last slot of the block before it has been reserved. -/
theorem Inv.last_le (h : Inv G c) (hE : Ends c) : 31 * G.last ≤ c.shared.pushes.length := by
  by_cases hoff : c.shared.tail.index / 2 % 32 = 31
  · -- the linking push has reserved the last slot of its block
    obtain ⟨u, w, hw⟩ : ∃ u w, (c.pcs u).bind linking = some w := by
      by_contra hnone
      refine hE.linking.closed (fun u ↦ ?_) hoff
      exact Option.eq_none_iff_forall_ne_some.2 fun w hw ↦ hnone ⟨u, w, hw⟩
    obtain ⟨q, hq, hlink⟩ := Option.bind_eq_some_iff.1 hw
    obtain ⟨hidx, hlast⟩ := hE.linking.opened u w hw
    have hnum := hE.tail_number
    have hk := h.knows u q hq
    cases q with
    | push f pt =>
      have hslot : f.tail = w → 31 * (f.slot / 31 + 1) ≤ c.shared.pushes.length := by
        rintro rfl
        rw [← hnum, hidx, PushFrame.slot]
        simp only [number_eq]
        omega
      cases pt with
      | cas | write | publish => cases hlink
      | poolHead | poolTail | alloc =>
        have := hslot (Option.some.inj hlink)
        have := hk.2
        omega
      | poolPop | linkNext | cachePtr | cacheTag | linkBlock | linkIndex =>
        have := hslot (Option.some.inj hlink)
        have := hk.1.2
        omega
    | _ => cases hlink
  · have := (h.chain.tail hoff).2
    omega

omit [Fintype ι] [DecidableEq ι] in
/-- **A next block that has a link** has had its last slot reserved. -/
theorem Inv.next_full (h : Inv G c) (hE : Ends c) {f : PopFrame} {n next : ℕ}
    (hpc : c.pcs t = some (.pop f (.getNext n next))) (hnext : (c.shared.heap next).next ≠ 0) :
    32 * (f.head / 2 / 32 + 1) + 31 ≤ c.shared.tail.index / 2 := by
  obtain ⟨hidx, hoff⟩ := hE.turning.opened t f.head (by rw [hpc]; rfl)
  obtain ⟨-, hslot, hle⟩ := h.knows t _ hpc
  have hdiv : (f.slot + 31) / 31 = f.head / 2 / 32 + 1 := by
    rw [PopFrame.slot]
    simp only [number_eq]
    omega
  rw [hdiv] at hslot hle
  have hpops : c.shared.pops = 31 * (f.head / 2 / 32 + 1) := by
    rw [← hE.head_number, hidx]
    simp only [number_eq]
    omega
  -- nothing has been reserved in the next block, so it is live
  have hlive : reads G.popped (f.head / 2 / 32 + 1) < 31 := by
    refine reads_lt (i := 0) (by decide) ?_
    rw [(h.ledger.popped_free _).2 (by omega)]
    rfl
  have hx := (h.chain.shows _ hle hlive).next
  rw [← hslot] at hx
  have hlast : f.head / 2 / 32 + 1 < G.last := by
    by_contra hge
    rw [if_neg hge] at hx
    exact hnext hx
  have hpushes := h.last_le hE
  rw [← hE.tail_number] at hpushes
  simp only [number_eq] at hpushes
  omega

omit [Fintype ι] in
theorem Ordered.put (h : Ordered c) (hE : Ends c) (ht : c.shared.tail.index ≤ s'.tail.index)
    (hh : c.shared.head.index ≤ s'.head.index) (ho : InOrder s')
    (hq : ∀ q, o.pc = some q → Foresees s' q) : Ordered (c.put t (s', o)) :=
  ⟨ho, Config.forall_put (L := fun _ s q ↦ Foresees s q) hq fun u q _ hu ↦
    (h.foresees u q hu).mono (hE.placed u q hu) ht hh⟩

omit [Fintype ι] [DecidableEq ι] in
theorem InOrder.congr {s : Store ι α} (h : InOrder s) (ht : s'.tail.index = s.tail.index)
    (hh : s'.head.index = s.head.index) : InOrder s' :=
  ⟨by rw [ht, hh]; exact h.le, by rw [ht, hh]; exact h.hasNext⟩

omit [Fintype ι] [DecidableEq ι] in
/-- A push reserves a slot or moves on: `tail` moves forward. -/
theorem InOrder.tail_le {s : Store ι α} (h : InOrder s) (ht : s.tail.index ≤ s'.tail.index)
    (hh : s'.head.index = s.head.index) : InOrder s' := by
  have hdiv : s.tail.index / 2 ≤ s'.tail.index / 2 := Nat.div_le_div_right ht
  refine ⟨by rw [hh]; exact h.le.trans hdiv, fun hodd ↦ ?_⟩
  rw [hh] at hodd ⊢
  exact (h.hasNext hodd).trans_le (Nat.div_le_div_right hdiv)

omit [Fintype ι] in
/-- A reserving compare-exchange of a pop succeeds only behind `tail`. -/
theorem Ordered.reservePop (h : Ordered c) (hE : Ends c) {f : PopFrame} {n : ℕ}
    (hpc : c.pcs t = some (.pop f (.cas n))) (hhead : c.shared.head.index = f.head) :
    Ordered (c.put t ({ c.shared with
        head := { c.shared.head with index := n }
        pops := c.shared.pops + 1 }, (.goto (.pop f
          (if offset f.head + 1 = blockCap - 1 then .waitNext n else .waitWrite)) :
          Outcome (Pc ι α) (Ret α)))) := by
  obtain ⟨hoff, -, hn⟩ := hE.placed t _ hpc
  obtain ⟨hlt, hblock⟩ := h.foresees t _ hpc hhead.symm
  refine h.put hE le_rfl ?_ ⟨?_, ?_⟩ ?_
  · simp only
    omega
  · simp only
    omega
  · intro hodd
    have := hblock hodd
    simp only [blockCap]
    omega
  · rintro q ⟨⟩
    split_ifs <;> trivial

omit [Fintype ι] in
/-- The move of `head` to a next block that `tail` has reached. -/
theorem Ordered.headIndex (h : Ordered c) (hE : Ends c) {f : PopFrame} {n : ℕ}
    (hpc : c.pcs t = some (.pop f (.headIndex n))) (hok : Crossed c (.exec t ch)) :
    Ordered (c.put t ({ c.shared with head := { c.shared.head with index := n } },
        (.goto (.pop f .waitWrite) : Outcome (Pc ι α) (Ret α)))) := by
  obtain ⟨hoff, hlt, hn⟩ := hE.placed t _ hpc
  obtain ⟨hidx, hlast⟩ := hE.turning.opened t f.head (by rw [hpc]; rfl)
  have hle := h.order.le
  have hnext := h.foresees t _ hpc
  simp only [Crossed, hpc, blockCap] at hok
  refine h.put hE le_rfl ?_ ⟨?_, ?_⟩ ?_
  · simp only
    omega
  · simp only
    omega
  · intro hodd
    have h₁ := hnext hodd
    have h₂ := hok.2 hodd
    simp only [blockCap]
    omega
  · rintro q ⟨⟩
    trivial

/-- The program points at which nothing has been found out. -/
def unforeseeing : Pc ι α → Bool
  | .pop _ (.cas _) | .pop _ (.headBlock _ _) | .pop _ (.headIndex _) => false
  | _ => true

omit [Fintype ι] [DecidableEq ι] in
theorem foresees_of_unforeseeing {s : Store ι α} (h : unforeseeing p = true) : Foresees s p := by
  cases p with
  | pop f pt => cases pt <;> trivial
  | _ => trivial

omit [Fintype ι] [DecidableEq ι] in
theorem finish_pc (s : Store ι α) (r : Ret α) : (finish s r).2.pc = none := by
  unfold finish
  split <;> rfl

omit [Fintype ι] [DecidableEq ι] in
theorem unforeseeing_reclaimLoop (r : Ret α) (b : ℕ) :
    unforeseeing (reclaimLoop t r b : Pc ι α) = true := by
  unfold reclaimLoop
  split_ifs <;> rfl

omit [Fintype ι] in
/-- A pop finds out about `tail` at four accesses only. -/
theorem exec_unforeseeing (hblock : ∀ lane w, p ≠ .popBlock lane w) (hpop : ∀ f pt, p = .pop f pt →
      pt ≠ .tail ∧ (∀ n next, pt ≠ .getNext n next) ∧ ∀ next n, pt ≠ .headBlock next n)
    (he : exec ids adaptive t ch c.shared p = some (s', o)) :
    ∀ q, o.pc = some q → unforeseeing q = true := by
  have hcoord : ∀ {r : Option (Coord.Store ι × Outcome (Coord.Pc ι) Coord.Ret)}
      {stay : Coord.Pc ι → Pc ι α}
      {done : Store ι α → Coord.Ret → Store ι α × Outcome (Pc ι α) (Ret α)},
      coordStep c.shared r stay done = some (s', o) → (∀ q, unforeseeing (stay q) = true) →
      (∀ s e q, (done s e).2.pc = some q → unforeseeing q = true) →
      ∀ q, o.pc = some q → unforeseeing q = true := by
    intro r stay done hc hstay hdone q hq
    obtain ⟨l, ⟨p', -, -, rfl⟩ | ⟨e, -, hd⟩⟩ := coordStep_cases hc
    · cases hq
      exact hstay p'
    · exact hdone _ e q (by rw [← hd]; exact hq)
  cases p with
  | popBlock lane w => exact absurd rfl (hblock lane w)
  | pushBlock v lane w =>
    cases he
    unfold pushLoop
    split_ifs <;> rintro _ ⟨⟩ <;> rfl
  | pushPin v q | popPin q =>
    simp only [exec] at he
    refine hcoord he (fun _ ↦ rfl) fun s e q hq ↦ ?_
    cases e <;> cases hq
    rfl
  | pushUnpin q =>
    simp only [exec] at he
    exact hcoord he (fun _ ↦ rfl) fun s e q hq ↦ by cases hq
  | popUnpin res b q =>
    simp only [exec] at he
    refine hcoord he (fun _ ↦ rfl) fun s e q hq ↦ ?_
    split_ifs at hq
    · cases hq
      rfl
    · rw [finish_pc] at hq
      cases hq
  | reclaim r pt =>
    cases pt with
    | enter q =>
      simp only [exec, execReclaim] at he
      refine hcoord he (fun _ ↦ rfl) fun s e q hq ↦ ?_
      cases e with
      | busy =>
        rw [finish_pc] at hq
        cases hq
      | exclusive =>
        cases hq
        rfl
      | _ => cases hq
    | leave q =>
      simp only [exec, execReclaim] at he
      refine hcoord he (fun _ ↦ rfl) fun s e q hq ↦ ?_
      rw [finish_pc] at hq
      cases hq
    | count =>
      simp only [exec, execReclaim] at he
      split_ifs at he
      · intro q hq
        rw [show o = (finish c.shared r).2 by rw [Option.some.inj he], finish_pc] at hq
        cases hq
      all_goals
        cases he
        rintro _ ⟨⟩
        rfl
    | _ =>
      simp only [exec, execReclaim] at he
      repeat' split at he
      all_goals cases he
      all_goals rintro _ ⟨⟩
      all_goals first | rfl | exact unforeseeing_reclaimLoop r _
  | push f pt =>
    simp only [exec] at he
    cases pt with
    | _ =>
      simp only [execPush] at he
      repeat' split at he
      all_goals cases he
      all_goals rintro _ ⟨⟩
      all_goals rfl
  | pop f pt =>
    obtain ⟨h₁, h₂, h₃⟩ := hpop f pt rfl
    simp only [exec] at he
    cases pt with
    | tail => exact absurd rfl h₁
    | getNext n next => exact absurd rfl (h₂ n next)
    | headBlock next n => exact absurd rfl (h₃ next n)
    | _ =>
      simp only [execPop] at he
      repeat' split at he
      all_goals cases he
      all_goals rintro _ ⟨⟩
      all_goals rfl
  | _ =>
    cases he
    rintro _ ⟨⟩ <;> rfl

omit [Fintype ι] in
theorem exec_ordered (h : Ordered c) (hI : Inv G c) (hE : Ends c) (hok : Crossed c (.exec t ch))
    (hpc : c.pcs t = some p) (he : exec ids adaptive t ch c.shared p = some (s', o)) :
    Ordered (c.put t (s', o)) := by
  have hstays : (∀ f, p ≠ .push f .cas ∧ p ≠ .push f .linkIndex) →
      (∀ f n, p ≠ .pop f (.cas n) ∧ p ≠ .pop f (.headIndex n)) →
      (∀ q, o.pc = some q → Foresees s' q) → Ordered (c.put t (s', o)) := by
    intro h₁ h₂ hq
    have hs := exec_stays hE hpc h₁ h₂ he
    exact h.put hE hs.tail.ge hs.head.ge (h.order.congr hs.tail hs.head) hq
  have hplaced := hE.placed t p hpc
  have hord := h.order
  have hfree : (∀ lane w, p ≠ .popBlock lane w) → (∀ f pt, p = .pop f pt → pt ≠ .tail ∧
      (∀ n next, pt ≠ .getNext n next) ∧ ∀ next n, pt ≠ .headBlock next n) →
      ∀ q, o.pc = some q → Foresees s' q := fun h₁ h₂ q hq ↦
    foresees_of_unforeseeing (exec_unforeseeing h₁ h₂ he q hq)
  cases p with
  | popBlock lane w =>
    refine hstays (by simp) (by simp) ?_
    cases he
    unfold popLoop
    split_ifs with hoff hodd
    · rintro _ ⟨⟩
      trivial
    · rintro _ ⟨⟩
      trivial
    · -- `HAS_NEXT` was set in the word that is still the current one
      rintro _ ⟨⟩
      intro hf
      dsimp only at hf hodd ⊢
      subst hf
      have := hord.hasNext (by omega)
      simp only [blockCap] at this
      omega
  | push f pt =>
    cases pt with
    | cas =>
      simp only [exec, execPush] at he
      split at he
      · rename_i w hw
        obtain ⟨htail, rfl⟩ := casWeak_eq_ok hw
        cases he
        have hle : c.shared.tail.index ≤ f.tail + 2 := by omega
        refine h.put hE hle le_rfl (hord.tail_le hle rfl) ?_
        rintro q ⟨⟩
        trivial
      · cases he
        refine h.put hE le_rfl le_rfl hord ?_
        rintro q ⟨⟩
        trivial
    | linkIndex =>
      cases he
      obtain ⟨hidx, -⟩ := hE.linking.opened t f.tail (by rw [hpc]; rfl)
      have hle : c.shared.tail.index ≤ f.tail + 2 + 2 := by omega
      refine h.put hE hle le_rfl (hord.tail_le hle rfl) ?_
      rintro q ⟨⟩
      trivial
    | _ => exact hstays (by simp) (by simp) (hfree (by simp) (by simp))
  | pop f pt =>
    cases pt with
    | tail =>
      refine hstays (by simp) (by simp) ?_
      obtain ⟨hoff, hle, heven⟩ := hplaced
      have hle := hord.le
      simp only [exec, execPop] at he
      split_ifs at he with heq hne
      · cases he
        rintro _ ⟨⟩
        trivial
      · cases he
        rintro _ ⟨⟩
        intro hf
        simp only [blockCap] at hne
        omega
      · cases he
        rintro _ ⟨⟩
        intro hf
        omega
    | cas n =>
      simp only [exec, execPop] at he
      split at he
      · rename_i w hw
        obtain ⟨hhead, rfl⟩ := casWeak_eq_ok hw
        cases he
        exact h.reservePop hE hpc hhead
      · cases he
        refine h.put hE le_rfl le_rfl hord ?_
        rintro q ⟨⟩
        trivial
    | headIndex n =>
      cases he
      exact h.headIndex hE hpc hok
    | getNext n next =>
      refine hstays (by simp) (by simp) ?_
      have hfull := hI.next_full hE hpc
      simp only [exec, execPop] at he
      split_ifs at he with hnext
      · cases he
        rintro _ ⟨⟩
        exact fun _ ↦ hfull hnext
      · cases he
        rintro _ ⟨⟩
        intro hodd
        omega
    | headBlock next n =>
      refine hstays (by simp) (by simp) ?_
      have hnext := h.foresees t _ hpc
      cases he
      rintro _ ⟨⟩
      exact hnext
    | _ => exact hstays (by simp) (by simp) (hfree (by simp) (by simp))
  | _ => exact hstays (by simp) (by simp) (hfree (by simp) (by simp))

end Steps

/-! ### A pop run alone

A pop returns if nobody else moves, which makes the schedule below one that the program can produce.
-/

section Solo

variable {t : ι} {s : Store ι α} {lane : ℕ} {Q : Store ι α → Ret α → Prop}

omit [Fintype ι] in
/-- The drop of the pin, run alone. -/
theorem returns_popUnpin (lane : ℕ) (h : ∀ l, Q { s with coordLock := l } (.popped none)) :
    (atomicVec ids adaptive).Returns t 2 Q
      (s, .goto (.popUnpin none false (Coord.dropPc lane))) := by
  unfold Coord.dropPc
  split_ifs
  · refine .step fun ch ↦ ⟨_, rfl, .step fun ch' ↦ ⟨_, rfl, .ret (h _)⟩⟩
  · exact .step fun ch ↦ ⟨_, rfl, .ret (h _)⟩

omit [Fintype ι] in
/-- A pop that finds the queue empty. -/
theorem returns_popHead (hoff : s.head.index / 2 % 32 ≠ 31) (heven : s.head.index % 2 = 0)
    (hblock : s.head.block ≠ 0) (heq : s.head.index / 2 = s.tail.index / 2)
    (h : ∀ l, Q { s with coordLock := l } (.popped none)) :
    (atomicVec ids adaptive).Returns t 5 Q (s, .goto (.popHead lane)) := by
  refine .step fun ch ↦ ⟨_, rfl, .step fun ch ↦ ⟨_, rfl, ?_⟩⟩
  have hloop : popLoop ⟨lane, s.head.index, s.head.block⟩ =
      (.pop ⟨lane, s.head.index, s.head.block⟩ .tail : Pc ι α) := by
    unfold popLoop
    rw [if_neg, if_pos]
    · dsimp only
      omega
    · rw [not_or]
      exact ⟨hoff, hblock⟩
  rw [hloop]
  refine .step fun ch ↦ ⟨_, ?_, returns_popUnpin lane h⟩
  change execPop ch s _ .tail = _
  rw [execPop, if_pos heq]

omit [Fintype ι] in
/-- One access inside `shared`. -/
theorem returns_popPin {n : ℕ} {l : Coord.Store ι} {p p' : Coord.Pc ι}
    (he : ∀ ch, Coord.exec ids adaptive t ch s.coordLock p = some (l, .goto p'))
    (h : (atomicVec ids adaptive).Returns t n Q ({ s with coordLock := l }, .goto (.popPin p'))) :
    (atomicVec ids adaptive).Returns t (n + 1) Q (s, .goto (.popPin p)) := by
  refine .step fun ch ↦ ⟨_, ?_, h⟩
  simp only [atomicVec, exec, he ch]
  rfl

omit [Fintype ι] in
/-- A pin on a known lane, run alone while the flag is down. -/
theorem returns_add {n : ℕ} (hw : s.coordLock.writing = false)
    (h : ∀ l lane, (atomicVec ids adaptive).Returns t n Q
      ({ s with coordLock := l }, .goto (.popHead lane))) :
    (atomicVec ids adaptive).Returns t (n + 2) Q (s, .goto (.popPin (.add lane))) := by
  refine returns_popPin (fun _ ↦ rfl) (.step fun ch ↦ ⟨_, ?_, h ((s.coordLock.setReaders lane
    (s.coordLock.readers lane + 1)).setPins t lane (s.coordLock.pins t lane + 1)) lane⟩)
  simp only [atomicVec, exec, Coord.exec, Coord.Store.setReaders, hw]
  rfl

omit [Fintype ι] in
/-- What an access of a registration can do, whatever the choice. -/
theorem register_cases (ids : Coord.ThreadIds ι) (adaptive : ℕ) (t : ι) (l : Coord.Store ι)
    (off : ℕ) :
    (∃ l' lane, l'.writing = l.writing ∧
      ∀ ch, Coord.exec ids adaptive t ch l (.register off) = some (l', .goto (.add lane))) ∨
    (off + 1 < Coord.lanes ∧
      ∀ ch, Coord.exec ids adaptive t ch l (.register off) =
        some (l, .goto (.register (off + 1)))) := by
  simp only [Coord.exec]
  split
  · refine Or.inl ⟨_, _, ?_, fun _ ↦ rfl⟩
    rfl
  · split_ifs with hown hlt
    · refine Or.inl ⟨_, _, ?_, fun _ ↦ rfl⟩
      rfl
    · exact Or.inr ⟨hlt, fun _ ↦ rfl⟩
    · refine Or.inl ⟨_, _, ?_, fun _ ↦ rfl⟩
      rfl

omit [Fintype ι] in
/-- A registration, run alone while the flag is down: it ends on a lane after at most all of
them. -/
theorem returns_register {n k off : ℕ} (hw : s.coordLock.writing = false)
    (hk : Coord.lanes ≤ off + k)
    (h : ∀ l lane, (atomicVec ids adaptive).Returns t n Q
      ({ s with coordLock := l }, .goto (.popHead lane))) :
    (atomicVec ids adaptive).Returns t (n + 2 + k + 1) Q (s, .goto (.popPin (.register off))) := by
  induction k generalizing off with
  | zero =>
    obtain ⟨l, lane, hl, he⟩ | ⟨hlt, -⟩ :=
      register_cases ids adaptive t s.coordLock off
    · exact returns_popPin he (returns_add (s := { s with coordLock := l }) (hl.trans hw) h)
    · omega
  | succ k ih =>
    obtain ⟨l, lane, hl, he⟩ | ⟨-, he⟩ :=
      register_cases ids adaptive t s.coordLock off
    · refine returns_popPin he (.mono ?_ (Nat.le_add_right (n + 2) (k + 1)))
      exact returns_add (s := { s with coordLock := l }) (hl.trans hw) h
    · exact returns_popPin he (ih (by omega))

omit [Fintype ι] in
/-- `pop` on an empty queue, run alone, returns `None`. -/
theorem returns_pop (hw : s.coordLock.writing = false) (hoff : s.head.index / 2 % 32 ≠ 31)
    (heven : s.head.index % 2 = 0) (hblock : s.head.block ≠ 0)
    (heq : s.head.index / 2 = s.tail.index / 2) (last : Option ℕ) :
    (atomicVec ids adaptive).Returns t 72 (fun s' r ↦ (∃ l, s' = { s with coordLock := l }) ∧
      r = .popped none) (s, .goto (.popPin (Coord.sharedPc last))) := by
  have hhead : ∀ l lane, (atomicVec ids adaptive).Returns t 5 (fun s' r ↦
      (∃ l, s' = { s with coordLock := l }) ∧ r = .popped none)
      ({ s with coordLock := l }, .goto (.popHead lane)) := fun l lane ↦
    returns_popHead hoff heven hblock heq fun l' ↦ ⟨⟨l', rfl⟩, rfl⟩
  cases last with
  | none => exact returns_register (k := 64) hw (by decide) hhead
  | some lane => exact (returns_add hw hhead).mono (by decide)

end Solo

/-! ### Runs

The order along the runs that keep to the condition. -/

section Runs

variable {first : ℕ} {c : Config ι (Store ι α) (Pc ι α)}

theorem reach_ordered (hfirst : first ≠ 0)
    (h : Reach (atomicVec ids adaptive) Crossed (init first) c) : Ordered c := by
  refine h.invariant (I := Ordered) ⟨⟨le_rfl, by simp [init, Store.new]⟩, by simp [init]⟩ ?_ ?_
  · rintro c t op ⟨s', o⟩ hc hO - hpc he
    have hE := reach_ends hc
    cases op with
    | evict =>
      cases he
      exact hO.put hE le_rfl le_rfl ⟨hO.order.le, hO.order.hasNext⟩ (by simp)
    | _ =>
      cases he
      exact hO.put hE le_rfl le_rfl hO.order (by rintro _ ⟨⟩; trivial)
  · rintro c t ch p ⟨s', o⟩ hc hO hok hpc he
    obtain ⟨G, hI⟩ := reach_inv hfirst (hc.mono fun _ _ _ ↦ trivial)
    exact exec_ordered hO hI (reach_ends hc) hok hpc he

/-- **The condition is exact**: the first step that does not meet it leaves the ends out of
order. -/
theorem crossed_iff_inOrder (hfirst : first ≠ 0) {l : Label ι (Op α)}
    {c' : Config ι (Store ι α) (Pc ι α)}
    (h : Reach (atomicVec ids adaptive) Crossed (init first) c)
    (hn : (atomicVec ids adaptive).next c l = some c') : Crossed c l ↔ InOrder c'.shared := by
  refine ⟨fun hok ↦ (reach_ordered hfirst (h.tail hok hn)).order, fun ho ↦ ?_⟩
  have hE := reach_ends h
  obtain ⟨t, op, r, rfl, -⟩ | ⟨t, ch, p, r, rfl, hpc, he, rfl⟩ := Object.next_cases hn
  · trivial
  simp only [Crossed, hpc]
  split
  · rename_i f n hp
    cases hp
    obtain ⟨hoff, hlt, hni⟩ := hE.placed t _ hpc
    obtain ⟨hidx, hlast⟩ := hE.turning.opened t f.head (by rw [hpc]; rfl)
    cases he
    obtain ⟨hle, hnext⟩ := ho
    simp only [Config.put_shared, blockCap] at hle hnext ⊢
    refine ⟨by omega, fun hodd ↦ ?_⟩
    have := hnext hodd
    omega
  · trivial

omit [Fintype ι] in
/-- Nobody holds the queue exclusively when no call is running. -/
theorem writing_of_quiet (h : Coordinated ids adaptive c) (hq : c.Quiet) :
    c.shared.coordLock.writing = false := by
  by_contra hw
  obtain ⟨a, u, hau⟩ | ⟨u, p, hp, -⟩ := Coord.reach_raised h.run (by simpa using hw)
  · have := h.exclusives a u
    rw [hq u] at this
    simp [insideAt] at this
    simp [this] at hau
  · simp [hq u] at hp

/-- **A pop never reserves a slot that no push has reserved**, in the runs in which a pop stores
`head.index` only when `tail` has left the block behind: `head` never passes `tail`, `HAS_NEXT` is
set only when `tail` is in a later block, and a `pop` on an empty queue with no call running returns
`None`. -/
theorem pop_follows_push (hfirst : first ≠ 0)
    (h : Reach (atomicVec ids adaptive) Crossed (init first) c) :
    c.shared.head.index / 2 ≤ c.shared.tail.index / 2 ∧
    (c.shared.head.index % 2 = 1 →
      c.shared.head.index / 2 / blockCap < c.shared.tail.index / 2 / blockCap) ∧
    c.shared.pops ≤ c.shared.pushes.length ∧
    (c.Quiet → c.shared.pops = c.shared.pushes.length → ∀ t, ∃ x,
      (atomicVec ids adaptive).enter t .pop c.shared = some x ∧
      (atomicVec ids adaptive).Returns t 72 (fun _ r ↦ r = .popped none) x) := by
  have hO := (reach_ordered hfirst h).order
  have hE := reach_ends h
  refine ⟨hO.le, hO.hasNext, ?_, fun hq hempty t ↦ ⟨_, rfl, ?_⟩⟩
  · rw [← hE.head_number, ← hE.tail_number]
    exact number_mono hO.le
  have hnone : ∀ {β : Type} (f : Pc ι α → Option β) (u : ι), (c.pcs u).bind f = none := by
    intro β f u
    rw [hq u]
    rfl
  have hhead := hE.turning.closed (hnone turning)
  have htail := hE.linking.closed (hnone linking)
  -- both ends stand for the same slot
  have heq : c.shared.head.index / 2 = c.shared.tail.index / 2 := by
    have hnum := hE.head_number.trans (hempty.trans hE.tail_number.symm)
    simp only [number_eq] at hnum
    omega
  have heven : c.shared.head.index % 2 = 0 := by
    by_contra hodd
    have := hO.hasNext (by omega)
    rw [heq] at this
    exact lt_irrefl _ this
  obtain ⟨G, hI⟩ := reach_inv hfirst (h.mono fun _ _ _ ↦ trivial)
  have hblock : c.shared.head.block ≠ 0 := by
    obtain ⟨hb, hle⟩ := hI.chain.head hhead
    have hlive : reads G.popped (c.shared.pops / 31) < 31 := by
      refine Chain.live_of_not_counted ?_
      rw [(hI.ledger.popped_free _).2 le_rfl]
      rfl
    have hrole := hI.chain.role_chain hle hlive
    rw [← hb] at hrole
    intro h0
    rw [h0, hI.stock.null] at hrole
    cases hrole
  have hw := writing_of_quiet (reach_coordinated h) hq
  intro chs hlen
  obtain ⟨s', r, hs, hr⟩ := returns_pop hw hhead heven hblock heq _ chs hlen
  exact ⟨s', r, hs, hr.2⟩

end Runs

/-! ### A schedule in which a pop overtakes the pushes

Thread `0` pushes and threads `1` and `2` pop. The push of the 31st value links the second block and
stops before it moves `tail` there. Thread `1` takes the first 30 values; its next pop reserves the
31st slot, finds the link, and moves `head` to the second block. Thread `2` then finds `tail` in
another block than `head`, sets `HAS_NEXT` and reserves the first slot of the second block, which no
push has reserved. `HAS_NEXT` stays set when everybody has caught up, so that the next `pop` on the
empty queue does not look at `tail` at all. -/

theorem succ_val_injective : Function.Injective fun t : Fin 3 ↦ t.val + 1 :=
  fun _ _ h ↦ Fin.ext (Nat.succ_injective h)

theorem succ_val_ne_zero (t : Fin 3) : t.val + 1 ≠ 0 := Nat.succ_ne_zero _

/-- Three threads with the numbers `1`, `2` and `3`. -/
def threeIds : Coord.ThreadIds (Fin 3) where
  owner := ⟨fun t ↦ BitVec.ofNat 32 (t.val + 1), by decide, by decide⟩
  lane t := t.val + 1
  lane_injective := succ_val_injective
  lane_ne_zero := succ_val_ne_zero

/-- `n` further accesses of thread `t`. -/
def steps (t : Fin 3) (n : ℕ) : List (Label (Fin 3) (Op ℕ)) := List.replicate n (.exec t .go)

/-- Thread `t` pushes 31 values; the last push stops after it has linked the second block. -/
def fillBlock (t : Fin 3) : List (Label (Fin 3) (Op ℕ)) :=
  ((List.range 30).flatMap fun i ↦ .call t (.push i) :: steps t (if i = 0 then 10 else 9)) ++
  .call t (.push 30) :: steps t 7 ++ .exec t (.addr 2) :: steps t 1

/-- Thread `t` pops 30 values. -/
def drainBlock (t : Fin 3) : List (Label (Fin 3) (Op ℕ)) :=
  (List.range 30).flatMap fun i ↦ .call t .pop :: steps t (if i = 0 then 13 else 12)

/-- Thread `u` moves `head` to the second block, and thread `v` reserves a slot there. -/
def overtakingSchedule (t u v : Fin 3) : List (Label (Fin 3) (Op ℕ)) :=
  fillBlock t ++ drainBlock u ++ .call u .pop :: steps u 10 ++ .call v .pop :: steps v 7

/-- The calls are completed, with one further push for thread `v`. -/
def catchUpSchedule (t u v : Fin 3) : List (Label (Fin 3) (Op ℕ)) :=
  overtakingSchedule t u v ++ steps t 8 ++ steps u 10 ++ .call t (.push 31) ::
    steps t 9 ++ steps v 6

/-- Only `push` and `pop` are called. -/
def PushesAndPops (_ : Config ι (Store ι α) (Pc ι α)) : Label ι (Op α) → Prop
  | .call _ (.push _) | .call _ .pop | .exec _ _ => True
  | .call _ _ => False

instance (c : Config ι (Store ι α) (Pc ι α)) (l : Label ι (Op α)) :
    Decidable (PushesAndPops c l) := by
  unfold PushesAndPops
  split <;> infer_instance

/-- **A pop can reserve a slot that no push has reserved**, and afterwards `pop` on an empty queue
with no call running can wait for a future push: here it has reserved a slot when nobody else has
moved. -/
theorem pop_passes_push :
    (∃ c, Reach (atomicVec threeIds 4) PushesAndPops (init 1 : Config _ (Store _ ℕ) _) c ∧
      c.shared.tail.index / 2 < c.shared.head.index / 2 ∧
      c.shared.pushes.length < c.shared.pops) ∧
    ∃ c, Reach (atomicVec threeIds 4) PushesAndPops (init 1 : Config _ (Store _ ℕ) _) c ∧
      (c.Quiet ∧ c.shared.pops = c.shared.pushes.length) ∧
      ∃ c', (atomicVec threeIds 4).replay Always c (.call 1 .pop :: steps 1 5) = some c' ∧
        (c'.pcs 1).bind popClaim = some (c.shared.pushes.length, .reserved) := by
  constructor
  · obtain ⟨c, hc, ht⟩ := Reach.exists_of_replay (atomicVec threeIds 4) PushesAndPops
      (init 1 : Config (Fin 3) (Store (Fin 3) ℕ) (Pc (Fin 3) ℕ)) (overtakingSchedule 0 1 2)
      (fun c ↦ decide (c.shared.tail.index / 2 < c.shared.head.index / 2 ∧
        c.shared.pushes.length < c.shared.pops)) (by decide +kernel)
    exact ⟨c, hc, of_decide_eq_true ht⟩
  · obtain ⟨c, hc, ht⟩ := Reach.exists_of_replay (atomicVec threeIds 4) PushesAndPops
      (init 1 : Config (Fin 3) (Store (Fin 3) ℕ) (Pc (Fin 3) ℕ)) (catchUpSchedule 0 1 2)
      (fun c ↦ decide (((∀ t, c.pcs t = none) ∧ c.shared.pops = c.shared.pushes.length) ∧
        ((atomicVec threeIds 4).replay Always c (.call 1 .pop :: steps 1 5)).any (fun c' ↦
          decide ((c'.pcs 1).bind popClaim = some (c.shared.pushes.length, .reserved))) = true))
      (by decide +kernel)
    obtain ⟨hq, hrun⟩ := of_decide_eq_true ht
    obtain ⟨c', hc', hclaim⟩ := (Option.any_eq_true _ _).1 hrun
    exact ⟨c, hc, hq, c', hc', of_decide_eq_true hclaim⟩

/-- A run through a block boundary in which `tail` crosses first. -/
theorem pop_follows_push_crossed :
    ∃ c : Config (Fin 3) (Store (Fin 3) ℕ) (Pc (Fin 3) ℕ),
      Reach (atomicVec threeIds 4) Crossed (init 1) c ∧ c.shared.head.index = 64 ∧
      ∀ t, ∃ x, (atomicVec threeIds 4).enter t .pop c.shared = some x ∧
        (atomicVec threeIds 4).Returns t 72 (fun _ r ↦ r = .popped none) x := by
  obtain ⟨c, hc, ht⟩ := Reach.exists_of_replay (atomicVec threeIds 4) Crossed
    (init 1 : Config (Fin 3) (Store (Fin 3) ℕ) (Pc (Fin 3) ℕ))
    (fillBlock 0 ++ steps 0 8 ++
      ((List.range 30).flatMap fun i ↦ .call 1 .pop :: steps 1 (if i = 0 then 13 else 11)) ++
      .call 1 .pop :: steps 1 19)
    (fun c ↦ decide (((∀ t, c.pcs t = none) ∧ c.shared.pops = c.shared.pushes.length) ∧
      c.shared.head.index = 64)) (by decide +kernel)
  obtain ⟨⟨hq, hempty⟩, hidx⟩ := of_decide_eq_true ht
  exact ⟨c, hc, hidx, (pop_follows_push (by decide) hc).2.2.2 hq hempty⟩

end AtomicVec

end Crossync
