import Mathlib.Tactic.SplitIfs
import Crossync.Atomic.Vec

/-!
# The two ends of an `AtomicVec`

The slot index of an end counts the data slots reserved there, with one index in every block that
stands for no slot (`number`): the end is at that index while the thread that reserved the last slot
of a block moves it on to the next block. At most one thread does so at a time, because nobody
reserves while the end is there (`Window`).

Nothing here depends on the content of the blocks, and nothing relates the two ends to each other:
`head` may be ahead of `tail`.

## The gap at the end of a block

A block has 31 data slots and 32 index values. The thread that reserves the last data slot leaves
the index at the 32nd, where no other thread can reserve, and then moves the end on by stores.
`Window` is the assertion of that thread, and the reason why its plain stores race with nobody:
everybody else waits for the index to change.
-/

open Interleave

namespace Crossync

namespace AtomicVec

variable {ι α : Type*} [DecidableEq ι] {ids : Coord.ThreadIds ι} {adaptive : ℕ}

/-! ### Slot indices

Numbers of data slots against index values, which have one more for each block. -/

theorem number_eq (w : ℕ) : number w = 31 * (w / 32) + w % 32 := rfl

theorem offset_eq (w : ℕ) : offset w = w / 2 % 32 := rfl

/-- The next index is that of the next data slot, or stands for none. -/
theorem number_succ {w : ℕ} (h : w % 32 ≠ 31) : number (w + 1) = number w + 1 := by
  simp only [number_eq]
  omega

/-- The index without a slot counts as the first of the next block. -/
theorem number_succ_gap {w : ℕ} (h : w % 32 = 31) : number (w + 1) = number w := by
  simp only [number_eq]
  omega

theorem number_mono {v w : ℕ} (h : v ≤ w) : number v ≤ number w := by
  simp only [number_eq]
  omega

theorem number_div {w : ℕ} (h : w % 32 ≠ 31) : number w / 31 = w / 32 := by
  simp only [number_eq]
  omega

theorem number_mod {w : ℕ} (h : w % 32 ≠ 31) : number w % 31 = w % 32 := by
  simp only [number_eq]
  omega

/-! ### Windows

The thread that moves an end on, and the block it comes from. -/

/-- An end at `index`, moved on to a next block by the thread whose program point is a `claim` on
the last slot of the block before. -/
structure Window {P : Type*} (claim : P → Option ℕ) (index : ℕ) (pcs : ι → Option P) : Prop where
  opened : ∀ t w, (pcs t).bind claim = some w → index / 2 = w / 2 + 1 ∧ w / 2 % 32 = 30
  unique : ∀ t u, ((pcs t).bind claim).isSome → ((pcs u).bind claim).isSome → t = u
  closed : (∀ t, (pcs t).bind claim = none) → index / 2 % 32 ≠ 31

namespace Window

variable {P : Type*} {claim : P → Option ℕ} {index index' : ℕ} {pcs : ι → Option P} {t : ι}
  {q' : Option P}

theorem claim_update (u : ι) : (Function.update pcs t q' u).bind claim =
    if u = t then q'.bind claim else (pcs u).bind claim := by
  by_cases hu : u = t
  · subst hu
    simp
  · simp [hu]

/-- A step that moves neither the end nor the window. -/
theorem same (h : Window claim index pcs) (hq : q'.bind claim = (pcs t).bind claim) :
    Window claim index (Function.update pcs t q') := by
  have heq : ∀ u, (Function.update pcs t q' u).bind claim = (pcs u).bind claim := by
    intro u
    rw [claim_update]
    split_ifs with hu
    · rw [hq, hu]
    · rfl
  exact ⟨fun u w hw ↦ h.opened u w (heq u ▸ hw),
    fun u v hu hv ↦ h.unique u v (heq u ▸ hu) (heq v ▸ hv),
    fun hall ↦ h.closed fun u ↦ heq u ▸ hall u⟩

omit [DecidableEq ι] in
/-- Nobody has the window of an end at which a slot may be reserved. -/
theorem none_of_closed (h : Window claim index pcs) (hi : index / 2 % 32 ≠ 31) (u : ι) :
    (pcs u).bind claim = none := by
  cases hc : (pcs u).bind claim with
  | none => rfl
  | some w =>
    have := h.opened u w hc
    omega

/-- A reservation, which opens the window if it takes the last slot of a block. -/
theorem reserve (h : Window claim index pcs) (hi : index / 2 % 32 ≠ 31)
    (hopen : ∀ w, q'.bind claim = some w → index' / 2 = w / 2 + 1 ∧ w / 2 % 32 = 30)
    (hclosed : q'.bind claim = none → index' / 2 % 32 ≠ 31) :
    Window claim index' (Function.update pcs t q') := by
  have hnone := h.none_of_closed hi
  have hself : ∀ u, ((Function.update pcs t q' u).bind claim).isSome → u = t := by
    intro u hu
    rw [claim_update, hnone] at hu
    by_contra hne
    simp [hne] at hu
  refine ⟨fun u w hw ↦ ?_, fun u v hu hv ↦ (hself u hu).trans (hself v hv).symm, fun hall ↦ ?_⟩
  · obtain rfl := hself u (by rw [hw]; rfl)
    rw [claim_update, if_pos rfl] at hw
    exact hopen w hw
  · have := hall t
    rw [claim_update, if_pos rfl] at this
    exact hclosed this

/-- The end is moved on to the next block. -/
theorem close (h : Window claim index pcs) (ht : ((pcs t).bind claim).isSome)
    (hq : q'.bind claim = none) (hi : index' / 2 % 32 ≠ 31) :
    Window claim index' (Function.update pcs t q') := by
  have hnone : ∀ u, (Function.update pcs t q' u).bind claim = none := by
    intro u
    rw [claim_update]
    split_ifs with hu
    · exact hq
    · cases hc : (pcs u).bind claim with
      | none => rfl
      | some w => exact absurd (h.unique u t (by rw [hc]; rfl) ht) hu
  refine ⟨fun u w hw ↦ ?_, fun u _ hu ↦ ?_, fun _ ↦ hi⟩
  · rw [hnone] at hw
    cases hw
  · rw [hnone] at hu
    cases hu

end Window

/-! ### The invariant

Both ends, with the accesses that leave them alone. -/

/-- The push links the block after the one whose last slot it has reserved. -/
def linking : Pc ι α → Option ℕ
  | .push f pt =>
    match pt with
    | .cas | .write | .publish => none
    | _ => some f.tail
  | _ => none

/-- The pop moves `head` on to the block after the one whose last slot it has reserved. -/
def turning : Pc ι α → Option ℕ
  | .pop f pt =>
    match pt with
    | .waitNext _ | .getNext _ _ | .headBlock _ _ | .headIndex _ => some f.head
    | _ => none
  | _ => none

/-- What a push or a pop knows about the index it has loaded. -/
def Placed (s : Store ι α) : Pc ι α → Prop
  | .pushBlock _ _ w => w ≤ s.tail.index ∧ w % 2 = 0
  | .push f pt => (f.tail % 2 = 0 ∧ f.tail / 2 % 32 ≠ 31) ∧
    match pt with
    | .cas => f.tail ≤ s.tail.index
    | _ => f.tail + 2 ≤ s.tail.index
  | .popBlock _ w => w ≤ s.head.index
  | .pop f pt => f.head / 2 % 32 ≠ 31 ∧
    match pt with
    | .tail => f.head ≤ s.head.index ∧ f.head % 2 = 0
    | .cas newHead => f.head ≤ s.head.index ∧ newHead / 2 = f.head / 2 + 1
    | .waitNext newHead | .getNext newHead _ =>
      f.head / 2 < s.head.index / 2 ∧ newHead / 2 = f.head / 2 + 1
    | .headBlock _ nextIndex | .headIndex nextIndex =>
      f.head / 2 < s.head.index / 2 ∧ nextIndex / 2 = f.head / 2 + 2
    | _ => f.head / 2 < s.head.index / 2
  | _ => True

omit [DecidableEq ι] in
/-- The ends only move forward. -/
theorem Placed.mono {s s' : Store ι α} {p : Pc ι α} (h : Placed s p)
    (ht : s.tail.index ≤ s'.tail.index) (hh : s.head.index ≤ s'.head.index) : Placed s' p := by
  have hh' : s.head.index / 2 ≤ s'.head.index / 2 := Nat.div_le_div_right hh
  cases p with
  | pushBlock v lane w => exact ⟨h.1.trans ht, h.2⟩
  | push f pt =>
    refine ⟨h.1, ?_⟩
    cases pt <;> exact h.2.trans ht
  | popBlock lane w => exact le_trans h hh
  | pop f pt =>
    refine ⟨h.1, ?_⟩
    cases pt with
    | tail | cas => exact ⟨h.2.1.trans hh, h.2.2⟩
    | waitNext | getNext | headBlock | headIndex => exact ⟨h.2.1.trans_le hh', h.2.2⟩
    | _ => exact h.2.trans_le hh'
  | _ => trivial

/-- **The ends count the reservations.** -/
structure Ends (c : Config ι (Store ι α) (Pc ι α)) : Prop where
  tail_even : c.shared.tail.index % 2 = 0
  tail_number : number (c.shared.tail.index / 2) = c.shared.pushes.length
  head_number : number (c.shared.head.index / 2) = c.shared.pops
  linking : Window linking c.shared.tail.index c.pcs
  turning : Window turning c.shared.head.index c.pcs
  placed : ∀ t p, c.pcs t = some p → Placed c.shared p

section Steps

variable {c : Config ι (Store ι α) (Pc ι α)} {t : ι} {ch : Choice ι} {s' : Store ι α} {p : Pc ι α}
  {o : Outcome (Pc ι α) (Ret α)}

theorem Ends.placed_put (h : Ends c) (ht : c.shared.tail.index ≤ s'.tail.index)
    (hh : c.shared.head.index ≤ s'.head.index) (hp : ∀ q, o.pc = some q → Placed s' q) :
    ∀ u q, (c.put t (s', o)).pcs u = some q → Placed s' q :=
  Config.forall_put (L := fun _ s q ↦ Placed s q) hp fun u q _ hq ↦ (h.placed u q hq).mono ht hh

/-- A step that reserves nothing and moves no end. -/
structure Stays (s s' : Store ι α) (p : Pc ι α) (q' : Option (Pc ι α)) : Prop where
  tail : s'.tail.index = s.tail.index
  head : s'.head.index = s.head.index
  pushes : s'.pushes = s.pushes
  pops : s'.pops = s.pops
  linking : q'.bind AtomicVec.linking = AtomicVec.linking p
  turning : q'.bind AtomicVec.turning = AtomicVec.turning p
  placed : ∀ q, q' = some q → Placed s' q

theorem Ends.put_stays (h : Ends c) (hpc : c.pcs t = some p) (hs : Stays c.shared s' p o.pc) :
    Ends (c.put t (s', o)) where
  tail_even := hs.tail ▸ h.tail_even
  tail_number := by
    rw [Config.put_shared, hs.tail, hs.pushes]
    exact h.tail_number
  head_number := by
    rw [Config.put_shared, hs.head, hs.pops]
    exact h.head_number
  linking := by
    rw [Config.put_shared, hs.tail, Config.put_pcs]
    exact h.linking.same (by rw [hs.linking, hpc]; rfl)
  turning := by
    rw [Config.put_shared, hs.head, Config.put_pcs]
    exact h.turning.same (by rw [hs.turning, hpc]; rfl)
  placed := h.placed_put hs.tail.ge hs.head.ge hs.placed

omit [DecidableEq ι] in
/-- Any other step of a push after its reservation. -/
theorem execPush_stays {f : PushFrame α} {pt : PushPoint} {s : Store ι α} (hcas : pt ≠ .cas)
    (hidx : pt ≠ .linkIndex) (hp : Placed s (.push f pt))
    (h : execPush t ch s f pt = some (s', o)) :
    Stays s s' (.push f pt) o.pc := by
  cases pt with
  | cas => exact absurd rfl hcas
  | linkIndex => exact absurd rfl hidx
  | publish =>
    cases h
    exact ⟨rfl, rfl, rfl, rfl, rfl, rfl, by rintro _ ⟨⟩; trivial⟩
  | _ =>
    simp only [execPush] at h
    repeat' split at h
    all_goals cases h
    all_goals exact ⟨rfl, rfl, rfl, rfl, rfl, rfl, by rintro _ ⟨⟩; exact hp⟩

omit [DecidableEq ι] in
/-- Any other step of a pop. -/
theorem execPop_stays {f : PopFrame} {pt : PopPoint α} {s : Store ι α} (hcas : ∀ n, pt ≠ .cas n)
    (hidx : ∀ n, pt ≠ .headIndex n) (hp : Placed s (.pop f pt))
    (h : execPop ch s f pt = some (s', o)) : Stays s s' (.pop f pt) o.pc := by
  cases pt with
  | cas n => exact absurd rfl (hcas n)
  | headIndex n => exact absurd rfl (hidx n)
  | tail =>
    obtain ⟨hoff, hle, heven⟩ := hp
    simp only [execPop] at h
    split_ifs at h
    · cases h
      exact ⟨rfl, rfl, rfl, rfl, rfl, rfl, by rintro _ ⟨⟩; trivial⟩
    · cases h
      exact ⟨rfl, rfl, rfl, rfl, rfl, rfl, by rintro _ ⟨⟩; exact ⟨hoff, hle, by omega⟩⟩
    · cases h
      exact ⟨rfl, rfl, rfl, rfl, rfl, rfl, by rintro _ ⟨⟩; exact ⟨hoff, hle, by omega⟩⟩
  | getNext newHead next =>
    obtain ⟨hoff, hlt, hnew⟩ := hp
    simp only [execPop] at h
    split_ifs at h
    · cases h
      exact ⟨rfl, rfl, rfl, rfl, rfl, rfl, by rintro _ ⟨⟩; exact ⟨hoff, hlt, by omega⟩⟩
    · cases h
      exact ⟨rfl, rfl, rfl, rfl, rfl, rfl, by rintro _ ⟨⟩; exact ⟨hoff, hlt, by omega⟩⟩
  | count v =>
    cases h
    split_ifs
    · exact ⟨rfl, rfl, rfl, rfl, rfl, rfl, by rintro _ ⟨⟩; exact hp⟩
    · exact ⟨rfl, rfl, rfl, rfl, rfl, rfl, by rintro _ ⟨⟩; trivial⟩
  | retireCount v =>
    cases h
    exact ⟨rfl, rfl, rfl, rfl, rfl, rfl, by rintro _ ⟨⟩; trivial⟩
  | _ =>
    simp only [execPop] at h
    repeat' split at h
    all_goals cases h
    all_goals exact ⟨rfl, rfl, rfl, rfl, rfl, rfl, by rintro _ ⟨⟩; exact hp⟩

omit [DecidableEq ι] in
/-- A step of the coordination. -/
theorem coordStep_stays {s : Store ι α}
    {r : Option (Coord.Store ι × Outcome (Coord.Pc ι) Coord.Ret)} {stay : Coord.Pc ι → Pc ι α}
    {done : Store ι α → Coord.Ret → Store ι α × Outcome (Pc ι α) (Ret α)}
    (h : coordStep s r stay done = some (s', o))
    (hstay : ∀ l q, Stays s { s with coordLock := l } p (some (stay q)))
    (hdone : ∀ l e, Stays s (done { s with coordLock := l } e).1 p
      (done { s with coordLock := l } e).2.pc) : Stays s s' p o.pc := by
  obtain ⟨l, ⟨q, -, rfl, rfl⟩ | ⟨e, -, he⟩⟩ := coordStep_cases h
  · exact hstay l q
  · have hd := hdone l e
    rwa [← he] at hd

omit [DecidableEq ι] in
theorem finish_stays {s : Store ι α} {r : Ret α} {l : Coord.Store ι}
    (hl : AtomicVec.linking p = none) (ht : AtomicVec.turning p = none) :
    Stays s (finish { s with coordLock := l } r).1 p (finish { s with coordLock := l } r).2.pc := by
  unfold finish
  split <;> exact ⟨rfl, rfl, rfl, rfl, hl.symm, ht.symm, by simp⟩

/-- Any other step of a reclaiming call. -/
theorem execReclaim_stays {s : Store ι α} {r : Ret α} {pt : ReclaimPoint ι}
    (h : execReclaim ids adaptive t ch s r pt = some (s', o)) :
    Stays s s' (.reclaim r pt) o.pc := by
  have hloop : ∀ (s' : Store ι α) block, s'.tail = s.tail → s'.head = s.head →
      s'.pushes = s.pushes → s'.pops = s.pops →
      Stays s s' (.reclaim r pt) (some (reclaimLoop t r block)) := by
    intro s' block ht hh hpu hpo
    unfold reclaimLoop
    split_ifs
    all_goals exact ⟨by rw [ht], by rw [hh], hpu, hpo, rfl, rfl, by rintro _ ⟨⟩; trivial⟩
  cases pt with
  | enter q =>
    simp only [execReclaim] at h
    refine coordStep_stays h
      (fun l q' ↦ ⟨rfl, rfl, rfl, rfl, rfl, rfl, by rintro _ ⟨⟩; trivial⟩) (fun l e ↦ ?_)
    cases e with
    | busy => exact finish_stays rfl rfl
    | exclusive => exact ⟨rfl, rfl, rfl, rfl, rfl, rfl, by rintro _ ⟨⟩; trivial⟩
    | _ => exact ⟨rfl, rfl, rfl, rfl, rfl, rfl, by simp⟩
  | leave q =>
    simp only [execReclaim] at h
    exact coordStep_stays h
      (fun l q' ↦ ⟨rfl, rfl, rfl, rfl, rfl, rfl, by rintro _ ⟨⟩; trivial⟩)
      (fun l e ↦ finish_stays rfl rfl)
  | count =>
    simp only [execReclaim] at h
    split_ifs at h
    · obtain h' := Option.some.inj h
      have := finish_stays (s := s) (r := r) (l := s.coordLock)
        (p := (.reclaim r .count : Pc ι α)) rfl rfl
      rwa [h'] at this
    · cases h
      exact ⟨rfl, rfl, rfl, rfl, rfl, rfl, by rintro _ ⟨⟩; trivial⟩
    · cases h
      exact ⟨rfl, rfl, rfl, rfl, rfl, rfl, by rintro _ ⟨⟩; trivial⟩
  | zero block | free block next =>
    cases h
    exact hloop _ _ rfl rfl rfl rfl
  | resetSlot block next i =>
    cases h
    split_ifs
    all_goals exact ⟨rfl, rfl, rfl, rfl, rfl, rfl, by rintro _ ⟨⟩; trivial⟩
  | poolPush block next q =>
    simp only [execReclaim] at h
    split at h
    all_goals cases h
    · exact ⟨rfl, rfl, rfl, rfl, rfl, rfl, by rintro _ ⟨⟩; trivial⟩
    · exact hloop _ _ rfl rfl rfl rfl
    · exact ⟨rfl, rfl, rfl, rfl, rfl, rfl, by rintro _ ⟨⟩; trivial⟩
  | _ =>
    simp only [execReclaim] at h
    repeat' split at h
    all_goals cases h
    all_goals exact ⟨rfl, rfl, rfl, rfl, rfl, rfl, by rintro _ ⟨⟩; trivial⟩

/-- Any step that is neither a reservation nor the move of an end to the next block. -/
theorem exec_stays (h : Ends c) (hpc : c.pcs t = some p)
    (hp : ∀ f, p ≠ .push f .cas ∧ p ≠ .push f .linkIndex)
    (hp' : ∀ f n, p ≠ .pop f (.cas n) ∧ p ≠ .pop f (.headIndex n))
    (he : exec ids adaptive t ch c.shared p = some (s', o)) : Stays c.shared s' p o.pc := by
  have hplaced := h.placed t p hpc
  have htail := h.tail_even
  cases p with
  | push f pt =>
    refine execPush_stays ?_ ?_ hplaced he
    · rintro rfl
      exact (hp f).1 rfl
    · rintro rfl
      exact (hp f).2 rfl
  | pop f pt =>
    refine execPop_stays ?_ ?_ hplaced he
    · rintro n rfl
      exact (hp' f n).1 rfl
    · rintro n rfl
      exact (hp' f n).2 rfl
  | reclaim r pt => exact execReclaim_stays he
  | pushBlock v lane tail =>
    cases he
    unfold pushLoop
    rw [offset_eq]
    split_ifs with hoff
    · exact ⟨rfl, rfl, rfl, rfl, rfl, rfl, by rintro _ ⟨⟩; trivial⟩
    · exact ⟨rfl, rfl, rfl, rfl, rfl, rfl, by rintro _ ⟨⟩; exact ⟨⟨hplaced.2, hoff⟩, hplaced.1⟩⟩
  | popBlock lane head =>
    cases he
    unfold popLoop
    rw [offset_eq]
    split_ifs with hoff hodd
    · exact ⟨rfl, rfl, rfl, rfl, rfl, rfl, by rintro _ ⟨⟩; trivial⟩
    · refine ⟨rfl, rfl, rfl, rfl, rfl, rfl, ?_⟩
      rintro _ ⟨⟩
      exact ⟨fun hc ↦ hoff (Or.inl hc), hplaced, by dsimp only at hodd ⊢; omega⟩
    · refine ⟨rfl, rfl, rfl, rfl, rfl, rfl, ?_⟩
      rintro _ ⟨⟩
      exact ⟨fun hc ↦ hoff (Or.inl hc), hplaced, by dsimp only; omega⟩
  | pushTail v lane =>
    cases he
    exact ⟨rfl, rfl, rfl, rfl, rfl, rfl, by rintro _ ⟨⟩; exact ⟨le_rfl, htail⟩⟩
  | popHead lane =>
    cases he
    exact ⟨rfl, rfl, rfl, rfl, rfl, rfl, by rintro _ ⟨⟩; exact le_rfl⟩
  | lenHead =>
    cases he
    exact ⟨rfl, rfl, rfl, rfl, rfl, rfl, by rintro _ ⟨⟩; trivial⟩
  | lenTail n =>
    cases he
    exact ⟨rfl, rfl, rfl, rfl, rfl, rfl, by simp⟩
  | pushPin v q | popPin q =>
    simp only [exec] at he
    refine coordStep_stays he
      (fun l q' ↦ ⟨rfl, rfl, rfl, rfl, rfl, rfl, by rintro _ ⟨⟩; trivial⟩) (fun l e ↦ ?_)
    cases e with
    | pinned lane => exact ⟨rfl, rfl, rfl, rfl, rfl, rfl, by rintro _ ⟨⟩; trivial⟩
    | _ => exact ⟨rfl, rfl, rfl, rfl, rfl, rfl, by simp⟩
  | pushUnpin q =>
    simp only [exec] at he
    exact coordStep_stays he
      (fun l q' ↦ ⟨rfl, rfl, rfl, rfl, rfl, rfl, by rintro _ ⟨⟩; trivial⟩)
      (fun l e ↦ ⟨rfl, rfl, rfl, rfl, rfl, rfl, by simp⟩)
  | popUnpin res b q =>
    simp only [exec] at he
    refine coordStep_stays he
      (fun l q' ↦ ⟨rfl, rfl, rfl, rfl, rfl, rfl, by rintro _ ⟨⟩; trivial⟩) (fun l e ↦ ?_)
    split_ifs
    · exact ⟨rfl, rfl, rfl, rfl, rfl, rfl, by rintro _ ⟨⟩; trivial⟩
    · exact finish_stays rfl rfl

/-! ### Reservations and moves to the next block

The four accesses that move an index. -/

/-- **A push reserves the next slot.** -/
theorem Ends.reservePush (h : Ends c) {f : PushFrame α} (hpc : c.pcs t = some (.push f .cas))
    (htail : c.shared.tail.index = f.tail) :
    Ends (c.put t ({ c.shared with
        tail := { c.shared.tail with index := f.tail + 2 }
        pushes := c.shared.pushes ++ [f.value] }, (.goto (.push f
          (if offset f.tail + 1 = blockCap - 1 then .poolHead else .write)) :
          Outcome (Pc ι α) (Ret α)))) := by
  obtain ⟨⟨heven, hoff⟩, -⟩ := h.placed t _ hpc
  have hdiv : (f.tail + 2) / 2 = f.tail / 2 + 1 := by omega
  have hnum := number_succ hoff
  refine ⟨by simp; omega, ?_, h.head_number, ?_, ?_, h.placed_put ?_ le_rfl ?_⟩
  · have := h.tail_number
    simp only [Config.put_shared, List.length_append, List.length_cons, List.length_nil, hdiv, hnum]
    rw [htail] at this
    omega
  · refine h.linking.reserve (by rw [htail]; exact hoff) ?_ ?_
    · intro w hw
      simp only [Config.put_shared]
      split_ifs at hw with hlast
      · cases hw
        exact ⟨hdiv, by simp only [offset_eq, blockCap] at hlast; omega⟩
      · cases hw
    · intro hw
      simp only [Config.put_shared]
      split_ifs at hw with hlast
      · cases hw
      · simp only [offset_eq, blockCap] at hlast
        omega
  · refine h.turning.same ?_
    rw [hpc]
    rfl
  · simp only
    omega
  · rintro q ⟨⟩
    refine ⟨⟨heven, hoff⟩, ?_⟩
    split_ifs
    all_goals exact le_rfl

/-- **A pop reserves the next slot.** -/
theorem Ends.reservePop (h : Ends c) {f : PopFrame} {n : ℕ}
    (hpc : c.pcs t = some (.pop f (.cas n))) (hhead : c.shared.head.index = f.head) :
    Ends (c.put t ({ c.shared with
        head := { c.shared.head with index := n }
        pops := c.shared.pops + 1 }, (.goto (.pop f
          (if offset f.head + 1 = blockCap - 1 then .waitNext n else .waitWrite)) :
          Outcome (Pc ι α) (Ret α)))) := by
  obtain ⟨hoff, -, hn⟩ := h.placed t _ hpc
  have hnum := number_succ hoff
  refine ⟨h.tail_even, h.tail_number, ?_, ?_, ?_, h.placed_put le_rfl ?_ ?_⟩
  · have := h.head_number
    simp only [Config.put_shared, hn, hnum]
    rw [hhead] at this
    omega
  · refine h.linking.same ?_
    rw [hpc]
    rfl
  · refine h.turning.reserve (by rw [hhead]; exact hoff) ?_ ?_
    · intro w hw
      simp only [Config.put_shared]
      split_ifs at hw with hlast
      · cases hw
        exact ⟨hn, by simp only [offset_eq, blockCap] at hlast; omega⟩
      · cases hw
    · intro hw
      simp only [Config.put_shared]
      split_ifs at hw with hlast
      · cases hw
      · simp only [offset_eq, blockCap] at hlast
        omega
  · simp only
    omega
  · rintro q ⟨⟩
    refine ⟨hoff, ?_⟩
    split_ifs
    · exact ⟨by simp only; omega, hn⟩
    · simp only
      omega

/-- `tail` is moved on to the linked block. -/
theorem Ends.linkIndex (h : Ends c) {f : PushFrame α} (hpc : c.pcs t = some (.push f .linkIndex)) :
    Ends (c.put t ({ c.shared with
        tail := { c.shared.tail with index := f.tail + 2 + 2 } },
        (.goto (.push f .write) : Outcome (Pc ι α) (Ret α)))) := by
  obtain ⟨⟨heven, hoff⟩, hle⟩ := h.placed t _ hpc
  obtain ⟨hidx, hlast⟩ := h.linking.opened t f.tail (by rw [hpc]; rfl)
  have hev := h.tail_even
  have hgap : number (c.shared.tail.index / 2 + 1) = number (c.shared.tail.index / 2) :=
    number_succ_gap (by omega)
  refine ⟨by simp; omega, ?_, h.head_number, ?_, ?_, h.placed_put ?_ le_rfl ?_⟩
  · have hdiv : (f.tail + 2 + 2) / 2 = c.shared.tail.index / 2 + 1 := by omega
    simp only [Config.put_shared]
    rw [hdiv, hgap]
    exact h.tail_number
  · refine h.linking.close (by rw [hpc]; rfl) rfl ?_
    simp only [Config.put_shared]
    omega
  · refine h.turning.same ?_
    rw [hpc]
    rfl
  · simp only
    omega
  · rintro q ⟨⟩
    refine ⟨⟨heven, hoff⟩, ?_⟩
    simp only
    omega

/-- `head` is moved on to the next block. -/
theorem Ends.headIndex (h : Ends c) {f : PopFrame} {n : ℕ}
    (hpc : c.pcs t = some (.pop f (.headIndex n))) :
    Ends (c.put t ({ c.shared with head := { c.shared.head with index := n } },
        (.goto (.pop f .waitWrite) : Outcome (Pc ι α) (Ret α)))) := by
  obtain ⟨hoff, hlt, hn⟩ := h.placed t _ hpc
  obtain ⟨hidx, hlast⟩ := h.turning.opened t f.head (by rw [hpc]; rfl)
  have hgap : number (c.shared.head.index / 2 + 1) = number (c.shared.head.index / 2) :=
    number_succ_gap (by omega)
  refine ⟨h.tail_even, h.tail_number, ?_, ?_, ?_, h.placed_put le_rfl ?_ ?_⟩
  · have hdiv : n / 2 = c.shared.head.index / 2 + 1 := by omega
    simp only [Config.put_shared]
    rw [hdiv, hgap]
    exact h.head_number
  · refine h.linking.same ?_
    rw [hpc]
    rfl
  · refine h.turning.close (by rw [hpc]; rfl) rfl ?_
    simp only [Config.put_shared]
    omega
  · simp only
    omega
  · rintro q ⟨⟩
    refine ⟨hoff, ?_⟩
    simp only
    omega

theorem exec_ends (h : Ends c) (hpc : c.pcs t = some p)
    (he : exec ids adaptive t ch c.shared p = some (s', o)) : Ends (c.put t (s', o)) := by
  have hstays : (∀ f, p ≠ .push f .cas ∧ p ≠ .push f .linkIndex) →
      (∀ f n, p ≠ .pop f (.cas n) ∧ p ≠ .pop f (.headIndex n)) → Ends (c.put t (s', o)) :=
    fun h₁ h₂ ↦ h.put_stays hpc (exec_stays h hpc h₁ h₂ he)
  have hplaced := h.placed t p hpc
  cases p with
  | push f pt =>
    cases pt with
    | cas =>
      simp only [exec, execPush] at he
      split at he
      · rename_i w hw
        obtain ⟨htail, rfl⟩ := casWeak_eq_ok hw
        cases he
        exact h.reservePush hpc htail
      · rename_i w hw
        obtain rfl := casWeak_eq_error hw
        cases he
        exact h.put_stays hpc ⟨rfl, rfl, rfl, rfl, rfl, rfl,
          by rintro _ ⟨⟩; exact ⟨le_rfl, h.tail_even⟩⟩
    | linkIndex =>
      cases he
      exact h.linkIndex hpc
    | _ => exact hstays (by simp) (by simp)
  | pop f pt =>
    cases pt with
    | cas n =>
      simp only [exec, execPop] at he
      split at he
      · rename_i w hw
        obtain ⟨hhead, rfl⟩ := casWeak_eq_ok hw
        cases he
        exact h.reservePop hpc hhead
      · rename_i w hw
        obtain rfl := casWeak_eq_error hw
        cases he
        exact h.put_stays hpc ⟨rfl, rfl, rfl, rfl, rfl, rfl, by rintro _ ⟨⟩; exact le_rfl⟩
    | headIndex n =>
      cases he
      exact h.headIndex hpc
    | _ => exact hstays (by simp) (by simp)
  | _ => exact hstays (by simp) (by simp)

end Steps

theorem reach_ends {ok : Config ι (Store ι α) (Pc ι α) → Label ι (Op α) → Prop} {first : ℕ}
    {c : Config ι (Store ι α) (Pc ι α)} (h : Reach (atomicVec ids adaptive) ok (init first) c) :
    Ends c := by
  refine h.invariant (I := Ends) ?_ ?_ ?_
  · refine ⟨rfl, by simp [init, Store.new, number], by simp [init, Store.new, number], ?_, ?_,
      by simp [init]⟩
    all_goals exact ⟨by simp [init], by simp [init], fun _ ↦ by simp [init, Store.new]⟩
  · rintro c t op ⟨s', o⟩ - hE - hpc he
    have hp : ∀ (s' : Store ι α) (o : Outcome (Pc ι α) (Ret α)), s'.tail = c.shared.tail →
        s'.head = c.shared.head → s'.pushes = c.shared.pushes → s'.pops = c.shared.pops →
        o.pc.bind linking = none → o.pc.bind turning = none →
        (∀ q, o.pc = some q → Placed s' q) → Ends (c.put t (s', o)) := by
      intro s' o htl hhd hpu hpo hl htn hq
      refine ⟨?_, ?_, ?_, ?_, ?_, hE.placed_put (by rw [htl]) (by rw [hhd]) hq⟩
      · rw [Config.put_shared, htl]
        exact hE.tail_even
      · rw [Config.put_shared, htl, hpu]
        exact hE.tail_number
      · rw [Config.put_shared, hhd, hpo]
        exact hE.head_number
      · rw [Config.put_shared, htl, Config.put_pcs]
        exact hE.linking.same (by rw [hpc]; exact hl)
      · rw [Config.put_shared, hhd, Config.put_pcs]
        exact hE.turning.same (by rw [hpc]; exact htn)
    cases op with
    | evict =>
      cases he
      exact hp _ _ rfl rfl rfl rfl rfl rfl (by simp)
    | _ =>
      cases he
      exact hp _ _ rfl rfl rfl rfl rfl rfl (by rintro _ ⟨⟩; trivial)
  · rintro c t ch p ⟨s', o⟩ - hE - hpc he
    exact exec_ends hE hpc he

end AtomicVec

end Crossync
