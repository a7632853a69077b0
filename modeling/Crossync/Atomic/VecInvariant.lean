import Crossync.Atomic.VecPool
import Crossync.Atomic.VecStock

/-!
# The invariant of an `AtomicVec`

`Inv` puts the layers together: the phases of the slots, the blocks of the chain, the other blocks,
and for every thread what it relies on at its program point (`Knows`). `Keeps` is what a step of one
thread leaves to the others; the blocks in another thread's hands, the part of the chain that
exists, and what has been published.

The last part reduces a step to what is particular to it (`Inv.put`), with the many steps that
change no memory done once (`Inv.put_same`).

## The layers

1. `Ends`: how many slots are reserved at each end, and who is moving an end on.
2. `Ledger`: the phases of the slots, and who holds which.
3. `Chain`: the blocks of the chain and what they show.
4. `Stock`: the other blocks.
5. `Knows`: what every thread relies on at its program point.

Each layer may use those before it and none after it. `Inv` bundles the last four with the roles of
the addresses in one ghost state `G`; the first is kept apart, since its proof needs nothing of the
rest.

## What a step has to show

`Inv.put` asks of a step that it gives the new layers, that its thread knows what its next point
asks for, and that it `Keeps` what the others rely on. Most accesses load a word or touch the
coordinator, and then nothing but the second is left to show (`Inv.put_same`). The lemmas for the
remaining accesses are in `Atomic.VecPush`, `Atomic.VecPop` and `Atomic.VecReclaim`, one for each
effect.
-/

open Interleave

namespace Crossync

namespace AtomicVec

variable {ι α : Type*} {ids : Coord.ThreadIds ι} {adaptive : ℕ}

/-! ### What a thread knows

The three kinds of call that move blocks: a push from its reservation to the publication of its
value, a pop from its reservation to the return, and the reclamation of a spent block. -/

/-- The slot of a push or of a pop. -/
def PushFrame.slot (f : PushFrame α) : ℕ := number (f.tail / 2)

@[inherit_doc PushFrame.slot]
def PopFrame.slot (f : PopFrame) : ℕ := number (f.head / 2)

/-- `x` is the value brought for slot `k`. -/
def Brings (s : Store ι α) (k : ℕ) (x : Option (ℕ × α)) : Prop :=
  ∃ v, s.pushes[k]? = some v ∧ x = some (k, v)

/-- `b` is the block of slot `k`. -/
def AtSlot (G : Ghost ι) (b k : ℕ) : Prop := b = G.chain (k / 31) ∧ k / 31 ≤ G.last

/-- A thread has a clean block in hand. -/
def HasClean (G : Ghost ι) (s : Store ι α) (t : ι) (b : ℕ) : Prop :=
  G.role b = .owned t ∧ Clean (s.heap b)

/-- A thread has a spent block in hand. -/
def HasSpent (G : Ghost ι) (s : Store ι α) (t : ι) (b : ℕ) : Prop :=
  G.role b = .owned t ∧ Spent (s.heap b)

/-- A thread has a list of spent blocks in hand, which does not contain `b`. -/
def Hoard (G : Ghost ι) (s : Store ι α) (t : ι) (b first : ℕ) : Prop :=
  ∃ l, Linked (fun x ↦ (s.heap x).next) first l ∧ b ∉ l ∧ ∀ x ∈ l, HasSpent G s t x

/-- The first `i` slots of a block have been reset. -/
structure Resetting (i : ℕ) (x : Block α) : Prop where
  next : x.next = 0
  counters : x.counters = 0
  value : ∀ j < 31, x.value j = none
  reset : ∀ j < i, x.state j = 0
  still : ∀ j < 31, i ≤ j → x.state j = read

/-- What a push knows after its reservation. -/
def Reserved (G : Ghost ι) (s : Store ι α) (f : PushFrame α) : Prop :=
  AtSlot G f.block f.slot ∧ s.pushes[f.slot]? = some f.value

/-- The block that a `pop` of the pool has reserved. -/
def TakesOut (G : Ghost ι) (s : Store ι α) (t : ι) : AtomicBuffer.Pc ℕ → Prop
  | .popTake pos | .popPublish pos _ =>
    ∃ b, s.freeList.pushes[pos]? = some b ∧ HasClean G s t b
  | _ => True

/-- A `push` of the pool has not reserved a position yet. -/
def Offering : AtomicBuffer.Pc ℕ → Prop
  | .pushTail _ | .pushSequence _ _ | .pushCas _ _ => True
  | _ => False

/-- What a push knows. -/
def PushKnows (G : Ghost ι) (s : Store ι α) (t : ι) (f : PushFrame α) : PushPoint → Prop
  | .cas => f.tail = s.tail.index → f.block = s.tail.block
  | .poolHead | .poolTail _ | .alloc => Reserved G s f ∧ G.last = f.slot / 31
  | .poolPop p => (Reserved G s f ∧ G.last = f.slot / 31) ∧ TakesOut G s t p
  | .linkNext b => (Reserved G s f ∧ G.last = f.slot / 31) ∧ HasClean G s t b
  | .cachePtr b | .cacheTag b | .linkBlock b =>
    (Reserved G s f ∧ G.last = f.slot / 31 + 1) ∧ G.chain G.last = b
  | .linkIndex => (Reserved G s f ∧ G.last = f.slot / 31 + 1) ∧ s.tail.block = G.chain G.last
  | .write | .publish => Reserved G s f

/-- What a pop knows. -/
def PopKnows (G : Ghost ι) (s : Store ι α) (t : ι) (f : PopFrame) : PopPoint α → Prop
  | .tail | .cas _ => f.head = s.head.index → f.block = s.head.block
  | .waitNext _ | .waitWrite => AtSlot G f.block f.slot
  | .getNext _ next | .headBlock next _ => AtSlot G f.block f.slot ∧ AtSlot G next (f.slot + 31)
  | .headIndex _ => AtSlot G f.block f.slot ∧ AtSlot G s.head.block (f.slot + 31)
  | .take => AtSlot G f.block f.slot ∧ G.pushed f.slot = .done
  | .mark v | .count v => AtSlot G f.block f.slot ∧ Brings s f.slot v
  | .retireLoad v | .retireNext v _ => HasSpent G s t f.block ∧ Brings s f.slot v
  | .retireCas v next =>
    (HasSpent G s t f.block ∧ (s.heap f.block).next = next) ∧ Brings s f.slot v
  | .retireCount v => Brings s f.slot v

/-- What a thread knows in `try_reclaim`. -/
def ReclaimKnows (G : Ghost ι) (s : Store ι α) (t : ι) : ReclaimPoint ι → Prop
  | .count | .enter _ | .swap | .leave _ => True
  | .zero b => Hoard G s t 0 b
  | .loadNext b => b ≠ 0 ∧ Hoard G s t 0 b
  | .poolHead b next | .poolTail b next _ | .free b next | .resetNext b next =>
    HasSpent G s t b ∧ Hoard G s t b next
  | .resetCount b next => (HasSpent G s t b ∧ (s.heap b).next = 0) ∧ Hoard G s t b next
  | .resetSlot b next i => (G.role b = .owned t ∧ Resetting i (s.heap b)) ∧ Hoard G s t b next
  | .poolPush b next p => (Offering p → HasClean G s t b) ∧ Hoard G s t b next

/-- **What a thread relies on.** -/
def Knows (G : Ghost ι) (s : Store ι α) (t : ι) : Pc ι α → Prop
  | .push f pt => PushKnows G s t f pt
  | .pop f pt => PopKnows G s t f pt
  | .popUnpin res _ _ => ∀ k x, res = some (k, x) → Brings s k x
  | .reclaim r pt => (∀ k x, r = .popped (some (k, x)) → Brings s k x) ∧ ReclaimKnows G s t pt
  | _ => True

/-! ### What a step leaves to the others

A block is in the chain, in the stock or in the hands of one thread; a thread's step changes those
in its own hands and moves the end of the chain forward. -/

/-- What a step of `t`, made at `q`, leaves to the other threads. -/
structure Keeps (t : ι) (q : Option (Pc ι α)) (G G' : Ghost ι) (s s' : Store ι α) : Prop where
  owned : ∀ u b, u ≠ t → G.role b = .owned u → G'.role b = .owned u ∧ s'.heap b = s.heap b
  last : G.last ≤ G'.last
  chain : ∀ n ≤ G.last, G'.chain n = G.chain n
  pushes : s.pushes <+: s'.pushes
  pool : s.freeList.pushes <+: s'.freeList.pushes
  pushed : ∀ k, G.pushed k = .done → G'.pushed k = .done
  /-- An index loaded from `tail` that is still the current one goes with the current block. -/
  tail : ∀ w, w ≤ s.tail.index → w / 2 % 32 ≠ 31 → w = s'.tail.index →
    w = s.tail.index ∧ s'.tail.block = s.tail.block
  head : ∀ w, w ≤ s.head.index → w / 2 % 32 ≠ 31 → w = s'.head.index →
    w = s.head.index ∧ s'.head.block = s.head.block
  linking : q.bind AtomicVec.linking = none → G'.last = G.last ∧ s'.tail.block = s.tail.block
  turning : q.bind AtomicVec.turning = none → s'.head.block = s.head.block

/-- What a list has at an index its extensions have there too. -/
theorem getElem?_of_prefix {β : Type*} {l l' : List β} {k : ℕ} {v : β} (h : l <+: l')
    (hk : l[k]? = some v) : l'[k]? = some v := by
  obtain ⟨m, rfl⟩ := h
  have hlt : k < l.length := by
    by_contra hge
    rw [List.getElem?_eq_none (not_lt.1 hge)] at hk
    cases hk
  rwa [List.getElem?_append_left hlt]

/-- A push that was recorded stays recorded. -/
theorem Brings.mono {s s' : Store ι α} {k : ℕ} {x : Option (ℕ × α)} (h : Brings s k x)
    (hp : s.pushes <+: s'.pushes) : Brings s' k x := by
  obtain ⟨v, hv, hx⟩ := h
  exact ⟨v, getElem?_of_prefix hp hv, hx⟩

section Keeps

variable {t u : ι} {q : Option (Pc ι α)} {G G' : Ghost ι} {s s' : Store ι α} {b k : ℕ}

namespace Keeps

/-- The position of a block in the chain is not moved by the others. -/
theorem atSlot (h : Keeps t q G G' s s') (hb : AtSlot G b k) : AtSlot G' b k :=
  ⟨hb.1.trans (h.chain _ hb.2).symm, hb.2.trans h.last⟩

/-- A push keeps the slot it has reserved. -/
theorem reserved {f : PushFrame α} (h : Keeps t q G G' s s') (hf : Reserved G s f) :
    Reserved G' s' f :=
  ⟨h.atSlot hf.1, getElem?_of_prefix h.pushes hf.2⟩

/-- A thread keeps the clean block in its hands. -/
theorem hasClean (h : Keeps t q G G' s s') (hu : u ≠ t) (hb : HasClean G s u b) :
    HasClean G' s' u b :=
  ⟨(h.owned u b hu hb.1).1, (h.owned u b hu hb.1).2 ▸ hb.2⟩

/-- A thread keeps the spent block in its hands. -/
theorem hasSpent (h : Keeps t q G G' s s') (hu : u ≠ t) (hb : HasSpent G s u b) :
    HasSpent G' s' u b :=
  ⟨(h.owned u b hu hb.1).1, (h.owned u b hu hb.1).2 ▸ hb.2⟩

/-- A thread keeps the spare blocks it has taken. -/
theorem hoard (h : Keeps t q G G' s s') (hu : u ≠ t) {first : ℕ} (hb : Hoard G s u b first) :
    Hoard G' s' u b first := by
  obtain ⟨l, hl, hnot, hall⟩ := hb
  refine ⟨l, hl.congr fun x hx ↦ ?_, hnot, fun x hx ↦ h.hasSpent hu (hall x hx)⟩
  rw [(h.owned u x hu (hall x hx).1).2]

/-- A step that leaves the ends, the chain and what has been pushed alone. -/
theorem of_memory (hown : ∀ u b, u ≠ t → G.role b = .owned u →
      G'.role b = .owned u ∧ s'.heap b = s.heap b) (hch : G'.chain = G.chain)
    (hl : G'.last = G.last) (hpushed : ∀ k, G.pushed k = .done → G'.pushed k = .done)
    (hpu : s'.pushes = s.pushes) (hpool : s.freeList.pushes <+: s'.freeList.pushes)
    (htail : s'.tail = s.tail) (hhead : s'.head = s.head) : Keeps t q G G' s s' where
  owned := hown
  last := hl.ge
  chain n _ := by rw [hch]
  pushes := by rw [hpu]
  pool := hpool
  pushed := hpushed
  tail w _ _ hw := by rw [htail] at hw ⊢; exact ⟨hw, rfl⟩
  head w _ _ hw := by rw [hhead] at hw ⊢; exact ⟨hw, rfl⟩
  linking _ := ⟨hl, by rw [htail]⟩
  turning _ := by rw [hhead]

end Keeps

/-- What a push knows survives the steps of the others. -/
theorem PushKnows.mono {f : PushFrame α} {pt : PushPoint} (h : PushKnows G s u f pt)
    (hk : Keeps t q G G' s s') (hu : u ≠ t) (hp : Placed s (.push f pt))
    (hlink : (linking (.push f pt : Pc ι α)).isSome → q.bind linking = none) :
    PushKnows G' s' u f pt := by
  have hlast : (linking (.push f pt : Pc ι α)).isSome → G'.last = G.last := fun hs ↦
    (hk.linking (hlink hs)).1
  have hbase : ∀ {n}, (linking (.push f pt : Pc ι α)).isSome →
      Reserved G s f ∧ G.last = n → Reserved G' s' f ∧ G'.last = n := fun hs hr ↦
    ⟨hk.reserved hr.1, (hlast hs).trans hr.2⟩
  cases pt with
  | cas =>
    intro hf
    obtain ⟨he, hb⟩ := hk.tail f.tail hp.2 hp.1.2 hf
    rw [hb]
    exact h he
  | poolHead | poolTail | alloc => exact hbase rfl h
  | poolPop p =>
    refine ⟨hbase rfl h.1, ?_⟩
    cases p with
    | popTake pos | popPublish pos x =>
      obtain ⟨b, hb, hc⟩ := h.2
      exact ⟨b, getElem?_of_prefix hk.pool hb, hk.hasClean hu hc⟩
    | _ => trivial
  | linkNext b => exact ⟨hbase rfl h.1, hk.hasClean hu h.2⟩
  | cachePtr b | cacheTag b | linkBlock b =>
    refine ⟨hbase rfl h.1, ?_⟩
    rw [hlast rfl, hk.chain _ le_rfl]
    exact h.2
  | linkIndex =>
    refine ⟨hbase rfl h.1, ?_⟩
    rw [hlast rfl, hk.chain _ le_rfl, (hk.linking (hlink rfl)).2]
    exact h.2
  | write | publish => exact hk.reserved h

/-- What a pop knows survives the steps of the others. -/
theorem PopKnows.mono {f : PopFrame} {pt : PopPoint α} (h : PopKnows G s u f pt)
    (hk : Keeps t q G G' s s') (hu : u ≠ t) (hp : Placed s (.pop f pt))
    (hturn : (turning (.pop f pt : Pc ι α)).isSome → q.bind turning = none) :
    PopKnows G' s' u f pt := by
  cases pt with
  | tail | cas n =>
    intro hf
    obtain ⟨he, hb⟩ := hk.head f.head hp.2.1 hp.1 hf
    rw [hb]
    exact h he
  | waitNext | waitWrite => exact hk.atSlot h
  | getNext | headBlock => exact ⟨hk.atSlot h.1, hk.atSlot h.2⟩
  | headIndex =>
    refine ⟨hk.atSlot h.1, ?_⟩
    rw [hk.turning (hturn rfl)]
    exact hk.atSlot h.2
  | take => exact ⟨hk.atSlot h.1, hk.pushed _ h.2⟩
  | mark | count => exact ⟨hk.atSlot h.1, h.2.mono hk.pushes⟩
  | retireLoad | retireNext => exact ⟨hk.hasSpent hu h.1, h.2.mono hk.pushes⟩
  | retireCas v next =>
    refine ⟨⟨hk.hasSpent hu h.1.1, ?_⟩, h.2.mono hk.pushes⟩
    rw [(hk.owned u _ hu h.1.1.1).2]
    exact h.1.2
  | retireCount => exact Brings.mono h hk.pushes

/-- What a reclamation knows survives the steps of the others. -/
theorem ReclaimKnows.mono {pt : ReclaimPoint ι} (h : ReclaimKnows G s u pt)
    (hk : Keeps t q G G' s s') (hu : u ≠ t) : ReclaimKnows G' s' u pt := by
  cases pt with
  | count | enter | swap | leave => trivial
  | zero b => exact hk.hoard hu h
  | loadNext b => exact ⟨h.1, hk.hoard hu h.2⟩
  | poolHead | poolTail | free | resetNext => exact ⟨hk.hasSpent hu h.1, hk.hoard hu h.2⟩
  | resetCount b next =>
    refine ⟨⟨hk.hasSpent hu h.1.1, ?_⟩, hk.hoard hu h.2⟩
    rw [(hk.owned u _ hu h.1.1.1).2]
    exact h.1.2
  | resetSlot b next i =>
    obtain ⟨hr, hx⟩ := hk.owned u _ hu h.1.1
    exact ⟨⟨hr, hx ▸ h.1.2⟩, hk.hoard hu h.2⟩
  | poolPush b next p => exact ⟨fun hp ↦ hk.hasClean hu (h.1 hp), hk.hoard hu h.2⟩

/-- **What a thread knows at its program point survives the steps of the others.** The two side
conditions are for the points that assume to be the only one of their kind. -/
theorem Knows.mono {p : Pc ι α} (h : Knows G s u p) (hk : Keeps t q G G' s s') (hu : u ≠ t)
    (hp : Placed s p) (hlink : (AtomicVec.linking p).isSome → q.bind AtomicVec.linking = none)
    (hturn : (AtomicVec.turning p).isSome → q.bind AtomicVec.turning = none) :
    Knows G' s' u p := by
  cases p with
  | push f pt => exact PushKnows.mono h hk hu hp hlink
  | pop f pt => exact PopKnows.mono h hk hu hp hturn
  | popUnpin res b p => exact fun k x hx ↦ (h k x hx).mono hk.pushes
  | reclaim r pt => exact ⟨fun k x hx ↦ (h.1 k x hx).mono hk.pushes, ReclaimKnows.mono h.2 hk hu⟩
  | _ => trivial

end Keeps

/-! ### The invariant

The layers together, and the rule for steps that change no memory. -/

/-- **The invariant.** -/
structure Inv (G : Ghost ι) (c : Config ι (Store ι α) (Pc ι α)) : Prop where
  ledger : Ledger G.toPhases c
  chain : Chain G c.shared
  stock : Stock G c.shared
  knows : ∀ t p, c.pcs t = some p → Knows G c.shared t p
  delivered : ∀ k x, (k, x) ∈ c.shared.returned → Brings c.shared k x

/-- Two stores that differ at most in what the slots and the blocks do not depend on. -/
structure SameMemory (s s' : Store ι α) : Prop where
  heap : s'.heap = s.heap
  allocated : s'.allocated = s.allocated
  retired : s'.retired = s.retired
  pushes : s'.pushes = s.pushes
  pops : s'.pops = s.pops
  returned : s'.returned = s.returned
  tail : s'.tail = s.tail
  head : s'.head = s.head
  poolHead : s'.freeList.head = s.freeList.head
  poolPushes : s'.freeList.pushes = s.freeList.pushes

namespace SameMemory

variable {G : Ghost ι} {s s' : Store ι α} {t : ι} {q : Option (Pc ι α)}

theorem refl (s : Store ι α) : SameMemory s s := ⟨rfl, rfl, rfl, rfl, rfl, rfl, rfl, rfl, rfl, rfl⟩

theorem of_coord (l : Coord.Store ι) : SameMemory s { s with coordLock := l } :=
  ⟨rfl, rfl, rfl, rfl, rfl, rfl, rfl, rfl, rfl, rfl⟩

/-- A step that has to do with the pool, and moves no block. -/
theorem of_pool {l : AtomicBuffer.Store ℕ} (hh : l.head = s.freeList.head)
    (hp : l.pushes = s.freeList.pushes) : SameMemory s { s with freeList := l } :=
  ⟨rfl, rfl, rfl, rfl, rfl, rfl, rfl, rfl, hh, hp⟩

/-- The chain of blocks is a matter of the memory. -/
theorem chain (hs : SameMemory s s') (h : Chain G s) : Chain G s' :=
  h.congr rfl rfl rfl (fun _ _ ↦ Iff.rfl) (fun _ ↦ Or.inl (by rw [hs.heap])) hs.pushes hs.pops
    (by rw [hs.tail]; exact h.tail) (by rw [hs.head]; exact h.head)

/-- So are the blocks outside the chain. -/
theorem stock (hs : SameMemory s s') (h : Stock G s) : Stock G s' :=
  h.congr (fun _ ↦ Iff.rfl) (fun _ ↦ Iff.rfl) (fun _ _ ↦ Iff.rfl) (fun _ _ ↦ by rw [hs.heap])
    hs.allocated hs.retired hs.poolHead hs.poolPushes

/-- A step that changes no memory keeps everything for everybody. -/
theorem keeps (hs : SameMemory s s') : Keeps t q G G s s' :=
  .of_memory (fun _ _ _ hb ↦ ⟨hb, by rw [hs.heap]⟩) rfl rfl (fun _ hk ↦ hk) hs.pushes
    (by rw [hs.poolPushes]) hs.tail hs.head

end SameMemory

variable [DecidableEq ι]

section Put

variable {G G' : Ghost ι} {c : Config ι (Store ι α) (Pc ι α)} {t : ι} {s' : Store ι α}
  {o : Outcome (Pc ι α) (Ret α)}

/-- **A step keeps the invariant** if it keeps each layer, leaves the others what they rely on, and
establishes what its own thread relies on next. -/
theorem Inv.put (h : Inv G c) (hE : Ends c) (hl : Ledger G'.toPhases (c.put t (s', o)))
    (hc : Chain G' s') (hs : Stock G' s') (hk : Keeps t (c.pcs t) G G' c.shared s')
    (hq : ∀ q, o.pc = some q → Knows G' s' t q)
    (hd : ∀ k x, (k, x) ∈ s'.returned → Brings s' k x) : Inv G' (c.put t (s', o)) where
  ledger := hl
  chain := hc
  stock := hs
  knows := by
    refine Config.forall_put (L := fun u s p ↦ Knows G' s u p) hq fun u p hu hp ↦ ?_
    refine (h.knows u p hp).mono hk hu (hE.placed u p hp) (fun hs ↦ ?_) fun hs ↦ ?_
    · -- at most one thread is at each window
      by_contra hne
      refine hu (hE.linking.unique u t (by rw [hp]; exact hs) ?_)
      exact Option.isSome_iff_ne_none.2 hne
    · by_contra hne
      refine hu (hE.turning.unique u t (by rw [hp]; exact hs) ?_)
      exact Option.isSome_iff_ne_none.2 hne
  delivered := hd

/-- A step that changes no memory and moves no slot. -/
theorem Inv.put_same (h : Inv G c) (hE : Ends c) (hs : SameMemory c.shared s')
    (hq : o.pc.bind pushClaim = (c.pcs t).bind pushClaim)
    (hq' : o.pc.bind popClaim = (c.pcs t).bind popClaim)
    (hk : ∀ q, o.pc = some q → Knows G s' t q) : Inv G (c.put t (s', o)) := by
  refine h.put hE (h.ledger.put_same hs.pushes hs.pops hs.returned hq hq') (hs.chain h.chain)
    (hs.stock h.stock) hs.keeps hk fun k x hx ↦ ?_
  rw [hs.returned] at hx
  exact (h.delivered k x hx).mono (by rw [hs.pushes])

end Put

end AtomicVec

end Crossync
