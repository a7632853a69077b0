import Mathlib.Data.List.Forall2
import Crossync.Atomic.HashMapRep
import Crossync.Atomic.HashMapLocks

/-!
# The chains of a shared `AtomicHashMap`

Where every entry is, along every run. An entry belongs to the chain of a slot or to one running
call, which has allocated, unlinked or detached it and not yet linked or freed it (`Region`). The
regions are disjoint, so a write to an entry of one of them is invisible in all others.

## What a step may touch

A call changes its own region, and the chain of a slot it holds for writing. Since such a hold is
the only one on its slot, whatever another call knows about the slot it is in, or a guard about its
entry, is about a chain that the step leaves alone (`Pc.Local.frame`). `Touches` states this once,
and `Shape.step` turns what a step does to its own regions into the invariant `Shape` of the next
configuration.

## Counting

`count` lags behind the chains inside the critical section of a slot. `E i j` is what slot `j`
contributes to the count of shard `i`: the length of its chain, except between the store of a link
and the update of the count, where the call at that point knows the difference.

## Reading the invariant

`Shape L c A E` has clauses of four kinds:

* the chain of every slot is the region of that slot, in the order of the links, no address is in
  two regions, and every address in a region is allocated;
* what every call knows about its own region is what its program point says (`Pc.Local`), the slot
  it is about exists (`Pc.Fits`), and a thread outside the map has no region;
* the entry of every guard is in the region of its slot;
* the count of a shard is the sum of what its slots contribute, and a slot contributes the length of
  its chain unless a call is at the update of the count.

That no access has met an entry which is not there follows at each access from the first two, and is
recorded in the last field.

`A` gives the region of every slot and of every thread, and `E` the contributions. Both are
existentially quantified along a run: no code reads them, and `Regions.move` is how an address
changes its region.

## What is proved where

This module has the definitions, the bounds on slots (`Pc.Fits`), and the frame of a step. That
every step keeps the invariant is `Atomic.HashMapShape`. What the chains contain as a map is
`Atomic.HashMapContent`, and nothing here speaks of keys and values.
-/

open Interleave Linked

namespace Crossync

namespace AtomicHashMap

namespace Shared

variable {ι K V : Type*} {L : Layout}

/-! ### Slots in bounds

Every program point that names a slot names one that exists. The lemmas follow the functions that
compute program points. -/

/-- The slot that the caller of a lock goes on at. -/
def After.index : After ι K V → Option ℕ
  | .visit v => some v.slot
  | _ => none

def Next.index : Next ι K V → Option ℕ
  | .locked v | .unlocked v _ => some v.slot
  | _ => none

/-- The slot a program point is about. -/
def Pc.index : Pc ι K V → Option ℕ
  | .shard _ k => k.index
  | .slot _ k => k.index
  | .loadHead v | .walk v _ _ | .replace v _ _ | .newEntry v _ _ | .linkEntry v _ | .countUp v
  | .unlinkLoad v _ _ | .unlinkStore v _ _ _ | .countDown v _ | .freeEntry v _ _ => some v.slot
  | .detachSwap _ j _ | .detachCount _ j _ _ _ _ | .detachSub _ j _ _ _ => some j
  | _ => none

/-- The points of `insert` and `remove` have the slot for writing. -/
def Pc.Mutates : Pc ι K V → Prop
  | .replace v _ _ | .newEntry v _ _ | .linkEntry v _ | .countUp v | .unlinkLoad v _ _
  | .unlinkStore v _ _ _ | .countDown v _ | .freeEntry v _ _ => v.job.reads = false
  | _ => True

/-- The slot is one of the shard's, taken the way the program point needs it. -/
structure Pc.Fits (L : Layout) (p : Pc ι K V) : Prop where
  slot : ∀ j, p.index = some j → j < L.capacity
  mutates : p.Mutates

section Fits

variable {t : ι} {v : Visit K V}

theorem fits_of_slot {p : Pc ι K V} (hp : p.index = some v.slot) (hm : p.Mutates)
    (hv : v.slot < L.capacity) : p.Fits L := by
  refine ⟨fun j hj ↦ ?_, hm⟩
  rw [hp] at hj
  cases hj
  exact hv

theorem fits_of_none {p : Pc ι K V} (hp : p.index = none) (hm : p.Mutates) : p.Fits L := by
  refine ⟨fun j hj ↦ ?_, hm⟩
  rw [hp] at hj
  cases hj

theorem fits_missing (hv : v.slot < L.capacity) : (missing t v).Fits L := by
  unfold missing
  split
  case h_1 hjob => exact fits_of_slot rfl (congrArg Job.reads hjob) hv
  all_goals exact fits_of_slot rfl trivial hv

theorem fits_walkNext (prev cur : ℕ) (hv : v.slot < L.capacity) :
    (walkNext t v prev cur).Fits L := by
  unfold walkNext
  split_ifs
  · exact fits_missing hv
  · exact fits_of_slot rfl trivial hv

theorem fits_hit (prev cur : ℕ) (hv : v.slot < L.capacity) : (hit t v prev cur).Fits L := by
  unfold hit
  split
  case h_1 hjob => exact fits_of_slot rfl (congrArg Job.reads hjob) hv
  case h_2 hjob => exact fits_of_slot rfl (congrArg Job.reads hjob) hv
  · exact fits_of_slot rfl trivial hv
  · exact fits_of_none rfl trivial
  · exact fits_of_none rfl trivial
  · exact fits_of_slot rfl trivial hv

/-- Looking at an entry does not change the slot of the visit. -/
@[simp] theorem Visit.see_slot (v : Visit K V) (e : Entry K V) : (v.see e).slot = v.slot := by
  unfold Visit.see
  split <;> rfl

theorem fits_visitNext (i j : ℕ) (seen : List (K × V)) :
    (visitNext L i j seen : Pc ι K V).Fits L := by
  unfold visitNext
  split_ifs with hj
  · exact fits_of_slot (v := ⟨.asVec, i, j, seen⟩) rfl trivial hj
  · exact fits_of_none rfl trivial

theorem fits_visited (r : Ret ι K V) : (visited L v r).Fits L := by
  unfold visited
  split
  · exact fits_visitNext _ _ _
  · exact fits_of_none rfl trivial

theorem fits_visit (hv : v.slot < L.capacity) : (visit L v : Pc ι K V).Fits L := by
  unfold visit
  split
  · exact fits_visitNext _ _ _
  · exact fits_of_slot rfl trivial hv

theorem fits_backOutNext (i j n : ℕ) (b : Bool) : (backOutNext t i j n b : Pc ι K V).Fits L := by
  unfold backOutNext
  split_ifs <;> exact fits_of_none rfl trivial

theorem fits_releaseNext (i j : ℕ) (chains : List ℕ) :
    (releaseNext L t i j chains : Pc ι K V).Fits L := by
  unfold releaseNext
  split_ifs <;> exact fits_of_none rfl trivial

theorem fits_swapNext (i j : ℕ) (chains : List ℕ) :
    (swapNext L t i j chains : Pc ι K V).Fits L := by
  unfold swapNext
  split_ifs with hj
  · refine ⟨?_, trivial⟩
    rintro _ ⟨⟩
    exact hj
  · exact fits_releaseNext _ _ _

theorem fits_detachNext (i j : ℕ) : (detachNext L t i j : Pc ι K V).Fits L := by
  unfold detachNext
  split_ifs
  · exact fits_of_none rfl trivial
  · exact fits_swapNext _ _ _

theorem fits_countNext {i j : ℕ} (chains : List ℕ) (chain cur count : ℕ) (hj : j < L.capacity) :
    (countNext i j chains chain cur count : Pc ι K V).Fits L := by
  unfold countNext
  split_ifs <;> refine ⟨?_, trivial⟩ <;> rintro _ ⟨⟩ <;> exact hj

theorem fits_inspectNext (i j : ℕ) : (inspectNext L i j : Pc ι K V).Fits L := by
  unfold inspectNext
  split_ifs <;> exact fits_of_none rfl trivial

theorem fits_clearNext (i : ℕ) :
    ∀ q, (clearNext L i : Outcome (Pc ι K V) (Ret ι K V)).pc = some q → q.Fits L := by
  unfold clearNext
  split_ifs
  · rintro _ ⟨⟩
    exact fits_of_none rfl trivial
  · rintro _ ⟨⟩

theorem fits_lenNext (i : ℕ) (n : ℤ) :
    ∀ q, (lenNext L i n : Outcome (Pc ι K V) (Ret ι K V)).pc = some q → q.Fits L := by
  unfold lenNext
  split_ifs
  · rintro _ ⟨⟩
    exact fits_of_none rfl trivial
  · rintro _ ⟨⟩

theorem fits_asVecNext (hL : 0 < L.capacity) (i : ℕ) (seen : List (K × V)) :
    ∀ q, (asVecNext L i seen : Outcome (Pc ι K V) (Ret ι K V)).pc = some q → q.Fits L := by
  unfold asVecNext
  split_ifs
  · rintro _ ⟨⟩
    exact fits_of_slot (v := ⟨.asVec, i, 0, seen⟩) rfl trivial hL
  · rintro _ ⟨⟩

theorem fits_resume [DecidableEq ι] (hL : 0 < L.capacity) {s : Store ι K V} {p : RawMutex.Pc}
    {k : After ι K V} (hp : (.shard p k : Pc ι K V).Fits L) (r : RawMutex.Ret) :
    ∀ q, (resume L t s k r).2.pc = some q → q.Fits L := by
  unfold resume
  split
  case h_1 v => exact fun q hq ↦ Option.some.inj hq ▸ fits_visit (hp.slot _ rfl)
  case h_2 => exact fits_asVecNext hL _ _
  case h_4 => exact fits_lenNext _ _
  case h_7 => exact fun q hq ↦ Option.some.inj hq ▸ fits_detachNext _ _
  case h_9 => exact fun q hq ↦ Option.some.inj hq ▸ fits_inspectNext _ _
  all_goals rintro _ ⟨⟩
  all_goals exact fits_of_none rfl trivial

theorem fits_resumeSlot {s : Store ι K V} {p : SerialMutex.Pc ι} {k : Next ι K V}
    (hp : (.slot p k : Pc ι K V).Fits L) (r : SerialMutex.Ret) :
    ∀ q, (resumeSlot L t s k r).2.pc = some q → q.Fits L := by
  unfold resumeSlot
  split
  case h_1 v _ => exact fun q hq ↦ Option.some.inj hq ▸ fits_of_slot rfl trivial (hp.slot _ rfl)
  case h_3 => exact fun q hq ↦ Option.some.inj hq ▸ fits_visited _
  case h_7 => exact fun q hq ↦ Option.some.inj hq ▸ fits_detachNext _ _
  case h_9 => exact fun q hq ↦ Option.some.inj hq ▸ fits_backOutNext _ _ _ _
  case h_10 => exact fun q hq ↦ Option.some.inj hq ▸ fits_releaseNext _ _ _
  all_goals rintro _ ⟨⟩
  all_goals exact fits_of_none rfl trivial

variable [Fintype ι] [BEq K] [Hashable K] {ids : SerialMutex.OwnerIds ι} {adaptive : ℕ}
  {ch : Choice ι}
  {s s' : Store ι K V} {o : Outcome (Pc ι K V) (Ret ι K V)}

omit [Fintype ι] in
/-- Every access of the map leads to a point in bounds. -/
theorem Access.fits {p : Pc ι K V} (ha : Access L ids t s p s' o) (hp : p.Fits L) :
    ∀ q, o.pc = some q → q.Fits L := by
  have hgo : ∀ {r : Pc ι K V}, r.Fits L →
    ∀ q, (Outcome.goto r : Outcome (Pc ι K V) (Ret ι K V)).pc = some q →
      q.Fits L := fun hr q hq ↦ Option.some.inj hq ▸ hr
  cases ha with
  | astray => exact hgo hp
  | loadHead => exact hgo (fits_walkNext _ _ (hp.slot _ rfl))
  | hit => exact hgo (fits_hit _ _ (hp.slot _ rfl))
  | pass => exact hgo (fits_walkNext _ _ (by rw [Visit.see_slot]; exact hp.slot _ rfl))
  | replace | countUp | freeEntry => exact hgo (fits_of_slot rfl trivial (hp.slot _ rfl))
  | newEntry | linkEntry | unlinkLoad | unlinkHead | unlinkAfter | countDown =>
    exact hgo (fits_of_slot rfl hp.mutates (hp.slot _ rfl))
  | lenLoad | reentrant | dropNull | dropEntry => exact hgo (fits_of_none rfl trivial)
  | owned => exact hgo (fits_backOutNext _ _ _ _)
  | detachSwap | detachCount => exact hgo (fits_countNext _ _ _ _ (hp.slot _ rfl))
  | detachSub => exact hgo (fits_swapNext _ _ _)
  | inspect => exact hgo (fits_inspectNext _ _)
  | dropped => exact fits_clearNext _

/-- Every step of a call, those inside the locks included, leads to a point in bounds. -/
theorem exec_fits [DecidableEq ι] (hL : 0 < L.capacity) {p : Pc ι K V} (hp : p.Fits L)
    (h : exec L ids adaptive t ch s p = some (s', o)) : ∀ q, o.pc = some q → q.Fits L := by
  obtain ⟨q, k, rfl⟩ | ⟨q, k, rfl⟩ | ha := exec_cases h
  · simp only [exec] at h
    split at h
    · cases h
    · rename_i l p' hr
      cases h
      rintro _ ⟨⟩
      exact ⟨hp.slot, trivial⟩
    · have ho : _ = o := congrArg Prod.snd (Option.some.inj h)
      exact ho ▸ fits_resume hL hp _
  · simp only [exec] at h
    split at h
    · cases h
    · rename_i l p' hr
      cases h
      rintro _ ⟨⟩
      exact ⟨hp.slot, trivial⟩
    · have ho : _ = o := congrArg Prod.snd (Option.some.inj h)
      exact ho ▸ fits_resumeSlot hp _
  · exact ha.fits hp

omit [Fintype ι] [BEq K] in
/-- Every call starts at a point in bounds: the hash picks an existing slot. -/
theorem enter_fits [DecidableEq ι] (hL : 0 < L.capacity) {op : Op ι K V}
    (h : enter L t op s = some (s', o)) :
    ∀ q, o.pc = some q → q.Fits L := by
  have hkey : ∀ (key : K) (job : Job K V),
      some (s, (.goto (sharing (.visit (visitOf L key job))) : Outcome (Pc ι K V) (Ret ι K V))) =
        some (s', o) → ∀ q, o.pc = some q → q.Fits L := by
    rintro key job ⟨⟩ _ ⟨⟩
    exact fits_of_slot (v := visitOf L key job) rfl trivial (Nat.mod_lt _ hL)
  cases op with
  | insert key value | get key | getMut key | remove key | containsKey key => exact hkey _ _ h
  | clear =>
    cases h
    exact fits_clearNext 0
  | len =>
    cases h
    exact fits_lenNext 0 0
  | asVec =>
    cases h
    exact fits_asVecNext hL 0 []
  | deref g | write g v =>
    simp only [enter] at h
    split_ifs at h
    split at h <;> cases h <;> rintro _ ⟨⟩
  | dropGuard g =>
    simp only [enter] at h
    split_ifs at h
    cases h
    rintro _ ⟨⟩
    exact fits_of_none rfl trivial
  | sendGuard g u =>
    simp only [enter] at h
    split_ifs at h
    obtain ⟨x, hx, hx'⟩ := Option.map_eq_some_iff.1 h
    cases hx'
    rintro _ ⟨⟩

end Fits

/-! ### Where the entries are

Regions of addresses, one for each slot and one for each running call, and what a call knows about
its own. -/

/-- Who an entry belongs to: the chain of a slot, or a running call. -/
inductive Region (ι : Type*) where
  | slot (i j : ℕ)
  | thread (t : ι)
  deriving DecidableEq

/-- The addresses of the entries of each region. -/
abbrev Regions (ι : Type*) := Region ι → List ℕ

/-- These entries make up chains that no slot heads. -/
def Detached (heap : Mem (Entry K V)) (own chains : List ℕ) : Prop :=
  ∃ ass, List.Forall₂ (Chain heap) chains ass ∧ own = ass.flatten

/-- A walk is at `cur`, and `prev` is the entry before it. -/
def At (as : List ℕ) (prev cur : ℕ) : Prop :=
  ∃ pre post, as = pre ++ cur :: post ∧ prev = pre.getLast?.getD 0

/-- What the caller of a shard lock knows, with the entries `own` of its region. -/
def After.Local (heap : Mem (Entry K V)) (A : Regions ι) (own : List ℕ) : After ι K V → Prop
  | .guard g => own = [] ∧ g.entry ∈ A (.slot g.hold.shard g.hold.slot)
  | .detached _ chains => Detached heap own chains
  | _ => own = []

/-- What the caller of a slot mutex knows. -/
def Next.Local (heap : Mem (Entry K V)) (own : List ℕ) : Next ι K V → Prop
  | .detached _ _ chains => Detached heap own chains
  | _ => own = []

/-- **What a call knows** at its program point: where it is in the chain of its slot, what its own
entries are, and how far the count of its slot is behind. -/
def Pc.Local (s : Store ι K V) (A : Regions ι) (E : ℕ → ℕ → ℕ) (own : List ℕ) : Pc ι K V → Prop
  | .shard _ k => k.Local s.heap A own
  | .slot _ k => k.Local s.heap own
  | .walk v prev cur | .unlinkLoad v prev cur => own = [] ∧ At (A (.slot v.shard v.slot)) prev cur
  | .replace v cur _ => own = [] ∧ cur ∈ A (.slot v.shard v.slot)
  | .linkEntry v entry =>
    own = [entry] ∧ entry ≠ 0 ∧ ∃ e, s.heap entry = some e ∧ e.next = s.heads v.shard v.slot
  | .countUp v => own = [] ∧ E v.shard v.slot + 1 = (A (.slot v.shard v.slot)).length
  | .unlinkStore v prev cur next =>
    own = [] ∧ At (A (.slot v.shard v.slot)) prev cur ∧ ∃ e, s.heap cur = some e ∧ e.next = next
  | .countDown v cur => own = [cur] ∧ E v.shard v.slot = (A (.slot v.shard v.slot)).length + 1
  | .freeEntry _ cur _ => own = [cur]
  | .detachSwap _ _ chains | .dropChains _ chains => Detached s.heap own chains
  | .detachCount i j chains chain cur count =>
    ∃ own' pre post, own = own' ++ (pre ++ cur :: post) ∧ Detached s.heap own' chains ∧
      Chain s.heap chain (pre ++ cur :: post) ∧ count = pre.length ∧ A (.slot i j) = [] ∧
      E i j = (pre ++ cur :: post).length
  | .detachSub i j chains chain count =>
    ∃ own' as, own = own' ++ as ∧ Detached s.heap own' chains ∧ Chain s.heap chain as ∧
      count = as.length ∧ A (.slot i j) = [] ∧ E i j = as.length
  | _ => own = []

/-- The slot whose count is behind at a program point. -/
def Pc.Adjusts (i j : ℕ) : Pc ι K V → Prop
  | .countUp v | .countDown v _ => v.shard = i ∧ v.slot = j
  | .detachCount i' j' _ _ _ _ | .detachSub i' j' _ _ _ => i' = i ∧ j' = j
  | _ => False

section Frame

variable {s s' : Store ι K V} {A A' : Regions ι} {E E' : ℕ → ℕ → ℕ} {own : List ℕ} {u : ι}

theorem Detached.congr {heap heap' : Mem (Entry K V)} {chains : List ℕ}
    (h : Detached heap own chains) (hown : ∀ a ∈ own, heap' a = heap a) :
    Detached heap' own chains := by
  obtain ⟨ass, hc, rfl⟩ := h
  exact ⟨ass, chains_congr hc fun a ha ↦ by rw [hown a ha], rfl⟩

/-- A `clear` that has detached nothing owns nothing. -/
theorem detached_nil (heap : Mem (Entry K V)) : Detached heap [] [] := ⟨[], .nil, rfl⟩

/-- The chain of a slot, its entries and its count are as before. -/
def SlotKept (s s' : Store ι K V) (A A' : Regions ι) (E E' : ℕ → ℕ → ℕ) (i j : ℕ) : Prop :=
  A' (.slot i j) = A (.slot i j) ∧ E' i j = E i j ∧ s'.heads i j = s.heads i j ∧
    ∀ a ∈ A (.slot i j), s'.heap a = s.heap a

/-- **Frame.** What a call knows depends on its own entries and on the slots it holds. -/
theorem Pc.Local.frame {p : Pc ι K V} (h : p.Local s A E own) (hfit : p.Fits L)
    (hslot : ∀ x ∈ p.hands L u, SlotKept s s' A A' E E' x.shard x.slot)
    (hown : ∀ a ∈ own, s'.heap a = s.heap a) : p.Local s' A' E' own := by
  have hin : ∀ i j, j < L.capacity → (⟨i, j, false, u⟩ : Hold ι) ∈ taken u i 0 L.capacity :=
    fun i j hj ↦
    mem_taken.2 ⟨j, Nat.zero_le _, hj, rfl⟩
  have hvisit : ∀ v : Visit K V, v.hold u ∈ p.hands L u → SlotKept s s' A A' E E' v.shard v.slot :=
    fun v hv ↦ hslot _ hv
  cases p with
  | shard p k =>
    cases k with
    | guard g =>
      obtain ⟨ho, hg⟩ := h
      exact ⟨ho, (hslot g.hold (List.mem_cons_self ..)).1 ▸ hg⟩
    | detached i chains => exact Detached.congr h hown
    | _ => exact h
  | slot p k =>
    cases k with
    | detached i j chains => exact Detached.congr h hown
    | _ => exact h
  | walk v prev cur | unlinkLoad v prev cur =>
    obtain ⟨hA, -⟩ := hvisit v (List.mem_cons_self ..)
    exact ⟨h.1, by rw [hA]; exact h.2⟩
  | replace v cur value =>
    obtain ⟨hA, -⟩ := hvisit v (List.mem_cons_self ..)
    exact ⟨h.1, by rw [hA]; exact h.2⟩
  | linkEntry v entry =>
    obtain ⟨-, -, hheads, -⟩ := hvisit v (List.mem_cons_self ..)
    obtain ⟨ho, hne, e, he, hn⟩ := h
    refine ⟨ho, hne, e, ?_, hn.trans hheads.symm⟩
    rw [hown entry (ho ▸ List.mem_cons_self ..)]
    exact he
  | countUp v =>
    obtain ⟨hA, hE, -⟩ := hvisit v (List.mem_cons_self ..)
    exact ⟨h.1, by rw [hA, hE]; exact h.2⟩
  | unlinkStore v prev cur next =>
    obtain ⟨hA, -, -, hheap⟩ := hvisit v (List.mem_cons_self ..)
    obtain ⟨ho, hat, e, he, hn⟩ := h
    refine ⟨ho, by rw [hA]; exact hat, e, ?_, hn⟩
    obtain ⟨pre, post, has, -⟩ := hat
    rw [hheap cur (by rw [has]; simp)]
    exact he
  | countDown v cur =>
    obtain ⟨hA, hE, -⟩ := hvisit v (List.mem_cons_self ..)
    exact ⟨h.1, by rw [hA, hE]; exact h.2⟩
  | detachSwap i j chains | dropChains i chains => exact Detached.congr h hown
  | detachCount i j chains chain cur count =>
    obtain ⟨hA, hE, -⟩ := hslot _ (hin i j (hfit.slot j rfl))
    obtain ⟨own', pre, post, rfl, hd, hc, hn, hnil, hlen⟩ := h
    exact ⟨own', pre, post, rfl, hd.congr fun a ha ↦ hown a (List.mem_append_left _ ha),
      hc.congr fun a ha ↦ by rw [hown a (List.mem_append_right _ ha)], hn, hA.trans hnil,
      hE.trans hlen⟩
  | detachSub i j chains chain count =>
    obtain ⟨hA, hE, -⟩ := hslot _ (hin i j (hfit.slot j rfl))
    obtain ⟨own', as, rfl, hd, hc, hn, hnil, hlen⟩ := h
    exact ⟨own', as, rfl, hd.congr fun a ha ↦ hown a (List.mem_append_left _ ha),
      hc.congr fun a ha ↦ by rw [hown a (List.mem_append_right _ ha)], hn, hA.trans hnil,
      hE.trans hlen⟩
  | loadHead v | newEntry v key value | freeEntry v cur value | lenLoad i n | owned i j
  | inspect i j =>
    exact h

end Frame

/-! ### The invariant

`Shape`, and the rule that carries it over a step that touches few regions. -/

variable {ids : SerialMutex.OwnerIds ι}

/-- **Every entry is where it belongs**, for the regions `A` and the contributions `E` to the
counts. -/
structure Shape (L : Layout) (c : Config ι (Store ι K V) (Pc ι K V)) (A : Regions ι)
    (E : ℕ → ℕ → ℕ) :
    Prop where
  /-- Every slot heads the chain of its region. -/
  chain : ∀ i j, Chain c.shared.heap (c.shared.heads i j) (A (.slot i j))
  nodup : ∀ r, (A r).Nodup
  disjoint : ∀ r r' a, a ∈ A r → a ∈ A r' → r = r'
  stored : ∀ r, ∀ a ∈ A r, ∃ e, c.shared.heap a = some e
  fits : ∀ t p, c.pcs t = some p → p.Fits L
  here : ∀ t p, c.pcs t = some p → p.Local c.shared A E (A (.thread t))
  outside : ∀ t, c.pcs t = none → A (.thread t) = []
  /-- The entry of a returned guard is linked in its slot. -/
  guards : ∀ t, ∀ g ∈ c.shared.guards t, g.entry ∈ A (.slot g.hold.shard g.hold.slot)
  count : ∀ i, c.shared.count i = (((List.range L.capacity).map (E i)).sum : ℕ)
  /-- Nothing is missing from the count of a slot unless a call is at the update. -/
  settled : ∀ i j, (∀ t p, c.pcs t = some p → ¬ p.Adjusts i j) → E i j = (A (.slot i j)).length
  defined : c.shared.dangling = false

/-- **A step of `t` touches the regions `T`**: its own, and slots it holds for writing. -/
structure Touches (L : Layout) (c : Config ι (Store ι K V) (Pc ι K V)) (t : ι) (s' : Store ι K V)
    (A A' : Regions ι) (E E' : ℕ → ℕ → ℕ) (T : Region ι → Prop) : Prop where
  mine : ∀ r, T r → r = .thread t ∨ ∃ x ∈ holdsOf L c t, x.read = false ∧ r = .slot x.shard x.slot
  keep : ∀ r, ¬ T r → A' r = A r ∧ ∀ a ∈ A r, s'.heap a = c.shared.heap a
  heads : ∀ i j, ¬ T (.slot i j) → s'.heads i j = c.shared.heads i j ∧ E' i j = E i j
  chain : ∀ i j, T (.slot i j) → Chain s'.heap (s'.heads i j) (A' (.slot i j))
  nodup : ∀ r, T r → (A' r).Nodup
  apart : ∀ r r' a, T r → T r' → a ∈ A' r → a ∈ A' r' → r = r'
  /-- What is in a touched region was in one, or is newly allocated. -/
  origin : ∀ r, T r → ∀ a ∈ A' r, (∃ r', T r' ∧ a ∈ A r') ∨ c.shared.heap a = none
  stored : ∀ r, T r → ∀ a ∈ A' r, ∃ e, s'.heap a = some e

section Step

variable {c : Config ι (Store ι K V) (Pc ι K V)} {A A' : Regions ι} {E E' : ℕ → ℕ → ℕ} {t : ι}
  {s' : Store ι K V} {T : Region ι → Prop} {o : Outcome (Pc ι K V) (Ret ι K V)}

/-- What a program point has in hand is among the holds of its thread. -/
theorem mem_holdsOf {u : ι} {q : Pc ι K V} {x : Hold ι} (hq : c.pcs u = some q)
    (hx : x ∈ q.hands L u) :
    x ∈ holdsOf L c u := by
  unfold holdsOf
  rw [hq]
  exact List.mem_append_right _ hx

/-- A slot that another call holds is not touched. -/
theorem Touches.not_other [DecidableEq ι] [Fintype ι] (ht : Touches L c t s' A A' E E' T)
    (hl : Locks L ids c) {u : ι} {x : Hold ι} (hu : u ≠ t) (hx : x ∈ holdsOf L c u) :
    ¬ T (.slot x.shard x.slot) := by
  intro hT
  rcases ht.mine _ hT with hr | ⟨y, hy, hw, hr⟩
  · cases hr
  · obtain ⟨hi, hj⟩ := Region.slot.inj hr
    exact hu (hl.sole hy hw hx hi hj).1

/-- **The invariant after a step**, from what the step does to the regions it touches. -/
theorem Shape.step [DecidableEq ι] [Fintype ι] (h : Shape L c A E) (hl : Locks L ids c)
    (ht : Touches L c t s' A A' E E' T) (hfits : ∀ q, o.pc = some q → q.Fits L)
    (hhere : ∀ q, o.pc = some q → q.Local s' A' E' (A' (.thread t)))
    (hout : o.pc = none → A' (.thread t) = [])
    (hguards : ∀ u, ∀ g ∈ s'.guards u, g.entry ∈ A' (.slot g.hold.shard g.hold.slot))
    (hcount : ∀ i, s'.count i = (((List.range L.capacity).map (E' i)).sum : ℕ))
    (hsettled : ∀ i j, T (.slot i j) →
      (∃ q, o.pc = some q ∧ q.Adjusts i j) ∨ E' i j = (A' (.slot i j)).length)
    (hadj : ∀ i j p, c.pcs t = some p → p.Adjusts i j → ¬ T (.slot i j) →
      ∃ q, o.pc = some q ∧ q.Adjusts i j)
    (hdef : s'.dangling = false) : Shape L (c.put t (s', o)) A' E' where
  chain i j := by
    by_cases hT : T (.slot i j)
    · exact ht.chain i j hT
    · obtain ⟨hA, hheap⟩ := ht.keep _ hT
      rw [Config.put_shared, hA]
      show Chain s'.heap (s'.heads i j) _
      rw [(ht.heads i j hT).1]
      exact (h.chain i j).congr fun a ha ↦ by rw [hheap a ha]
  nodup r := by
    by_cases hT : T r
    · exact ht.nodup r hT
    · rw [(ht.keep r hT).1]
      exact h.nodup r
  disjoint := by
    -- an entry of a touched region is not in an untouched one
    have hcross : ∀ r r' a, T r → ¬ T r' → a ∈ A' r → a ∈ A' r' → False := by
      intro r r' a hT hT' ha ha'
      rw [(ht.keep r' hT').1] at ha'
      obtain ⟨r'', hT'', ha''⟩ | hnone := ht.origin r hT a ha
      · exact hT' (h.disjoint _ _ a ha'' ha' ▸ hT'')
      · obtain ⟨e, he⟩ := h.stored r' a ha'
        rw [hnone] at he
        cases he
    intro r r' a ha ha'
    by_cases hT : T r
    · by_cases hT' : T r'
      · exact ht.apart r r' a hT hT' ha ha'
      · exact (hcross r r' a hT hT' ha ha').elim
    · by_cases hT' : T r'
      · exact (hcross r' r a hT' hT ha' ha).elim
      · rw [(ht.keep r hT).1] at ha
        rw [(ht.keep r' hT').1] at ha'
        exact h.disjoint r r' a ha ha'
  stored r a ha := by
    by_cases hT : T r
    · exact ht.stored r hT a ha
    · rw [(ht.keep r hT).1] at ha
      obtain ⟨e, he⟩ := h.stored r a ha
      exact ⟨e, ((ht.keep r hT).2 a ha).trans he⟩
  fits u q hq := by
    by_cases hu : u = t
    · subst hu
      exact hfits q (by simpa using hq)
    · rw [Config.put_pcs_of_ne _ _ hu] at hq
      exact h.fits u q hq
  here u q hq := by
    by_cases hu : u = t
    · subst hu
      exact hhere q (by simpa using hq)
    · rw [Config.put_pcs_of_ne _ _ hu] at hq
      have hT : ¬ T (.thread u) := fun hT ↦ by
        rcases ht.mine _ hT with hr | ⟨y, -, -, hr⟩
        · cases hr
          exact hu rfl
        · cases hr
      obtain ⟨hA, hheap⟩ := ht.keep _ hT
      rw [hA]
      refine (h.here u q hq).frame (u := u) (h.fits u q hq) (fun x hx ↦ ?_) hheap
      have hTx := ht.not_other hl hu (mem_holdsOf hq hx)
      obtain ⟨hAx, hheapx⟩ := ht.keep _ hTx
      obtain ⟨hheads, hE⟩ := ht.heads _ _ hTx
      exact ⟨hAx, hE, hheads, hheapx⟩
  outside u hu' := by
    by_cases hu : u = t
    · subst hu
      exact hout (by simpa using hu')
    · rw [Config.put_pcs_of_ne _ _ hu] at hu'
      have hT : ¬ T (.thread u) := fun hT ↦ by
        rcases ht.mine _ hT with hr | ⟨y, -, -, hr⟩
        · cases hr
          exact hu rfl
        · cases hr
      rw [(ht.keep _ hT).1]
      exact h.outside u hu'
  guards := hguards
  count := hcount
  settled i j hnone := by
    have hself : ∀ q, o.pc = some q → ¬ q.Adjusts i j := fun q hq ↦ hnone t q (by simpa using hq)
    by_cases hT : T (.slot i j)
    · obtain ⟨q, hq, ha⟩ | hlen := hsettled i j hT
      · exact absurd ha (hself q hq)
      · exact hlen
    · rw [(ht.heads i j hT).2, (ht.keep _ hT).1]
      refine h.settled i j fun u p hp ha ↦ ?_
      by_cases hu : u = t
      · subst hu
        obtain ⟨q, hq, ha'⟩ := hadj i j p hp ha hT
        exact hself q hq ha'
      · exact hnone u p (by rwa [Config.put_pcs_of_ne _ _ hu]) ha
  defined := hdef

/-! ### What a step touches

Steps that touch no region, the region of their call, or that region and one slot. -/

theorem setHead_self (s : Store ι K V) (i j p : ℕ) : (s.setHead i j p).heads i j = p := by
  simp [Store.setHead]

theorem setHead_of_ne (s : Store ι K V) {i j i' j' : ℕ} (p : ℕ) (h : ¬ (i' = i ∧ j' = j)) :
    (s.setHead i j p).heads i' j' = s.heads i' j' := by
  unfold Store.setHead
  by_cases hi : i' = i
  · subst hi
    simp [show j' ≠ j from fun hj ↦ h ⟨rfl, hj⟩]
  · simp [hi]

/-- The contribution of a slot becomes `e`. -/
def setSlot (E : ℕ → ℕ → ℕ) (i j e : ℕ) : ℕ → ℕ → ℕ :=
  Function.update E i (Function.update (E i) j e)

/-- The entries of `t` become `own`, and those of a slot `as`. -/
def Regions.move [DecidableEq ι] (A : Regions ι) (t : ι) (i j : ℕ) (own as : List ℕ) : Regions ι :=
  Function.update (Function.update A (.thread t) own) (.slot i j) as

@[simp] theorem setSlot_self (E : ℕ → ℕ → ℕ) (i j e : ℕ) : setSlot E i j e i j = e := by
  simp [setSlot]

theorem setSlot_of_ne (E : ℕ → ℕ → ℕ) {i j i' j' : ℕ} (e : ℕ) (h : ¬ (i' = i ∧ j' = j)) :
    setSlot E i j e i' j' = E i' j' := by
  unfold setSlot
  by_cases hi : i' = i
  · subst hi
    rw [Function.update_self, Function.update_of_ne fun hj ↦ h ⟨rfl, hj⟩]
  · rw [Function.update_of_ne hi]

/-- After a move the slot's region is the chain it was given. -/
@[simp] theorem Regions.move_slot [DecidableEq ι] (A : Regions ι) (t : ι) (i j : ℕ)
  (own as : List ℕ) :
    A.move t i j own as (.slot i j) = as := by
  simp [Regions.move]

/-- After a move the call's own region is what it was given. -/
@[simp] theorem Regions.move_thread [DecidableEq ι] (A : Regions ι) (t : ι) (i j : ℕ)
  (own as : List ℕ) :
    A.move t i j own as (.thread t) = own := by
  simp [Regions.move]

theorem Regions.move_of_ne [DecidableEq ι] (A : Regions ι) {t : ι} {i j : ℕ} (own as : List ℕ)
    {r : Region ι} (ht : r ≠ .thread t) (hs : r ≠ .slot i j) : A.move t i j own as r = A r := by
  simp [Regions.move, ht, hs]

/-- A step that leaves heap and heads alone touches nothing. -/
theorem Touches.none (hheap : s'.heap = c.shared.heap) (hheads : s'.heads = c.shared.heads) :
    Touches L c t s' A A E E fun _ ↦ False where
  mine _ hT := hT.elim
  keep _ _ := ⟨rfl, fun _ _ ↦ by rw [hheap]⟩
  heads _ _ _ := ⟨by rw [hheads], rfl⟩
  chain _ _ hT := hT.elim
  nodup _ hT := hT.elim
  apart _ _ _ hT := hT.elim
  origin _ hT := hT.elim
  stored _ hT := hT.elim

/-- A step that changes only the entries of its call. -/
theorem Touches.own [DecidableEq ι] {own : List ℕ} (hheads : s'.heads = c.shared.heads)
    (hkeep : ∀ r, r ≠ .thread t → ∀ a ∈ A r, s'.heap a = c.shared.heap a) (hnd : own.Nodup)
    (horigin : ∀ a ∈ own, a ∈ A (.thread t) ∨ c.shared.heap a = .none)
    (hstored : ∀ a ∈ own, ∃ e, s'.heap a = some e) :
    Touches L c t s' A (Function.update A (.thread t) own) E E fun r ↦ r = .thread t where
  mine _ hT := Or.inl hT
  keep r hT := ⟨Function.update_of_ne hT _ _, hkeep r hT⟩
  heads _ _ _ := ⟨by rw [hheads], rfl⟩
  chain _ _ hT := by cases hT
  nodup r hT := by
    subst hT
    rwa [Function.update_self]
  apart _ _ _ hT hT' _ _ := hT.trans hT'.symm
  origin r hT a ha := by
    subst hT
    rw [Function.update_self] at ha
    exact (horigin a ha).imp_left fun ha ↦ ⟨_, rfl, ha⟩
  stored r hT a ha := by
    subst hT
    rw [Function.update_self] at ha
    exact hstored a ha

/-- A step that changes the entries of its call and of a slot it holds for writing. -/
theorem Touches.slot [DecidableEq ι] {x : Hold ι} (own as : List ℕ) (n : ℕ) (hx : x ∈ holdsOf L c t)
    (hw : x.read = false)
    (hheads : ∀ i j, ¬ (i = x.shard ∧ j = x.slot) → s'.heads i j = c.shared.heads i j)
    (hkeep : ∀ r, r ≠ .thread t → r ≠ .slot x.shard x.slot → ∀ a ∈ A r, s'.heap a = c.shared.heap a)
    (hchain : Chain s'.heap (s'.heads x.shard x.slot) as) (hnd : (own ++ as).Nodup)
    (horigin : ∀ a ∈ own ++ as, a ∈ A (.thread t) ++ A (.slot x.shard x.slot) ∨
      c.shared.heap a = .none)
    (hstored : ∀ a ∈ own ++ as, ∃ e, s'.heap a = some e) :
    Touches L c t s' A (A.move t x.shard x.slot own as) E (setSlot E x.shard x.slot n)
      fun r ↦ r = .thread t ∨ r = .slot x.shard x.slot where
  mine r hT := hT.imp_right fun hr ↦ ⟨x, hx, hw, hr⟩
  keep r hT := by
    obtain ⟨h₁, h₂⟩ := not_or.1 hT
    exact ⟨A.move_of_ne _ _ h₁ h₂, hkeep r h₁ h₂⟩
  heads i j hT := by
    have hne : ¬ (i = x.shard ∧ j = x.slot) := by
      rintro ⟨rfl, rfl⟩
      exact hT (Or.inr rfl)
    exact ⟨hheads i j hne, setSlot_of_ne E n hne⟩
  chain i j hT := by
    rcases hT with hT | hT
    · cases hT
    · cases hT
      rw [Regions.move_slot]
      exact hchain
  nodup r hT := by
    rcases hT with rfl | rfl
    · rw [Regions.move_thread]
      exact (List.nodup_append.1 hnd).1
    · rw [Regions.move_slot]
      exact (List.nodup_append.1 hnd).2.1
  apart r r' a hT hT' ha ha' := by
    have hapart := (List.nodup_append.1 hnd).2.2
    rcases hT with rfl | rfl
    · rcases hT' with rfl | rfl
      · rfl
      · rw [Regions.move_thread] at ha
        rw [Regions.move_slot] at ha'
        exact absurd rfl (hapart a ha a ha')
    · rcases hT' with rfl | rfl
      · rw [Regions.move_slot] at ha
        rw [Regions.move_thread] at ha'
        exact absurd rfl (hapart a ha' a ha)
      · rfl
  origin r hT a ha := by
    have ha' : a ∈ own ++ as := by
      rcases hT with rfl | rfl
      · rw [Regions.move_thread] at ha
        exact List.mem_append_left _ ha
      · rw [Regions.move_slot] at ha
        exact List.mem_append_right _ ha
    refine (horigin a ha').imp_left fun hmem ↦ ?_
    rcases List.mem_append.1 hmem with hmem | hmem
    · exact ⟨_, Or.inl rfl, hmem⟩
    · exact ⟨_, Or.inr rfl, hmem⟩
  stored r hT a ha := by
    rcases hT with rfl | rfl
    · rw [Regions.move_thread] at ha
      exact hstored a (List.mem_append_left _ ha)
    · rw [Regions.move_slot] at ha
      exact hstored a (List.mem_append_right _ ha)

end Step

end Shared

end AtomicHashMap

end Crossync
