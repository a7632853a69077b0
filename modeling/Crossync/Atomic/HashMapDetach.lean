import Crossync.Interleave.Stretch
import Crossync.Atomic.HashMapLayout
import Crossync.Atomic.HashMapShape

/-!
# Clearing a shard of `AtomicHashMap` is all or nothing

`try_detach` of `clear`, from its first `try_write_guard` to its return, while other threads use,
drop and hand over the guards they have on slots of the shard and do anything elsewhere. It takes
the slots one after the other and gives all of them back at the first one that is held, or it swaps
every head for null before it gives the slots back.

`DetachStep` says once what a step of `try_detach` can do. From it come how far the heads are
swapped at each program point (`Stage`), that every slot is free or held by the call (`Secured`),
and a bound on the steps (`Pc.rank`). The other threads cannot interfere: the shard is held
exclusively, so no other call is in it (`Pc.Looks`), and a guard on a slot lets its holder change
the guarded value and nothing else.

## The loops

`try_detach` has four loops, one after the other: acquire the slots, swap the heads and count the
chains, release the slots; or, after an acquisition that failed, release what was acquired. Each
loop has a function that computes its next program point (`detachNext`, `swapNext`, `countNext`,
`releaseNext`, `backOutNext`), and each fact about `try_detach` has one lemma for each of these
functions:

* that the shard is held (`seals_detachNext` and its siblings);
* how far the heads are swapped (`swapped_detachNext`);
* which bound on the remaining steps there is (`rank_detachNext`);
* why a call that backs out does so (`trail_backOutNext`).

## The bound

`Pc.rank` counts the steps that are left at most, with the lengths of the chains as a parameter.
Every own step lowers it, also the steps inside the release of a slot's lock (`releaseSteps`), and
no step of another thread changes it, since nobody else can lengthen a chain of the shard. So the
call comes to its end without waiting for anybody.
-/

open Interleave Linked

namespace Crossync

namespace AtomicHashMap

namespace Shared

variable {ι K V : Type*}

/-! ### What a step of `try_detach` does

All steps of the function from its first to its last access, as one relation. Everything below is by
cases on it. -/

/-- The release of slot `j`, and where the call goes on after it. -/
inductive Releases (L : Layout) (t : ι) (i j : ℕ) : Next ι K V → Pc ι K V → Prop where
  | backOut (n : ℕ) (panics : Bool) :
      Releases L t i j (.backOut i j n panics) (backOutNext t i (j + 1) n panics)
  | detached (chains : List ℕ) : Releases L t i j (.detached i j chains)
    (releaseNext L t i (j + 1) chains)

/-- **The steps of `try_detach`** on shard `i`: from a store and a program point to the next
ones. -/
inductive DetachStep (L : Layout) (ids : SerialMutex.OwnerIds ι) (t : ι) (i : ℕ) (s : Store ι K V) :
    Pc ι K V → Store ι K V → Pc ι K V → Prop where
  | take {j : ℕ} (l : SerialMutex.Store ι) (hfree : (s.slotLock i j).state = 0)
    (hj : j < L.capacity) :
      DetachStep L ids t i s (.slot .tryWriteGuard (.attempt i j)) (s.setSlotLock i j l)
        (detachNext L t i (j + 1))
  | blocked {j : ℕ} (hheld : (s.slotLock i j).state ≠ 0) (hj : j < L.capacity) :
      DetachStep L ids t i s (.slot .tryWriteGuard (.attempt i j)) s (.owned i j)
  | owned {j : ℕ} :
      DetachStep L ids t i s (.owned i j) s (backOutNext t i 0 j
        ((s.slotLock i j).state &&& SerialWord.ownerMask == SerialWord.ownerBits (ids.id t)))
  | release {j : ℕ} {k : Next ι K V} {q r : Pc ι K V} {l : SerialMutex.Store ι}
    (hk : Releases L t i j k q)
      (hl : l.state = 0) (hr : r = q ∨ r = .slot .notifyBump k) :
      DetachStep L ids t i s (.slot (.unlockWrite t) k) (s.setSlotLock i j l) r
  | wake {j : ℕ} {p : SerialMutex.Pc ι} {k : Next ι K V} {q r : Pc ι K V} {l : SerialMutex.Store ι}
      (hk : Releases L t i j k q) (hl : l.state = (s.slotLock i j).state)
      (hr : p = .notifyBump ∧ r = .slot .notifyWake k ∨ p = .notifyWake ∧ r = q) :
      DetachStep L ids t i s (.slot p k) (s.setSlotLock i j l) r
  | swap {j : ℕ} {chains : List ℕ} (hj : j < L.capacity) :
      DetachStep L ids t i s (.detachSwap i j chains) (s.setHead i j 0)
        (countNext i j chains (s.heads i j) (s.heads i j) 0)
  | count {j : ℕ} {chains : List ℕ} {chain cur count : ℕ} {e : Entry K V}
    (he : s.heap cur = some e) :
      DetachStep L ids t i s (.detachCount i j chains chain cur count) s
        (countNext i j chains chain e.next (count + 1))
  | sub {j : ℕ} {chains : List ℕ} {chain count : ℕ} (hj : j < L.capacity) :
      DetachStep L ids t i s (.detachSub i j chains chain count) (s.addCount i (-count))
        (swapNext L t i (j + 1) (chains ++ [chain]))

/-- `try_detach` has returned: what comes next is the release of the shard. -/
def Pc.Exits (i : ℕ) : Pc ι K V → Prop
  | .shard p (.backOut i' _) | .shard p (.detached i' _) => p = .unlockExclusiveFast ∧ i' = i
  | _ => False

section Steps

variable {L : Layout} {t : ι} {i j : ℕ} {k : Next ι K V} {p q : Pc ι K V}

theorem seals_backOutNext (n : ℕ) (b : Bool) :
    (backOutNext t i j n b : Pc ι K V).seals = some i ∨
    (backOutNext t i j n b : Pc ι K V).Exits i := by
  unfold backOutNext
  split_ifs
  · exact Or.inl rfl
  · exact Or.inr ⟨rfl, rfl⟩

theorem seals_releaseNext (chains : List ℕ) :
    (releaseNext L t i j chains : Pc ι K V).seals = some i ∨
      (releaseNext L t i j chains : Pc ι K V).Exits i := by
  unfold releaseNext
  split_ifs
  · exact Or.inl rfl
  · exact Or.inr ⟨rfl, rfl⟩

theorem seals_swapNext (chains : List ℕ) :
    (swapNext L t i j chains : Pc ι K V).seals = some i ∨
    (swapNext L t i j chains : Pc ι K V).Exits i := by
  unfold swapNext
  split_ifs
  · exact Or.inl rfl
  · exact seals_releaseNext chains

theorem seals_detachNext :
    (detachNext L t i j : Pc ι K V).seals = some i ∨ (detachNext L t i j : Pc ι K V).Exits i := by
  unfold detachNext
  split_ifs
  · exact Or.inl rfl
  · exact seals_swapNext []

theorem seals_countNext (chains : List ℕ) (chain cur count : ℕ) :
    (countNext i j chains chain cur count : Pc ι K V).seals = some i := by
  unfold countNext
  split_ifs
  · rfl
  · rfl

/-- A release of a slot happens under the exclusive shard, which is kept or given back next. -/
theorem Releases.seals (h : Releases L t i j k q) :
    k.seals = some i ∧ (q.seals = some i ∨ q.Exits i) := by
  cases h with
  | backOut n b => exact ⟨rfl, seals_backOutNext n b⟩
  | detached chains => exact ⟨rfl, seals_releaseNext chains⟩

variable {ids : SerialMutex.OwnerIds ι} {s s' : Store ι K V}

/-- A step of `try_detach` stays inside or comes to its end. -/
theorem DetachStep.seals (h : DetachStep L ids t i s p s' q) : q.seals = some i ∨ q.Exits i := by
  cases h with
  | take => exact seals_detachNext
  | blocked => exact Or.inl rfl
  | owned => exact seals_backOutNext _ _
  | release hk _ hr =>
    obtain rfl | rfl := hr
    · exact hk.seals.2
    · exact Or.inl hk.seals.1
  | wake hk _ hr =>
    obtain ⟨-, rfl⟩ | ⟨-, rfl⟩ := hr
    · exact Or.inl hk.seals.1
    · exact hk.seals.2
  | swap => exact Or.inl (seals_countNext _ _ _ _)
  | count => exact Or.inl (seals_countNext _ _ _ _)
  | sub => exact seals_swapNext _

/-- It writes to no entry. -/
theorem DetachStep.heap (h : DetachStep L ids t i s p s' q) : s'.heap = s.heap := by
  cases h <;> rfl

end Steps

/-! ### How far it has come

At each program point, how many heads are swapped and which chains are collected. -/

section Stages

variable {L : Layout} {t : ι} {i j : ℕ} {k : Next ι K V} {p q : Pc ι K V}
  {ids : SerialMutex.OwnerIds ι} {s₀ s s' : Store ι K V}

/-- The number of slots whose head is swapped, and the chains that are detached. -/
def After.swapped (L : Layout) : After ι K V → ℕ
  | .detached _ _ => L.capacity
  | _ => 0

def Next.swapped (L : Layout) : Next ι K V → ℕ
  | .detached _ _ _ => L.capacity
  | _ => 0

def Pc.swapped (L : Layout) : Pc ι K V → ℕ
  | .shard _ k => k.swapped L
  | .slot _ k => k.swapped L
  | .detachSwap _ j _ => j
  | .detachCount _ j _ _ _ _ | .detachSub _ j _ _ _ => j + 1
  | _ => 0

def After.collected : After ι K V → List ℕ
  | .detached _ chains => chains
  | _ => []

def Next.collected : Next ι K V → List ℕ
  | .detached _ _ chains => chains
  | _ => []

def Pc.collected : Pc ι K V → List ℕ
  | .shard _ k => k.collected
  | .slot _ k => k.collected
  | .detachSwap _ _ chains => chains
  | .detachCount _ _ chains chain _ _ | .detachSub _ _ chains chain _ => chains ++ [chain]
  | _ => []

/-- **How far `try_detach` is**, from a store `s₀` at its start: the heads before it are null and in
its hands, those after it as they were. -/
structure Stage (L : Layout) (s₀ s : Store ι K V) (i : ℕ) (p : Pc ι K V) : Prop where
  heads : ∀ j, s.heads i j = if j < p.swapped L then 0 else s₀.heads i j
  chains : p.collected = (List.range (p.swapped L)).map (s₀.heads i)

theorem swapped_backOutNext (n : ℕ) (b : Bool) :
    (backOutNext t i j n b : Pc ι K V).swapped L = 0 ∧
      (backOutNext t i j n b : Pc ι K V).collected = [] := by
  unfold backOutNext
  split_ifs
  · exact ⟨rfl, rfl⟩
  · exact ⟨rfl, rfl⟩

theorem swapped_releaseNext (chains : List ℕ) :
    (releaseNext L t i j chains : Pc ι K V).swapped L = L.capacity ∧
      (releaseNext L t i j chains : Pc ι K V).collected = chains := by
  unfold releaseNext
  split_ifs
  · exact ⟨rfl, rfl⟩
  · exact ⟨rfl, rfl⟩

theorem swapped_swapNext (chains : List ℕ) (hj : j ≤ L.capacity) :
    (swapNext L t i j chains : Pc ι K V).swapped L = j ∧
      (swapNext L t i j chains : Pc ι K V).collected = chains := by
  unfold swapNext
  split_ifs
  · exact ⟨rfl, rfl⟩
  · obtain ⟨h₁, h₂⟩ :=
      swapped_releaseNext (K := K) (V := V) (t := t) (i := i) (j := 0) (L := L) chains
    exact ⟨by omega, h₂⟩

theorem swapped_detachNext :
    (detachNext L t i j : Pc ι K V).swapped L = 0 ∧
    (detachNext L t i j : Pc ι K V).collected = [] := by
  unfold detachNext
  split_ifs
  · exact ⟨rfl, rfl⟩
  · exact swapped_swapNext [] (Nat.zero_le _)

theorem swapped_countNext (chains : List ℕ) (chain cur count : ℕ) :
    (countNext i j chains chain cur count : Pc ι K V).swapped L = j + 1 ∧
      (countNext i j chains chain cur count : Pc ι K V).collected = chains ++ [chain] := by
  unfold countNext
  split_ifs
  · exact ⟨rfl, rfl⟩
  · exact ⟨rfl, rfl⟩

/-- Releases of slots leave it at the same stage. -/
theorem Releases.swapped (h : Releases L t i j k q) (p : SerialMutex.Pc ι) :
    q.swapped L = (Pc.slot p k : Pc ι K V).swapped L ∧
      q.collected = (Pc.slot p k : Pc ι K V).collected := by
  cases h with
  | backOut n b => exact swapped_backOutNext n b
  | detached chains => exact swapped_releaseNext chains

theorem Stage.same (h : Stage L s₀ s i p) (hs : s'.heads i = s.heads i)
    (hq : q.swapped L = p.swapped L ∧ q.collected = p.collected) : Stage L s₀ s' i q :=
  ⟨fun j ↦ by rw [hs, hq.1]; exact h.heads j, by rw [hq.1, hq.2]; exact h.chains⟩

/-- A step takes it to the next stage. -/
theorem DetachStep.stage (h : DetachStep L ids t i s p s' q) (hs : Stage L s₀ s i p) :
    Stage L s₀ s' i q := by
  cases h with
  | take => exact hs.same rfl swapped_detachNext
  | blocked => exact hs.same rfl ⟨rfl, rfl⟩
  | owned => exact hs.same rfl (swapped_backOutNext _ _)
  | release hk _ hr =>
    obtain rfl | rfl := hr
    · exact hs.same rfl (hk.swapped _)
    · exact hs.same rfl ⟨rfl, rfl⟩
  | wake hk _ hr =>
    obtain ⟨-, rfl⟩ | ⟨-, rfl⟩ := hr
    · exact hs.same rfl ⟨rfl, rfl⟩
    · exact hs.same rfl (hk.swapped _)
  | @swap j chains hj =>
    obtain ⟨h₁, h₂⟩ :=
      swapped_countNext (ι := ι) (K := K) (V := V) (L := L) (i := i) (j := j) chains
      (s.heads i j) (s.heads i j) 0
    refine ⟨fun j' ↦ ?_, ?_⟩
    · rw [h₁]
      by_cases hjj : j' = j
      · subst hjj
        rw [setHead_self, if_pos (Nat.lt_succ_self _)]
      · rw [setHead_of_ne s 0 fun hc ↦ hjj hc.2, hs.heads]
        show (if j' < j then 0 else _) = _
        have hiff : j' < j ↔ j' < j + 1 := by omega
        simp only [hiff]
    · have hhead : s.heads i j = s₀.heads i j := (hs.heads j).trans (if_neg (Nat.lt_irrefl j))
      rw [h₁, h₂, hhead, List.range_succ, List.map_append]
      exact congrArg (· ++ [s₀.heads i j]) hs.chains
  | count => exact hs.same rfl (swapped_countNext _ _ _ _)
  | sub hj => exact hs.same rfl (swapped_swapNext _ hj)

/-- A slot is free, or the call has it. -/
def FreeOrMine (L : Layout) (t : ι) (i : ℕ) (s : Store ι K V) (p : Pc ι K V) (j : ℕ) : Prop :=
  (s.slotLock i j).state = 0 ∨ (⟨i, j, false, t⟩ : Hold ι) ∈ p.hands L t

/-- A release of slot `j` has that slot's lock in hand besides what is kept after it. -/
theorem Releases.hands (h : Releases L t i j k q) :
    k.hold t = ⟨i, j, false, t⟩ ∧ q.hands L t = k.kept L t := by
  cases h with
  | backOut n b => exact ⟨rfl, (stands_backOutNext b).hands⟩
  | detached chains => exact ⟨rfl, (stands_releaseNext chains).hands⟩

/-- A slot that is free or the call's own stays so. -/
theorem DetachStep.freeOrMine (h : DetachStep L ids t i s p s' q) {j' : ℕ}
    (hj' : FreeOrMine L t i s p j') : FreeOrMine L t i s' q j' := by
  -- the word of a slot that is not operated on
  have hother : ∀ {j : ℕ} {l : SerialMutex.Store ι}, j' ≠ j →
      (s.setSlotLock i j l).slotLock i j' = s.slotLock i j' := fun {j l} hne ↦ by
    rw [slotLock_setSlotLock, if_neg fun hc ↦ hne hc.2]
  cases h with
  | @take j l hfree hj =>
    have hhands : (detachNext L t i (j + 1) : Pc ι K V).hands L t = taken t i 0 (j + 1) :=
      (stands_detachNext hj).hands
    by_cases hne : j' = j
    · subst hne
      refine Or.inr ?_
      rw [hhands]
      exact mem_taken.2 ⟨j', Nat.zero_le _, Nat.lt_succ_self _, rfl⟩
    · refine hj'.imp (fun h0 ↦ by rw [hother hne]; exact h0) fun hmem ↦ ?_
      change _ ∈ taken t i 0 j at hmem
      rw [hhands, taken_snoc]
      exact List.mem_append_left _ hmem
  | blocked =>
    refine hj'.imp_right fun hmem ↦ ?_
    change _ ∈ taken t i 0 _ at hmem
    exact hmem
  | owned =>
    refine hj'.imp_right fun hmem ↦ ?_
    rw [(stands_backOutNext _).hands]
    exact hmem
  | @release j k q r l hk hl hr =>
    obtain ⟨hhold, hhands⟩ := hk.hands
    by_cases hne : j' = j
    · subst hne
      refine Or.inl ?_
      rw [slotLock_setSlotLock, if_pos ⟨rfl, rfl⟩]
      exact hl
    · refine hj'.imp (fun h0 ↦ by rw [hother hne]; exact h0) fun hmem ↦ ?_
      change _ ∈ [k.hold t] ++ k.kept L t at hmem
      have hkept : (⟨i, j', false, t⟩ : Hold ι) ∈ k.kept L t := by
        rw [hhold] at hmem
        simpa [hne] using hmem
      obtain rfl | rfl := hr
      · rwa [hhands]
      · exact hkept
  | @wake j p k q r l hk hl hr =>
    obtain ⟨hhold, hhands⟩ := hk.hands
    have hword : ((s.setSlotLock i j l).slotLock i j').state = (s.slotLock i j').state := by
      by_cases hne : j' = j
      · subst hne
        rw [slotLock_setSlotLock, if_pos ⟨rfl, rfl⟩]
        exact hl
      · rw [hother hne]
    refine hj'.imp (fun h0 ↦ hword.trans h0) fun hmem ↦ ?_
    obtain ⟨rfl, rfl⟩ | ⟨rfl, rfl⟩ := hr
    · exact hmem
    · rw [hhands]
      exact hmem
  | swap hj | count =>
    refine hj'.imp_right fun hmem ↦ ?_
    rw [(stands_countNext _ _ _ _).hands]
    exact hmem
  | sub =>
    refine hj'.imp_right fun hmem ↦ ?_
    rw [(stands_swapNext _ _).hands]
    exact hmem

/-- The points with every slot taken, and those after them. -/
def After.Full : After ι K V → Prop
  | .detached _ _ => True
  | _ => False

def Next.Full : Next ι K V → Prop
  | .detached _ _ _ => True
  | _ => False

def Pc.Full : Pc ι K V → Prop
  | .shard _ k => k.Full
  | .slot _ k => k.Full
  | .detachSwap _ _ _ | .detachCount _ _ _ _ _ _ | .detachSub _ _ _ _ _ => True
  | _ => False

theorem not_full_backOutNext (n : ℕ) (b : Bool) : ¬ (backOutNext t i j n b : Pc ι K V).Full := by
  unfold backOutNext
  split_ifs
  · exact id
  · exact id

/-- **From the first swap on, every slot is free or the call's own.** -/
theorem DetachStep.secured (h : DetachStep L ids t i s p s' q)
    (hp : p.Full → ∀ j < L.capacity, FreeOrMine L t i s p j) (hq : q.Full) :
    ∀ j < L.capacity, FreeOrMine L t i s' q j := by
  have hkeep : p.Full → ∀ j < L.capacity, FreeOrMine L t i s' q j := fun hfull j hj ↦
    h.freeOrMine (hp hfull j hj)
  cases h with
  | @take j l hfree hj =>
    intro j' hj'
    by_cases hlast : j + 1 < L.capacity
    · rw [detachNext, if_pos hlast] at hq
      exact hq.elim
    · refine Or.inr ?_
      rw [(stands_detachNext hj).hands]
      exact mem_taken.2 ⟨j', Nat.zero_le _, by omega, rfl⟩
  | blocked => exact hq.elim
  | owned => exact absurd hq (not_full_backOutNext _ _)
  | release hk _ hr =>
    refine hkeep ?_
    cases hk with
    | detached => trivial
    | backOut n b =>
      obtain rfl | rfl := hr
      · exact absurd hq (not_full_backOutNext _ _)
      · exact hq
  | wake hk _ hr =>
    refine hkeep ?_
    cases hk with
    | detached => trivial
    | backOut n b =>
      obtain ⟨-, rfl⟩ | ⟨-, rfl⟩ := hr
      · exact hq
      · exact absurd hq (not_full_backOutNext _ _)
  | swap | count | sub => exact hkeep trivial

/-! ### A bound on its steps

The function waits for nobody, and its loops are bounded by the number of slots and the lengths of
the chains. -/

/-- Steps for the chains from slot `j` on, when slot `k` has `n k` entries. -/
def chainSteps (n : ℕ → ℕ) (j capacity : ℕ) : ℕ :=
  ((List.range' j (capacity - j)).map fun k ↦ n k + 2).sum

/-- The steps for the chains from `j` on: those of `j` and those of the rest. -/
theorem chainSteps_of_lt (n : ℕ → ℕ) {j capacity : ℕ} (h : j < capacity) :
    chainSteps n j capacity = n j + 2 + chainSteps n (j + 1) capacity := by
  obtain ⟨m, hm⟩ : ∃ m, capacity - j = m + 1 := ⟨capacity - j - 1, by omega⟩
  rw [chainSteps, chainSteps, hm, List.range'_succ, List.map_cons, List.sum_cons,
    show capacity - (j + 1) = m by omega]

/-- Steps that a release of a slot has left. -/
def releaseSteps : SerialMutex.Pc ι → ℕ
  | .unlockWrite _ => 3
  | .notifyBump => 2
  | .notifyWake => 1
  | _ => 0

/-- **The steps that `try_detach` has left**, when slot `k` of the shard had `n k` entries at its
start. -/
def Pc.rank (L : Layout) (n : ℕ → ℕ) : Pc ι K V → ℕ
  | .slot _ (.attempt _ j) =>
    (L.capacity - j) + 1 + chainSteps n 0 L.capacity + 3 * L.capacity
  | .owned _ j => 1 + 3 * j
  | .slot p (.backOut _ j m _) => 3 * (m - (j + 1)) + releaseSteps p
  | .slot p (.detached _ j _) => 3 * (L.capacity - (j + 1)) + releaseSteps p
  | .detachSwap _ j _ => chainSteps n j L.capacity + 3 * L.capacity
  | .detachCount _ j _ _ _ count => n j - count + 1 + chainSteps n (j + 1) L.capacity +
    3 * L.capacity
  | .detachSub _ j _ _ _ => 1 + chainSteps n (j + 1) L.capacity + 3 * L.capacity
  | _ => 0

variable {n : ℕ → ℕ}

theorem rank_backOutNext (m : ℕ) (b : Bool) :
    (backOutNext t i j m b : Pc ι K V).rank L n ≤ 3 * (m - j) := by
  unfold backOutNext
  split_ifs with hj
  · show 3 * (m - (j + 1)) + 3 ≤ _
    omega
  · exact Nat.zero_le _

theorem rank_releaseNext (chains : List ℕ) :
    (releaseNext L t i j chains : Pc ι K V).rank L n ≤ 3 * (L.capacity - j) := by
  unfold releaseNext
  split_ifs with hj
  · show 3 * (L.capacity - (j + 1)) + 3 ≤ _
    omega
  · exact Nat.zero_le _

theorem rank_swapNext (chains : List ℕ) :
    (swapNext L t i j chains : Pc ι K V).rank L n ≤ chainSteps n j L.capacity + 3 * L.capacity := by
  unfold swapNext
  split_ifs with hj
  · exact Nat.le_refl _
  · have := rank_releaseNext (ι := ι) (K := K) (V := V) (L := L) (t := t) (i := i) (j := 0)
      (n := n) chains
    omega

theorem rank_detachNext :
    (detachNext L t i j : Pc ι K V).rank L n ≤
      (L.capacity - j) + 1 + chainSteps n 0 L.capacity + 3 * L.capacity := by
  unfold detachNext
  split_ifs with hj
  · exact Nat.le_refl _
  · have := rank_swapNext (ι := ι) (K := K) (V := V) (L := L) (t := t) (i := i) (j := 0) (n := n) []
    omega

/-- A release leads to a point whose bound leaves room for the steps of the release itself. -/
theorem Releases.rank (h : Releases L t i j k q) (p : SerialMutex.Pc ι) :
    q.rank L n + releaseSteps p ≤ (Pc.slot p k : Pc ι K V).rank L n := by
  cases h with
  | backOut m b =>
    have := rank_backOutNext (ι := ι) (K := K) (V := V) (L := L) (t := t) (i := i) (j := j + 1)
      (n := n) m b
    show _ + _ ≤ 3 * (m - (j + 1)) + releaseSteps p
    omega
  | detached chains =>
    have := rank_releaseNext (ι := ι) (K := K) (V := V) (L := L) (t := t) (i := i) (j := j + 1)
      (n := n) chains
    show _ + _ ≤ 3 * (L.capacity - (j + 1)) + releaseSteps p
    omega

/-- Inside a release the bound moves with the program of the slot's lock. -/
theorem Releases.rank_slot (h : Releases L t i j k q) (p p' : SerialMutex.Pc ι) :
    (Pc.slot p' k : Pc ι K V).rank L n + releaseSteps p =
      (Pc.slot p k : Pc ι K V).rank L n + releaseSteps p' := by
  cases h with
  | backOut m b =>
    show 3 * (m - (j + 1)) + releaseSteps p' + _ = 3 * (m - (j + 1)) + releaseSteps p + _
    omega
  | detached chains =>
    show 3 * (L.capacity - (j + 1)) + releaseSteps p' + _ =
      3 * (L.capacity - (j + 1)) + releaseSteps p + _
    omega

/-- Every step leaves fewer. -/
theorem DetachStep.rank (h : DetachStep L ids t i s p s' q)
    (hcount : ∀ j chains chain cur count, p = .detachCount i j chains chain cur count →
      count < n j) :
    q.rank L n < p.rank L n := by
  cases h with
  | @take j l hfree hj =>
    have := rank_detachNext (ι := ι) (K := K) (V := V) (L := L) (t := t) (i := i)
      (j := j + 1) (n := n)
    show _ < (L.capacity - j) + 1 + chainSteps n 0 L.capacity + 3 * L.capacity
    omega
  | @blocked j hheld hj =>
    show 1 + 3 * j < (L.capacity - j) + 1 + chainSteps n 0 L.capacity + 3 * L.capacity
    omega
  | @owned j =>
    have := rank_backOutNext (ι := ι) (K := K) (V := V) (L := L) (t := t) (i := i) (j := 0)
      (n := n) j
      ((s.slotLock i j).state &&& SerialWord.ownerMask == SerialWord.ownerBits (ids.id t))
    show _ < 1 + 3 * j
    omega
  | release hk hl hr =>
    have h₁ := hk.rank (n := n) (.unlockWrite t)
    have h₂ := hk.rank_slot (n := n) (.unlockWrite t) .notifyBump
    simp only [releaseSteps] at h₁ h₂
    obtain rfl | rfl := hr
    · omega
    · omega
  | wake hk hl hr =>
    obtain ⟨rfl, rfl⟩ | ⟨rfl, rfl⟩ := hr
    · have h₂ := hk.rank_slot (n := n) .notifyBump .notifyWake
      simp only [releaseSteps] at h₂
      omega
    · have h₁ := hk.rank (n := n) .notifyWake
      simp only [releaseSteps] at h₁
      omega
  | @swap j chains hj =>
    show _ < chainSteps n j L.capacity + 3 * L.capacity
    rw [chainSteps_of_lt n hj]
    unfold countNext
    split_ifs
    · show 1 + chainSteps n (j + 1) L.capacity + 3 * L.capacity < _
      omega
    · show n j - 0 + 1 + chainSteps n (j + 1) L.capacity + 3 * L.capacity < _
      omega
  | @count j chains chain cur count e he =>
    have hlt := hcount j chains chain cur count rfl
    show _ < n j - count + 1 + chainSteps n (j + 1) L.capacity + 3 * L.capacity
    unfold countNext
    split_ifs
    · show 1 + chainSteps n (j + 1) L.capacity + 3 * L.capacity < _
      omega
    · show n j - (count + 1) + 1 + chainSteps n (j + 1) L.capacity + 3 * L.capacity < _
      omega
  | @sub j chains chain count hj =>
    have := rank_swapNext (ι := ι) (K := K) (V := V) (L := L) (t := t) (i := i)
      (j := j + 1) (n := n)
      (chains ++ [chain])
    show _ < 1 + chainSteps n (j + 1) L.capacity + 3 * L.capacity
    omega

/-! ### How it came to back out

A call that gives up has met a slot that is held, and has checked whose number is in it. -/

/-- What has led to a program point: slot `j` was found held (`B j`), and the check of its owner
gave `b` (`C j b`). -/
def After.Trail (B : ℕ → Prop) (C : ℕ → Bool → Prop) : After ι K V → Prop
  | .backOut _ b => ∃ j, B j ∧ C j b
  | _ => True

def Next.Trail (B : ℕ → Prop) (C : ℕ → Bool → Prop) : Next ι K V → Prop
  | .backOut _ _ _ b => ∃ j, B j ∧ C j b
  | _ => True

def Pc.Trail (B : ℕ → Prop) (C : ℕ → Bool → Prop) : Pc ι K V → Prop
  | .shard _ k => k.Trail B C
  | .slot _ k => k.Trail B C
  | .owned _ j => B j
  | _ => True

variable {B : ℕ → Prop} {C : ℕ → Bool → Prop}

theorem trail_backOutNext {n : ℕ} {b : Bool} (h : ∃ j, B j ∧ C j b) :
    (backOutNext t i j n b : Pc ι K V).Trail B C := by
  unfold backOutNext
  split_ifs
  · exact h
  · exact h

theorem trail_releaseNext (chains : List ℕ) :
    (releaseNext L t i j chains : Pc ι K V).Trail B C := by
  unfold releaseNext
  split_ifs
  · trivial
  · trivial

theorem trail_swapNext (chains : List ℕ) : (swapNext L t i j chains : Pc ι K V).Trail B C := by
  unfold swapNext
  split_ifs
  · trivial
  · exact trail_releaseNext chains

theorem trail_detachNext : (detachNext L t i j : Pc ι K V).Trail B C := by
  unfold detachNext
  split_ifs
  · trivial
  · exact trail_swapNext []

theorem trail_countNext (chains : List ℕ) (chain cur count : ℕ) :
    (countNext i j chains chain cur count : Pc ι K V).Trail B C := by
  unfold countNext
  split_ifs
  · trivial
  · trivial

/-- A release of a slot keeps the reason for backing out. -/
theorem Releases.trail (h : Releases L t i j k q) (hk : k.Trail B C) : q.Trail B C := by
  cases h with
  | backOut n b => exact trail_backOutNext hk
  | detached chains => exact trail_releaseNext chains

/-- **`try_detach` backs out only after it has found a slot held and checked its owner.** -/
theorem DetachStep.trail (h : DetachStep L ids t i s p s' q) (hp : p.Trail B C)
    (hB : ∀ j, p = .slot .tryWriteGuard (.attempt i j) → (s.slotLock i j).state ≠ 0 → B j)
    (hC : ∀ j, p = .owned i j →
      C j ((s.slotLock i j).state &&& SerialWord.ownerMask == SerialWord.ownerBits (ids.id t))) :
    q.Trail B C := by
  cases h with
  | take => exact trail_detachNext
  | blocked hheld => exact hB _ rfl hheld
  | owned => exact trail_backOutNext ⟨_, hp, hC _ rfl⟩
  | release hk _ hr =>
    obtain rfl | rfl := hr
    · exact hk.trail hp
    · exact hp
  | wake hk _ hr =>
    obtain ⟨-, rfl⟩ | ⟨-, rfl⟩ := hr
    · exact hp
    · exact hk.trail hp
  | swap => exact trail_countNext _ _ _ _
  | count => exact trail_countNext _ _ _ _
  | sub => exact trail_swapNext _

/-- A slot comes into its hands only when it was free. -/
theorem DetachStep.taken_free (h : DetachStep L ids t i s p s' q) {j' : ℕ}
    (hp : (⟨i, j', false, t⟩ : Hold ι) ∉ p.hands L t)
    (hq : (⟨i, j', false, t⟩ : Hold ι) ∈ q.hands L t) :
    (s.slotLock i j').state = 0 := by
  cases h with
  | @take j l hfree hj =>
    rw [(stands_detachNext hj).hands, taken_snoc] at hq
    obtain hq | hq := List.mem_append.1 hq
    · exact absurd hq hp
    · obtain rfl : j' = j := by simpa using hq
      exact hfree
  | blocked => exact absurd hq hp
  | owned =>
    rw [(stands_backOutNext _).hands] at hq
    exact absurd hq hp
  | release hk _ hr =>
    refine absurd (List.mem_append_right _ ?_) hp
    obtain rfl | rfl := hr
    · rwa [hk.hands.2] at hq
    · exact hq
  | wake hk _ hr =>
    obtain ⟨rfl, rfl⟩ | ⟨rfl, rfl⟩ := hr
    · exact absurd hq hp
    · rw [hk.hands.2] at hq
      exact absurd hq hp
  | swap | count =>
    rw [(stands_countNext _ _ _ _).hands] at hq
    exact absurd hq hp
  | sub =>
    rw [(stands_swapNext _ _).hands] at hq
    exact absurd hq hp

end Stages

/-! ### The steps of the code

That the relation is the code: every access of a call inside `try_detach` is one of its steps, and
is possible. -/

section Code

variable [BEq K] [Hashable K] {L : Layout} {ids : SerialMutex.OwnerIds ι} {adaptive : ℕ}
  {c : Config ι (Store ι K V) (Pc ι K V)} {t : ι} {ch : Choice ι} {A : Regions ι} {E : ℕ → ℕ → ℕ}
  {s' : Store ι K V} {o : Outcome (Pc ι K V) (Ret ι K V)} {i : ℕ} {p : Pc ι K V}

/-- The only access of the attempt at a slot is the try-lock itself. -/
theorem phase_attempt {p : SerialMutex.Pc ι} (h : SerialMutex.phase p = .attempt) :
    p = .tryWriteGuard := by
  cases p <;> first | rfl | cases h

/-- The only access that gives an exclusive hold back is `unlock_write`. -/
theorem phase_release {p : SerialMutex.Pc ι} (h : SerialMutex.phase p = .release false t) :
    p = .unlockWrite t := by
  cases p <;> cases h
  rfl

/-- After the release of a slot's lock come the two accesses that wake its waiters. -/
theorem phase_wake {p : SerialMutex.Pc ι} (h : SerialMutex.phase p = .wake) :
    p = .notifyBump ∨ p = .notifyWake := by
  cases p <;> first | exact Or.inl rfl | exact Or.inr rfl | cases h

omit [BEq K] [Hashable K] in
theorem setSlotLock_self (s : Store ι K V) (i j : ℕ) : s.setSlotLock i j (s.slotLock i j) = s := by
  simp [Store.setSlotLock]

omit [BEq K] [Hashable K] in
/-- After the release of a slot, whatever it returns, `try_detach` goes on. -/
theorem Releases.resume {k : Next ι K V} {q : Pc ι K V} {j : ℕ} (hk : Releases L t i j k q)
    (s : Store ι K V) (r : SerialMutex.Ret) :
    k.target = (i, j) ∧ resumeSlot L t s k r = (s, .goto q) := by
  cases hk with
  | backOut n b => exact ⟨rfl, rfl⟩
  | detached chains => exact ⟨rfl, rfl⟩

variable [Fintype ι]

/-- The accesses of a release of `try_detach`. -/
theorem exec_releases [DecidableEq ι] {k : Next ι K V} {q : Pc ι K V} {j : ℕ} {p : SerialMutex.Pc ι}
    (hk : Releases L t i j k q)
    (hph : SerialMutex.phase p = .release false t ∨ SerialMutex.phase p = .wake)
    (he : exec L ids adaptive t ch c.shared (.slot p k) = some (s', o)) :
    ∃ r, o = .goto r ∧ DetachStep L ids t i c.shared (.slot p k) s' r := by
  have htarget : k.target = (i, j) := (hk.resume c.shared .unit).1
  simp only [exec, htarget] at he
  obtain hph | hph := hph
  · obtain rfl := phase_release hph
    simp only [SerialMutex.exec] at he
    split at he
    · cases he
    · rename_i l p' hr
      obtain ⟨rfl, ho⟩ := Prod.mk.inj (Option.some.inj hr)
      cases he
      split_ifs at ho
      cases ho
      exact ⟨_, rfl, .release hk rfl (Or.inr rfl)⟩
    · rename_i l e hr
      obtain ⟨rfl, -⟩ := Prod.mk.inj (Option.some.inj hr)
      rw [(hk.resume _ e).2] at he
      cases he
      exact ⟨q, rfl, .release hk rfl (Or.inl rfl)⟩
  · obtain rfl | rfl := phase_wake hph
    · cases he
      exact ⟨_, rfl, .wake hk rfl (Or.inl ⟨rfl, rfl⟩)⟩
    · simp only [SerialMutex.exec] at he
      rw [(hk.resume _ .unit).2] at he
      cases he
      exact ⟨q, rfl, .wake hk rfl (Or.inr ⟨rfl, rfl⟩)⟩

/-- **Every access of `try_detach` is one of its steps.** -/
theorem exec_detaching [DecidableEq ι] (h : Shape L c A E) (hl : Locks L ids c)
    (hpc : c.pcs t = some p) (hp : p.seals = some i)
    (he : exec L ids adaptive t ch c.shared p = some (s', o)) :
    ∃ q, o = .goto q ∧ DetachStep L ids t i c.shared p s' q := by
  have hph := (hl.mine t).phased p hpc
  have hfit := h.fits t p hpc
  cases p with
  | slot p k =>
    cases k with
    | locked v | unlocked v r | dropped g => cases hp
    | attempt i' j =>
      cases hp
      obtain ⟨hph, hj⟩ := hph
      obtain rfl := phase_attempt hph
      simp only [exec, SerialMutex.exec, Next.target] at he
      cases hcas : cas (c.shared.slotLock i j).state 0 (SerialMutex.desired ids t false) with
      | ok w =>
        rw [hcas] at he
        cases he
        exact ⟨_, rfl, .take _ (cas_eq_ok.1 hcas).1 hj⟩
      | error w =>
        rw [hcas] at he
        simp only [setSlotLock_self] at he
        cases he
        exact ⟨_, rfl, .blocked (cas_eq_error.1 hcas).1 hj⟩
    | backOut i' j n b =>
      cases hp
      exact exec_releases (.backOut n b) hph he
    | detached i' j chains =>
      cases hp
      exact exec_releases (.detached chains) hph he
  | owned i' j =>
    cases hp
    cases he
    exact ⟨_, rfl, .owned⟩
  | detachSwap i' j chains =>
    cases hp
    cases he
    exact ⟨_, rfl, .swap (hfit.slot j rfl)⟩
  | detachCount i' j chains chain cur count =>
    cases hp
    obtain ⟨e, hcur⟩ := h.derefs hpc rfl
    simp only [exec, hcur] at he
    cases he
    exact ⟨_, rfl, .count hcur⟩
  | detachSub i' j chains chain count =>
    cases hp
    cases he
    exact ⟨_, rfl, .sub (hfit.slot j rfl)⟩
  | _ => cases hp

/-- **`try_detach` never waits**: its next access is always possible. -/
theorem exec_detaching_total [DecidableEq ι] (ids : SerialMutex.OwnerIds ι) (adaptive : ℕ)
    (ch : Choice ι) {ids' : SerialMutex.OwnerIds ι} (hl : Locks L ids' c) (hpc : c.pcs t = some p)
    (hp : p.seals = some i) : ∃ x, exec L ids adaptive t ch c.shared p = some x := by
  have hph := (hl.mine t).phased p hpc
  have hslot : ∀ {q : SerialMutex.Pc ι} {k : Next ι K V},
      (∃ x, SerialMutex.exec ids adaptive t ch (c.shared.slotLock k.target.1 k.target.2)
        q = some x) →
      ∃ x, exec L ids adaptive t ch c.shared (.slot q k) = some x := by
    rintro q k ⟨⟨l, e⟩, hx⟩
    simp only [exec, hx]
    cases e with
    | goto p' => exact ⟨_, rfl⟩
    | ret r => exact ⟨_, rfl⟩
  have hrelease : ∀ {q : SerialMutex.Pc ι} {k : Next ι K V},
      SerialMutex.phase q = .release false t ∨ SerialMutex.phase q = .wake →
      ∃ x, exec L ids adaptive t ch c.shared (.slot q k) = some x := by
    rintro q k (hq | hq)
    · obtain rfl := phase_release hq
      exact hslot ⟨_, rfl⟩
    · obtain rfl | rfl := phase_wake hq
      · exact hslot ⟨_, rfl⟩
      · exact hslot ⟨_, rfl⟩
  cases p with
  | slot q k =>
    cases k with
    | locked v | unlocked v r | dropped g => cases hp
    | attempt i' j =>
      obtain rfl := phase_attempt hph.1
      refine hslot ?_
      simp only [SerialMutex.exec]
      split
      · exact ⟨_, rfl⟩
      · exact ⟨_, rfl⟩
    | backOut i' j n b => exact hrelease hph
    | detached i' j chains => exact hrelease hph
  | owned i' j | detachSwap i' j chains | detachSub i' j chains chain count => exact ⟨_, rfl⟩
  | detachCount i' j chains chain cur count =>
    simp only [exec]
    split
    · exact ⟨_, rfl⟩
    · exact ⟨_, rfl⟩
  | _ => cases hp

end Code

end Shared

end AtomicHashMap

end Crossync
