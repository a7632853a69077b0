import Mathlib.Data.BitVec
import Crossync.Interleave.Tally

/-!
# Reference-counted handles

Every container of the library is a pointer to one allocation with a counter in it. `clone` adds one
to the counter and copies the pointer, the drop of a handle subtracts one, and the drop that finds
the counter at one frees the allocation. `AtomicCell::into_inner` is the other way out: it reads the
counter, panics unless it is one, and takes the contents without a decrement. All containers share
`increment_ref_count`, which aborts the process when the counter has passed `isize::MAX`: handles
can be forgotten, so the counter is not bounded by the memory that handles need.

## Handles and references

Handles have names, which the code does not. `live` are the handles that exist, `forgotten` counts
those whose drop will never run. A thread uses a handle through a reference (`borrows`), and the
borrow checker is the caller's obligation in `enter`: a reference is taken to a live handle, a clone
or an access goes through a reference, and a handle is dropped, consumed or forgotten only when
nobody has a reference to it. A guard or a running method call is such a reference.

`freed` counts how often the allocation was given back, and `dangling` is set by an access to it
afterwards. The code reads neither.

## Why the abort comes in time

The counter is a machine word, and an increment that wrapped it to zero would free the contents
under live handles. The increment is not checked before but after it was made, so the counter can
pass the limit for a moment. What saves it is that a thread that passed the limit does not return:
it aborts the process, and until then it counts as one. With fewer than `2 ^ 63` threads the counter
cannot reach the wrap in that window, which is why the number of threads is a hypothesis.
-/

open Interleave

namespace Crossync

namespace RefCount

/-- `isize::MAX` -/
def isizeMax : ℕ := 2 ^ 63 - 1

/-- The counter, with the record of handles and references. -/
structure Store (ι : Type*) where
  /-- `ref_count` -/
  refCount : BitVec 64
  /-- Whether the process was aborted. -/
  aborted : Bool
  live : Finset ℕ
  /-- The name of the next handle. -/
  next : ℕ
  forgotten : ℕ
  /-- The handles that each thread has references to. -/
  borrows : ι → List ℕ
  freed : ℕ
  dangling : Bool

/-- What a program does with handles. -/
inductive Op where
  | borrow (h : ℕ)
  | endBorrow (h : ℕ)
  | clone (h : ℕ)
  /-- Any access to the allocation through a reference. -/
  | access (h : ℕ)
  | drop (h : ℕ)
  | intoInner (h : ℕ)
  /-- `mem::forget` -/
  | forget (h : ℕ)
  deriving DecidableEq

/-- How an operation ends. -/
inductive Ret where
  | unit
  | handle (h : ℕ)
  /-- `into_inner` returned the contents. -/
  | inner
  /-- "cannot call into_inner with multiple references" -/
  | notUnique
  deriving DecidableEq, Repr

/-- Program points, named after the access that comes next. -/
inductive Pc where
  /-- `increment_ref_count`: the `fetch_add`, then the abort. -/
  | increment
  | abort
  | access
  /-- `into_inner`: the load of the counter. -/
  | loadCount
  /-- `into_inner`: the contents are taken and the allocation is given back. -/
  | take
  /-- The drop of a handle: the `fetch_sub`, the fence, and the allocation is given back. -/
  | decrement (r : Ret)
  | fence (r : Ret)
  | free (r : Ret)
  deriving DecidableEq

section Code

variable {ι : Type*}

open Outcome

/-- A new container with its one handle. -/
def Store.new : Store ι := ⟨1, false, {0}, 1, 0, fun _ ↦ [], 0, false⟩

namespace Store

variable (s : Store ι)

/-- The allocation is accessed. -/
def touch : Store ι := { s with dangling := s.dangling || decide (0 < s.freed) }

@[simp] theorem touch_refCount : s.touch.refCount = s.refCount := rfl
@[simp] theorem touch_live : s.touch.live = s.live := rfl
@[simp] theorem touch_next : s.touch.next = s.next := rfl
@[simp] theorem touch_forgotten : s.touch.forgotten = s.forgotten := rfl
@[simp] theorem touch_borrows : s.touch.borrows = s.borrows := rfl
@[simp] theorem touch_freed : s.touch.freed = s.freed := rfl

/-- The allocation is given back. -/
def release : Store ι := { s.touch with freed := s.freed + 1 }

/-- The handle `h` ceases to exist. -/
def consume (h : ℕ) : Store ι := { s with live := s.live.erase h }

end Store

variable [Fintype ι] [DecidableEq ι]

/-- Start of a call, with the caller's obligation. -/
def enter (t : ι) (op : Op) (s : Store ι) : Option (Store ι × Outcome Pc Ret) :=
  if s.aborted then none
  else
    match op with
    | .borrow h =>
      if h ∈ s.live then
        some ({ s with borrows := Function.update s.borrows t (h :: s.borrows t) }, ret .unit)
      else none
    | .endBorrow h =>
      if h ∈ s.borrows t then
        some ({ s with borrows := Function.update s.borrows t ((s.borrows t).erase h) }, ret .unit)
      else none
    | .clone h => if h ∈ s.borrows t then some (s, goto .increment) else none
    | .access h => if h ∈ s.borrows t then some (s, goto .access) else none
    | .drop h =>
      if h ∈ s.live ∧ ∀ u, h ∉ s.borrows u then
        some (s.consume h, goto (.decrement .unit)) else none
    | .intoInner h =>
      if h ∈ s.live ∧ ∀ u, h ∉ s.borrows u then some (s.consume h, goto .loadCount) else none
    | .forget h =>
      if h ∈ s.live ∧ ∀ u, h ∉ s.borrows u then
        some ({ s.consume h with forgotten := s.forgotten + 1 }, ret .unit)
      else none

/-- The access at a program point. -/
def access (s : Store ι) : Pc → Store ι × Outcome Pc Ret
  | .increment =>
    if isizeMax ≤ s.refCount.toNat then ({ s.touch with refCount := s.refCount + 1 }, goto .abort)
    else
      ({ s.touch with
          refCount := s.refCount + 1
          live := insert s.next s.live
          next := s.next + 1 },
        ret (.handle s.next))
  | .abort => ({ s with aborted := true }, goto .abort)
  | .access => (s.touch, ret .unit)
  | .loadCount => (s.touch, goto (if s.refCount = 1 then .take else .decrement .notUnique))
  | .take => (s.release, ret .inner)
  | .decrement r =>
    ({ s.touch with refCount := s.refCount - 1 }, if s.refCount = 1 then goto (.fence r) else ret r)
  | .fence r => (s, goto (.free r))
  | .free r => (s.release, ret r)

/-- An aborted process does nothing any more. -/
def exec (_ : ι) (_ : Choice ι) (s : Store ι) (p : Pc) : Option (Store ι × Outcome Pc Ret) :=
  if s.aborted then none else some (access s p)

/-- The handles of one container. -/
def refCounted : Object ι (Store ι) Pc Op Ret where
  enter := enter
  exec := exec

/-- One handle, and every thread outside. -/
def init : Config ι (Store ι) Pc := ⟨.new, fun _ ↦ none⟩

end Code

section Runs

variable {ι : Type*} [DecidableEq ι] [Fintype ι]
  {ok : Config ι (Store ι) Pc → Label ι Op → Prop} {c : Config ι (Store ι) Pc}

/-! ### What is counted

The counter is compared with four tallies: the handles that exist, those forgotten, the drops that
have not decremented yet, and the increments that are about to abort the process. -/

/-- The handle that a call has consumed and not given back. -/
def dropping : Option Pc → ℕ
  | some (.decrement _) | some .loadCount | some .take => 1
  | _ => 0

/-- The increment of a clone that will abort. -/
def aborting : Option Pc → ℕ
  | some .abort => 1
  | _ => 0

/-- The call that is about to give the allocation back after the last decrement. -/
def finishing : Option Pc → ℕ
  | some (.fence _) | some (.free _) => 1
  | _ => 0

/-- The handles that count: those that exist, those that were forgotten, and those being dropped. -/
def held (c : Config ι (Store ι) Pc) : ℕ :=
  c.shared.live.card + c.shared.forgotten + tally fun t ↦ dropping (c.pcs t)

/-- What the counter counts. -/
def total (c : Config ι (Store ι) Pc) : ℕ := held c + tally fun t ↦ aborting (c.pcs t)

/-- A program point that goes through a reference. -/
def Pc.Borrows : Pc → Prop
  | .increment | .access => True
  | _ => False

/-- **The invariant.** The counter is exact as long as it can be read, and the allocation is given
back by the one call that brings the total to zero. -/
structure Inv (c : Config ι (Store ι) Pc) : Prop where
  fresh : ∀ h ∈ c.shared.live, h < c.shared.next
  borrowed : ∀ t, ∀ h ∈ c.shared.borrows t, h ∈ c.shared.live
  borrows : ∀ t p, c.pcs t = some p → p.Borrows → c.shared.borrows t ≠ []
  count : c.shared.freed = 0 → c.shared.refCount.toNat = total c
  ended : c.shared.freed + tally (fun t ↦ finishing (c.pcs t)) = if total c = 0 then 1 else 0
  taken : ∀ t, c.pcs t = some .take → total c = 1
  bound : held c ≤ isizeMax
  sound : c.shared.dangling = false

omit [DecidableEq ι] in
/-- A sum of indicators is at most the number of threads. -/
theorem tally_le_card {f : ι → ℕ} (hf : ∀ t, f t ≤ 1) : tally f ≤ Fintype.card ι := by
  have h := Finset.sum_le_card_nsmul Finset.univ f 1 fun t _ ↦ hf t
  simpa [tally] using h

/-- A thread is in at most one abort. -/
theorem aborting_le (q : Option Pc) : aborting q ≤ 1 := by
  unfold aborting
  split <;> simp

/-! ### How the counts move

The effect of one step on each tally, whatever the step is, so that the cases of the invariant are
arithmetic. -/

/-- One step changes the handles and the decrements that are owed by what the stepping thread does.
-/
theorem held_put (c : Config ι (Store ι) Pc) (t : ι) (s : Store ι) (o : Outcome Pc Ret) :
    held (c.put t (s, o)) + dropping (c.pcs t) =
      s.live.card + s.forgotten + tally (fun u ↦ dropping (c.pcs u)) + dropping o.pc := by
  have h : tally (fun u ↦ dropping ((c.put t (s, o)).pcs u)) + dropping (c.pcs t) =
      tally (fun u ↦ dropping (c.pcs u)) + dropping o.pc := tally_put dropping c t (s, o)
  have hs : (c.put t (s, o)).shared = s := rfl
  unfold held
  rw [hs]
  omega

/-- One step changes the number of frees under way by what the stepping thread does. -/
theorem finishing_put (c : Config ι (Store ι) Pc) (t : ι) (s : Store ι) (o : Outcome Pc Ret) :
    tally (fun u ↦ finishing ((c.put t (s, o)).pcs u)) + finishing (c.pcs t) =
      tally (fun u ↦ finishing (c.pcs u)) + finishing o.pc :=
  tally_put finishing c t (s, o)

/-- One step changes the handles, decrements and aborts together by what the stepping thread does.
-/
theorem total_put (c : Config ι (Store ι) Pc) (t : ι) (s : Store ι) (o : Outcome Pc Ret) :
    total (c.put t (s, o)) + dropping (c.pcs t) + aborting (c.pcs t) =
      s.live.card + s.forgotten + tally (fun u ↦ dropping (c.pcs u)) + dropping o.pc +
        tally (fun u ↦ aborting (c.pcs u)) + aborting o.pc := by
  have h₁ := held_put c t s o
  have h₂ : tally (fun u ↦ aborting ((c.put t (s, o)).pcs u)) + aborting (c.pcs t) =
      tally (fun u ↦ aborting (c.pcs u)) + aborting o.pc := tally_put aborting c t (s, o)
  unfold total
  omega

namespace Inv

variable {t u : ι} {p : Pc}

omit [DecidableEq ι] in
/-- While something counts, the allocation is there and nobody is about to give it back. -/
theorem allocated (h : Inv c) (hpos : 0 < total c) :
    c.shared.freed = 0 ∧ tally (fun t ↦ finishing (c.pcs t)) = 0 := by
  have := h.ended
  rw [if_neg hpos.ne'] at this
  omega

omit [DecidableEq ι] in
/-- Whoever has a reference has it to a live handle. -/
theorem live_pos (h : Inv c) (hne : c.shared.borrows t ≠ []) : 0 < c.shared.live.card := by
  obtain ⟨a, ha⟩ := List.exists_mem_of_ne_nil _ hne
  exact Finset.card_pos.2 ⟨a, h.borrowed t a ha⟩

omit [DecidableEq ι] in
/-- Without a live handle nobody has a reference. -/
theorem borrows_nil (h : Inv c) (hlive : c.shared.live = ∅) (t : ι) : c.shared.borrows t = [] := by
  refine List.eq_nil_iff_forall_not_mem.2 fun a ha ↦ ?_
  have := h.borrowed t a ha
  rw [hlive] at this
  exact absurd this (Finset.notMem_empty a)

omit [DecidableEq ι] in
/-- A thread inside a call counts, goes through a handle that does, or is the one that frees. -/
theorem counts (h : Inv c) (hpc : c.pcs t = some p) :
    dropping (some p) + aborting (some p) = 1 ∨ 0 < c.shared.live.card ∨
      finishing (some p) = 1 := by
  cases p with
  | increment | access => exact Or.inr (Or.inl (h.live_pos (h.borrows t _ hpc trivial)))
  | abort | loadCount | take | decrement => exact Or.inl rfl
  | fence | free => exact Or.inr (Or.inr rfl)

/-- **`into_inner` is alone**: when it has found the counter at one, no other handle, reference or
call is left. -/
theorem alone (h : Inv c) (hu : c.pcs u = some .take) :
    c.shared.live = ∅ ∧ c.shared.forgotten = 0 ∧ ∀ t, t ≠ u → c.pcs t = none := by
  have hone := h.taken u hu
  obtain ⟨-, hfin⟩ := h.allocated (by omega)
  have hshare : dropping (c.pcs u) = 1 := by rw [hu]; rfl
  have hle := le_tally (fun t ↦ dropping (c.pcs t)) u
  have hlive : c.shared.live.card = 0 := by
    unfold total held at hone
    omega
  refine ⟨Finset.card_eq_zero.1 hlive, ?_, fun t ht ↦ ?_⟩
  · unfold total held at hone
    omega
  · cases hpc : c.pcs t with
    | none => rfl
    | some p =>
      have hd := add_le_tally (fun t ↦ dropping (c.pcs t)) ht
      have ha := le_tally (fun t ↦ aborting (c.pcs t)) t
      have hf := le_tally (fun t ↦ finishing (c.pcs t)) t
      rw [hpc] at hd ha hf
      unfold total held at hone
      rcases h.counts hpc with hs | hs | hs <;> omega

/-- Only one thread can be at the last access of `into_inner`. -/
theorem not_take (h : Inv c) (hpc : c.pcs t = some p) (hu : u ≠ t) : c.pcs u ≠ some .take := by
  intro htake
  rw [(h.alone htake).2.2 t hu.symm] at hpc
  cases hpc

/-- Nobody takes the contents while a handle is left. -/
theorem not_take_of_live (h : Inv c) (hpos : 0 < c.shared.live.card) (u : ι) :
    c.pcs u ≠ some .take := by
  intro htake
  rw [(h.alone htake).1] at hpos
  exact absurd hpos (by simp)

/-- The invariant after an access of `t`, which moves no reference and consumes no handle. The new
counts are `m` for the handles held, `n` for the total and `k` for the calls about to free. -/
theorem of_access (h : Inv c) (hpc : c.pcs t = some p) {s' : Store ι} {o : Outcome Pc Ret}
    {m n k : ℕ} (hm : m + dropping (some p) + (c.shared.live.card + c.shared.forgotten) =
      held c + dropping o.pc + (s'.live.card + s'.forgotten))
    (hn : n + dropping (some p) + aborting (some p) + (c.shared.live.card + c.shared.forgotten) =
      total c + dropping o.pc + aborting o.pc + (s'.live.card + s'.forgotten))
    (hk : k + finishing (some p) = tally (fun u ↦ finishing (c.pcs u)) + finishing o.pc)
    (hbor : s'.borrows = c.shared.borrows) (hlive : c.shared.live ⊆ s'.live)
    (hfresh : ∀ a ∈ s'.live, a < s'.next) (hout : ∀ q, o.pc = some q → ¬ q.Borrows)
    (hcount : s'.freed = 0 → s'.refCount.toNat = n) (hended : s'.freed + k = if n = 0 then 1 else 0)
    (htake : o.pc = some .take → n = 1) (hbound : m ≤ isizeMax) (hsound : s'.dangling = false) :
    Inv (c.put t (s', o)) := by
  have hm' := held_put c t s' o
  have hn' := total_put c t s' o
  have hk' := finishing_put c t s' o
  have hheld : held c = c.shared.live.card + c.shared.forgotten + tally fun u ↦
    dropping (c.pcs u) := rfl
  have htotal : total c = held c + tally fun u ↦ aborting (c.pcs u) := rfl
  rw [hpc] at hm' hn' hk'
  obtain rfl : held (c.put t (s', o)) = m := by omega
  obtain rfl : total (c.put t (s', o)) = n := by omega
  obtain rfl : tally (fun u ↦ finishing ((c.put t (s', o)).pcs u)) = k := by omega
  refine ⟨hfresh, fun u a ha ↦ hlive (h.borrowed u a (hbor ▸ ha)), fun u q hq hb ↦ ?_,
    hcount, hended,
    fun u hu ↦ ?_, hbound, hsound⟩
  · rw [Config.put_shared]
    show s'.borrows u ≠ []
    rw [hbor]
    by_cases hut : u = t
    · subst hut
      rw [Config.put_pcs_self] at hq
      exact absurd hb (hout q hq)
    · rw [Config.put_pcs_of_ne _ _ hut] at hq
      exact h.borrows u q hq hb
  · by_cases hut : u = t
    · subst hut
      rw [Config.put_pcs_self] at hu
      exact htake hu
    · rw [Config.put_pcs_of_ne _ _ hut] at hu
      exact absurd hu (h.not_take hpc hut)

omit [DecidableEq ι] in
/-- A thread that counts finds the allocation. -/
theorem touch_sound (h : Inv c) (hpos : 0 < total c) : c.shared.touch.dangling = false := by
  unfold Store.touch
  rw [(h.allocated hpos).1, h.sound]
  rfl

omit [DecidableEq ι] in
/-- A thread that frees is counted. -/
theorem finishing_pos (hpc : c.pcs t = some p) (hp : finishing (some p) = 1) :
    0 < tally fun u ↦ finishing (c.pcs u) := by
  have := le_tally (fun u ↦ finishing (c.pcs u)) t
  rw [hpc, hp] at this
  exact this

omit [DecidableEq ι] in
/-- A decrement that has not been made yet still counts. -/
theorem held_pos_of_dropping (hpc : c.pcs t = some p) (hp : dropping (some p) = 1) :
    0 < held c := by
  have := le_tally (fun u ↦ dropping (c.pcs u)) t
  rw [hpc, hp] at this
  unfold held
  omega

omit [DecidableEq ι] in
/-- A decrement that has not been made yet is part of the counter. -/
theorem total_pos_of_dropping (hpc : c.pcs t = some p) (hp : dropping (some p) = 1) : 0 < total c :=
  (held_pos_of_dropping hpc hp).trans_le (Nat.le_add_right _ _)

omit [DecidableEq ι] in
/-- The counter has room for one more increment. -/
theorem room (h : Inv c) (hι : Fintype.card ι < 2 ^ 63) (hpos : 0 < total c) :
    (c.shared.refCount + 1).toNat = total c + 1 := by
  have hcard : tally (fun u ↦ aborting (c.pcs u)) ≤ Fintype.card ι :=
    tally_le_card fun u ↦ aborting_le (c.pcs u)
  have hcount := h.count (h.allocated hpos).1
  have hbound := h.bound
  have htotal : total c = held c + tally fun u ↦ aborting (c.pcs u) := rfl
  rw [BitVec.toNat_add, show (1 : BitVec 64).toNat = 1 from rfl]
  unfold isizeMax at hbound
  omega

/-- **An access keeps the invariant.** -/
theorem access (hι : Fintype.card ι < 2 ^ 63) (h : Inv c) (hpc : c.pcs t = some p) :
    Inv (c.put t (RefCount.access c.shared p)) := by
  have hbound := h.bound
  have hsub := Finset.Subset.refl c.shared.live
  cases p with
  | increment =>
    have hlive := h.live_pos (h.borrows t _ hpc trivial)
    have hpos : 0 < total c := by
      unfold total held
      omega
    obtain ⟨hfree, hfin⟩ := h.allocated hpos
    have hcount := h.count hfree
    have hroom := h.room hι hpos
    have hle : held c ≤ total c := Nat.le_add_right _ _
    simp only [RefCount.access]
    split_ifs with hmax
    · -- the increment counts although its clone will never exist
      refine h.of_access hpc (m := held c) (n := total c + 1) (k := 0) rfl ?_
        (by rw [hfin]; rfl) rfl
        hsub h.fresh ?_ (fun _ ↦ hroom) ?_ nofun hbound (h.touch_sound hpos)
      · simp [dropping, aborting]
      · rintro _ ⟨⟩
        exact id
      · simp [hfree]
    · have hnew : c.shared.next ∉ c.shared.live := fun hc ↦ absurd (h.fresh _ hc) (lt_irrefl _)
      refine h.of_access hpc (m := held c + 1) (n := total c + 1) (k := 0) ?_ ?_
        (by rw [hfin]; rfl) rfl
        (Finset.subset_insert c.shared.next c.shared.live) ?_ nofun (fun _ ↦ hroom) ?_ nofun ?_
        (h.touch_sound hpos)
      · simp [dropping, hnew]
        omega
      · simp [dropping, aborting, hnew]
        omega
      · intro a ha
        rcases Finset.mem_insert.1 ha with rfl | ha
        · exact Nat.lt_succ_self _
        · exact (h.fresh a ha).trans (Nat.lt_succ_self _)
      · simp [hfree]
      · omega
  | abort =>
    refine h.of_access hpc (m := held c) (n := total c) rfl rfl rfl rfl hsub h.fresh ?_
      h.count h.ended nofun hbound h.sound
    rintro _ ⟨⟩
    exact id
  | access =>
    have hlive := h.live_pos (h.borrows t _ hpc trivial)
    have hpos : 0 < total c := by
      unfold total held
      omega
    exact h.of_access hpc (m := held c) (n := total c) rfl rfl rfl rfl hsub h.fresh nofun
      h.count h.ended nofun hbound (h.touch_sound hpos)
  | loadCount =>
    have hpos := total_pos_of_dropping hpc rfl
    have hcount := h.count (h.allocated hpos).1
    simp only [RefCount.access]
    split_ifs with hone
    · refine h.of_access hpc (m := held c) (n := total c) rfl rfl rfl rfl hsub h.fresh ?_
        h.count h.ended (fun _ ↦ ?_) hbound (h.touch_sound hpos)
      · rintro _ ⟨⟩
        exact id
      · rw [← hcount, hone]
        rfl
    · refine h.of_access hpc (m := held c) (n := total c) rfl rfl rfl rfl hsub h.fresh ?_
        h.count h.ended nofun hbound (h.touch_sound hpos)
      rintro _ ⟨⟩
      exact id
  | take =>
    have hone := h.taken t hpc
    have hpos : 0 < total c := by omega
    obtain ⟨hfree, hfin⟩ := h.allocated hpos
    have hheld := held_pos_of_dropping hpc rfl
    refine h.of_access hpc (m := held c - 1) (n := 0) (k := 0) ?_ ?_ (by rw [hfin]; rfl) rfl
      hsub h.fresh
      nofun nofun ?_ nofun (by omega) (h.touch_sound hpos)
    · show held c - 1 + 1 + _ = held c + 0 + _
      rw [Nat.sub_add_cancel hheld]
      rfl
    · rw [hone]
      rfl
    · simp [Store.release, hfree]
  | decrement r =>
    have hpos := total_pos_of_dropping hpc rfl
    obtain ⟨hfree, hfin⟩ := h.allocated hpos
    have hcount := h.count hfree
    have hheld := held_pos_of_dropping hpc rfl
    simp only [RefCount.access]
    split_ifs with hone
    · have htotal : total c = 1 := by
        rw [← hcount, hone]
        rfl
      refine h.of_access hpc (m := held c - 1) (n := 0) (k := 1) ?_ ?_ (by rw [hfin]; rfl) rfl
        hsub h.fresh
        ?_ (fun _ ↦ ?_) ?_ nofun (by omega) (h.touch_sound hpos)
      · show held c - 1 + 1 + _ = held c + 0 + _
        rw [Nat.sub_add_cancel hheld]
        rfl
      · rw [htotal]
        rfl
      · rintro _ ⟨⟩
        exact id
      · rw [hone]
        rfl
      · simp [hfree]
    · have hmore : total c ≠ 1 := by
        intro ht
        refine hone (BitVec.eq_of_toNat_eq ?_)
        rw [hcount, ht]
        rfl
      refine h.of_access hpc (m := held c - 1) (n := total c - 1) (k := 0) ?_ ?_
        (by rw [hfin]; rfl) rfl hsub
        h.fresh nofun (fun _ ↦ ?_) ?_ nofun (by omega) (h.touch_sound hpos)
      · show held c - 1 + 1 + _ = held c + 0 + _
        rw [Nat.sub_add_cancel hheld]
        rfl
      · show total c - 1 + 1 + 0 + _ = total c + 0 + 0 + _
        rw [Nat.sub_add_cancel hpos]
        rfl
      · have := c.shared.refCount.isLt
        rw [BitVec.toNat_sub, show (1 : BitVec 64).toNat = 1 from rfl, hcount]
        omega
      · rw [if_neg (by omega)]
        exact congrArg (· + 0) hfree
  | fence r =>
    refine h.of_access hpc (m := held c) (n := total c) rfl rfl rfl rfl hsub h.fresh ?_ h.count
      h.ended nofun
      hbound h.sound
    rintro _ ⟨⟩
    exact id
  | free r =>
    have hfin := finishing_pos hpc rfl
    have hended := h.ended
    have hzero : total c = 0 := by
      by_contra hne
      rw [if_neg hne] at hended
      omega
    rw [if_pos hzero] at hended
    refine h.of_access hpc (m := held c) (n := total c) (k := 0) rfl rfl ?_ rfl hsub h.fresh
      nofun nofun ?_
      nofun hbound ?_
    · show 0 + 1 = tally _ + 0
      omega
    · rw [if_pos hzero]
      show c.shared.freed + 1 + 0 = 1
      omega
    · have hfree : c.shared.freed = 0 := by omega
      simp [Store.release, Store.touch, hfree, h.sound]

/-- The invariant after the start of a call: the handle it consumes, if any, counts as being dropped
or as forgotten. -/
theorem of_enter (h : Inv c) (hpc : c.pcs t = none) {s' : Store ι} {o : Outcome Pc Ret}
    (hpos : 0 < c.shared.live.card)
    (heq : s'.live.card + s'.forgotten + dropping o.pc = c.shared.live.card + c.shared.forgotten)
    (ha : aborting o.pc = 0) (hf : finishing o.pc = 0) (htake : o.pc ≠ some .take)
    (hlive : s'.live ⊆ c.shared.live) (hnext : s'.next = c.shared.next)
    (hbor : ∀ u, ∀ a ∈ s'.borrows u, a ∈ s'.live)
    (hother : ∀ u, u ≠ t → s'.borrows u = c.shared.borrows u)
    (hself : ∀ q, o.pc = some q → q.Borrows → s'.borrows t ≠ [])
    (hcount : s'.refCount = c.shared.refCount) (hfreed : s'.freed = c.shared.freed)
    (hsound : s'.dangling = c.shared.dangling) :
    Inv (c.put t (s', o)) := by
  have hm := held_put c t s' o
  have hn := total_put c t s' o
  have hk := finishing_put c t s' o
  have hheld : held c = c.shared.live.card + c.shared.forgotten + tally fun u ↦
    dropping (c.pcs u) := rfl
  have htotal : total c = held c + tally fun u ↦ aborting (c.pcs u) := rfl
  have hnone : dropping none = 0 ∧ aborting none = 0 ∧ finishing none = 0 := ⟨rfl, rfl, rfl⟩
  rw [hpc] at hm hn hk
  have hm' : held (c.put t (s', o)) = held c := by omega
  have hn' : total (c.put t (s', o)) = total c := by omega
  have hk' : tally (fun u ↦ finishing ((c.put t (s', o)).pcs u)) = tally fun u ↦
      finishing (c.pcs u) := by
    omega
  refine ⟨fun a ha ↦ ?_, hbor, fun u q hq hb ↦ ?_, fun hz ↦ ?_, ?_, fun u hu ↦ ?_,
    hm'.trans_le h.bound, ?_⟩
  · exact (h.fresh a (hlive ha)).trans_eq hnext.symm
  · by_cases hut : u = t
    · subst hut
      rw [Config.put_pcs_self] at hq
      exact hself q hq hb
    · rw [Config.put_pcs_of_ne _ _ hut] at hq
      rw [Config.put_shared]
      show s'.borrows u ≠ []
      rw [hother u hut]
      exact h.borrows u q hq hb
  · rw [hn', ← h.count (hfreed.symm.trans hz)]
    exact congrArg BitVec.toNat hcount
  · rw [hn', hk', ← h.ended]
    exact congrArg (· + _) hfreed
  · by_cases hut : u = t
    · subst hut
      rw [Config.put_pcs_self] at hu
      exact absurd hu htake
    · rw [Config.put_pcs_of_ne _ _ hut] at hu
      exact absurd hu (h.not_take_of_live hpos u)
  · exact hsound.trans h.sound

omit [DecidableEq ι] in
/-- A handle to which nobody has a reference can go. -/
theorem borrowed_consume (h : Inv c) {a : ℕ} (hfree : ∀ u, a ∉ c.shared.borrows u) (u : ι) :
    ∀ b ∈ c.shared.borrows u, b ∈ c.shared.live.erase a := fun b hb ↦
  Finset.mem_erase.2 ⟨fun hba ↦ hfree u (hba ▸ hb), h.borrowed u b hb⟩

/-- The references of one thread change. -/
theorem borrowed_update (h : Inv c) {l : List ℕ} (hl : ∀ b ∈ l, b ∈ c.shared.live) (u : ι) :
    ∀ b ∈ Function.update c.shared.borrows t l u, b ∈ c.shared.live := by
  by_cases hut : u = t
  · subst hut
    rwa [Function.update_self]
  · rw [Function.update_of_ne hut]
    exact h.borrowed u

/-- **The start of a call keeps the invariant.** -/
theorem enter (h : Inv c) (hpc : c.pcs t = none) {op : Op} {r : Store ι × Outcome Pc Ret}
    (he : RefCount.enter t op c.shared = some r) : Inv (c.put t r) := by
  have hsub := Finset.Subset.refl c.shared.live
  unfold RefCount.enter at he
  split_ifs at he with hab
  cases op with
  | borrow a =>
    simp only at he
    split_ifs at he with hmem
    cases he
    refine h.of_enter hpc (Finset.card_pos.2 ⟨a, hmem⟩) rfl rfl rfl
      nofun hsub rfl ?_ ?_ nofun rfl rfl rfl
    · refine h.borrowed_update fun b hb ↦ ?_
      rcases List.mem_cons.1 hb with rfl | hb
      · exact hmem
      · exact h.borrowed t b hb
    · exact fun u hut ↦ Function.update_of_ne hut _ _
  | endBorrow a =>
    simp only at he
    split_ifs at he with hmem
    cases he
    refine h.of_enter hpc (h.live_pos (List.ne_nil_of_mem hmem)) rfl rfl rfl
      nofun hsub rfl ?_ ?_ nofun rfl
      rfl rfl
    · exact h.borrowed_update fun b hb ↦ h.borrowed t b (List.mem_of_mem_erase hb)
    · exact fun u hut ↦ Function.update_of_ne hut _ _
  | clone a | access a =>
    simp only at he
    split_ifs at he with hmem
    cases he
    have hne := List.ne_nil_of_mem hmem
    refine h.of_enter hpc (h.live_pos hne) rfl rfl rfl ?_ hsub rfl h.borrowed (fun _ _ ↦ rfl)
      (fun _ _ _ ↦ hne) rfl rfl rfl
    rintro ⟨⟩
  | drop a | intoInner a =>
    simp only at he
    split_ifs at he with hmem
    cases he
    have hcard := Finset.card_erase_add_one hmem.1
    refine h.of_enter hpc (Finset.card_pos.2 ⟨a, hmem.1⟩) ?_ rfl rfl ?_
      (Finset.erase_subset _ _) rfl
      (h.borrowed_consume hmem.2) (fun _ _ ↦ rfl) ?_ rfl rfl rfl
    · show (c.shared.live.erase a).card + c.shared.forgotten + 1 = _
      omega
    · rintro ⟨⟩
    · rintro _ ⟨⟩
      exact False.elim
  | forget a =>
    simp only at he
    split_ifs at he with hmem
    cases he
    have hcard := Finset.card_erase_add_one hmem.1
    refine h.of_enter hpc (Finset.card_pos.2 ⟨a, hmem.1⟩) ?_ rfl rfl
      nofun (Finset.erase_subset _ _) rfl
      (h.borrowed_consume hmem.2) (fun _ _ ↦ rfl) nofun rfl rfl rfl
    show (c.shared.live.erase a).card + (c.shared.forgotten + 1) + 0 = _
    omega

end Inv

omit [Fintype ι] [DecidableEq ι] in
/-- Nothing is counted for threads outside the object. -/
theorem tally_none {f : Option Pc → ℕ} [Fintype ι] (hf : f none = 0) :
    (tally fun t : ι ↦ f ((init : Config ι (Store ι) Pc).pcs t)) = 0 :=
  tally_eq_zero_iff.2 fun _ ↦ hf

omit [DecidableEq ι] in
/-- The invariant holds of a container that was just made. -/
theorem inv_init : Inv (init : Config ι (Store ι) Pc) := by
  have hd : (tally fun t : ι ↦ dropping ((init : Config ι (Store ι) Pc).pcs t)) = 0 :=
    tally_none rfl
  have ha : (tally fun t : ι ↦ aborting ((init : Config ι (Store ι) Pc).pcs t)) = 0 :=
    tally_none rfl
  have hf : (tally fun t : ι ↦ finishing ((init : Config ι (Store ι) Pc).pcs t)) = 0 :=
    tally_none rfl
  have hheld : held (init : Config ι (Store ι) Pc) = 1 := by
    unfold held
    rw [hd]
    rfl
  have htotal : total (init : Config ι (Store ι) Pc) = 1 := by
    unfold total
    rw [hheld, ha]
  refine ⟨fun a ha ↦ ?_, fun t a ha ↦ ?_, nofun, fun _ ↦ ?_, ?_, nofun, ?_, rfl⟩
  · rw [Finset.mem_singleton.1 ha]
    exact Nat.one_pos
  · cases ha
  · rw [htotal]
    rfl
  · rw [htotal, hf]
    rfl
  · rw [hheld]
    decide

/-- **The invariant holds along every run**, for fewer than `2^63` threads. -/
theorem reach_inv (hι : Fintype.card ι < 2 ^ 63) (h : Reach refCounted ok init c) : Inv c := by
  refine h.invariant inv_init ?_ ?_
  · intro c t op r _ hI _ hpc he
    exact hI.enter hpc he
  · intro c t ch p r _ hI _ hpc he
    simp only [refCounted, exec] at he
    split_ifs at he
    cases he
    exact hI.access hι hpc

/-! ### The allocation

The allocation is given back by one drop or by one `into_inner`, and nobody has a reference by then.
-/

/-- Nothing refers to the allocation any more. -/
def Unreferenced (c : Config ι (Store ι) Pc) : Prop :=
  c.shared.live = ∅ ∧ c.shared.forgotten = 0 ∧ ∀ t, c.shared.borrows t = []

/-- **The allocation is freed once, by the last handle, and never used afterwards.** It is not
accessed after it was given back and is given back at most once; then no handle and no reference is
left and no thread is inside a call; and when every handle has been dropped or consumed and every
call has ended, it has been given back. -/
theorem freed_once (hι : Fintype.card ι < 2 ^ 63) (h : Reach refCounted Always init c) :
    c.shared.dangling = false ∧ c.shared.freed ≤ 1 ∧
    (c.shared.freed = 1 → Unreferenced c ∧ c.Quiet) ∧
    (c.Quiet → Unreferenced c → c.shared.freed = 1) := by
  have hI := reach_inv hι h
  have hended := hI.ended
  refine ⟨hI.sound, ?_, fun hone ↦ ?_, fun hquiet hnone ↦ ?_⟩
  · split_ifs at hended <;> omega
  · have hzero : total c = 0 := by
      by_contra hne
      rw [if_neg hne] at hended
      omega
    rw [if_pos hzero] at hended
    have hlive : c.shared.live = ∅ := by
      unfold total held at hzero
      exact Finset.card_eq_zero.1 (by omega)
    refine ⟨⟨hlive, ?_, hI.borrows_nil hlive⟩, fun t ↦ ?_⟩
    · unfold total held at hzero
      omega
    · cases hpc : c.pcs t with
      | none => rfl
      | some p =>
        have hd := le_tally (fun t ↦ dropping (c.pcs t)) t
        have ha := le_tally (fun t ↦ aborting (c.pcs t)) t
        have hf := le_tally (fun t ↦ finishing (c.pcs t)) t
        rw [hpc] at hd ha hf
        unfold total held at hzero
        rcases hI.counts hpc with hs | hs | hs <;> omega
  · have hz : ∀ f : Option Pc → ℕ, f none = 0 → (tally fun t ↦ f (c.pcs t)) = 0 := fun f hf ↦
      tally_eq_zero_iff.2 fun t ↦ (congrArg f (hquiet t)).trans hf
    have hzero : total c = 0 := by
      unfold total held
      rw [hz dropping rfl, hz aborting rfl, hnone.1, hnone.2.1]
      rfl
    rw [if_pos hzero, hz finishing rfl] at hended
    exact hended

/-- Two handles, used and dropped by two threads: the second drop frees. -/
theorem freed_once_two_threads :
    ∃ c : Config (Fin 2) (Store (Fin 2)) Pc, Reach refCounted Always init c ∧ c.shared.freed = 1 ∧
      c.shared.dangling = false := by
  obtain ⟨c, hc, ht⟩ :=
    Reach.exists_of_replay refCounted Always (init : Config (Fin 2) (Store (Fin 2)) Pc)
    [.call 0 (.borrow 0), .call 0 (.clone 0), .exec 0 .go, .call 0 (.endBorrow 0),
      .call 1 (.borrow 1),
      .call 1 (.access 1), .call 0 (.drop 0), .exec 1 .go, .exec 0 .go, .call 1 (.endBorrow 1),
      .call 1 (.drop 1), .exec 1 .go, .exec 1 .go, .exec 1 .go]
    (fun c ↦ decide (c.shared.freed = 1)) (by decide)
  exact ⟨c, hc, of_decide_eq_true ht, (freed_once (by decide) hc).1⟩

/-- **The counter is exact.** While the allocation is there, the counter is the number of handles
that exist, were forgotten or are being dropped, and of increments that will abort: it does not wrap
around. A clone aborts only when at least `isize::MAX` of them are counted, and `into_inner` takes
the contents only when no other handle, reference or call is left. -/
theorem count_exact (hι : Fintype.card ι < 2 ^ 63) (h : Reach refCounted Always init c) :
    (c.shared.freed = 0 → c.shared.refCount.toNat = total c) ∧
    held c ≤ isizeMax ∧
    (∀ t ch s', c.pcs t = some .increment → exec t ch c.shared .increment =
      some (s', .goto .abort) →
      isizeMax ≤ total c) ∧
    (∀ t, c.pcs t = some .take → Unreferenced c ∧ ∀ u, u ≠ t → c.pcs u = none) := by
  have hI := reach_inv hι h
  refine ⟨hI.count, hI.bound, fun t ch s' hpc he ↦ ?_, fun t hpc ↦ ?_⟩
  · have hlive := hI.live_pos (hI.borrows t _ hpc trivial)
    have hpos : 0 < total c := by
      unfold total held
      omega
    rw [← hI.count (hI.allocated hpos).1]
    simp only [exec, access] at he
    split_ifs at he with hab hmax
    · exact hmax
    · cases he
  · obtain ⟨hlive, hforgotten, hothers⟩ := hI.alone hpc
    exact ⟨⟨hlive, hforgotten, hI.borrows_nil hlive⟩, hothers⟩

/-- `into_inner` on the only handle. -/
theorem count_exact_into_inner :
    ∃ c : Config (Fin 2) (Store (Fin 2)) Pc, Reach refCounted Always init c ∧ c.pcs 0 = some .take ∧
      Unreferenced c := by
  obtain ⟨c, hc, ht⟩ :=
    Reach.exists_of_replay refCounted Always (init : Config (Fin 2) (Store (Fin 2)) Pc)
    [.call 0 (.intoInner 0), .exec 0 .go] (fun c ↦ decide (c.pcs 0 = some .take)) (by decide)
  have hpc : c.pcs 0 = some .take := of_decide_eq_true ht
  exact ⟨c, hc, hpc, ((count_exact (by decide) hc).2.2.2 0 hpc).1⟩

end Runs

end RefCount

end Crossync
