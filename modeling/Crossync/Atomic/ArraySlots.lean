import Crossync.Interleave.Solo
import Crossync.Atomic.ArrayAccount

/-!
# Slot accounting of `AtomicArray`

What the books of the array say to its users.

* **Reservations** (`Accounting`). The slots below `tail` are the reservations of the current
  generation, each made by one push or by the initializer of a reset, and a push that was turned
  away has none.
* **Waits** (`Reserved`). Every slot that a call waits on, locks, reads, writes or unlocks, and
  every slot under a live guard, is a reserved slot of the current storage; one that is still empty
  has its push in flight, so the wait ends with a step of that push.
* **`as_vec`** (`Listing`). Started while no call is in flight it lists the contents of the
  reservations in order, whatever guards are live; without live guards it also returns, within four
  accesses for each element.

A reset exchanges the storage and the counters one after the other, and until the last of these
accesses the counters need not fit the storage. Nobody but the reset is inside the array then, so
the relation between the counters is stated for the configurations in which no reset is in the
middle of its exchange.

## What is said of every configuration

`slots_accounted` has no condition on the configuration except where the counters are compared, and
there the condition is `Calm`. What a waiting call waits for is part of it: a slot it has reached
and found unwritten has a push in flight, which is at one of the three accesses after its
reservation.
-/

open Interleave

namespace Crossync

namespace AtomicArray

variable {ι α : Type*} [DecidableEq ι]

/-! ### `as_vec` run alone

With nobody in the middle of a push the slots below `len` are all written, and the loop reads them
in order. -/

/-- What the slots hold, in reservation order. -/
def Store.contents (s : Store ι α) : List α := (s.ledger s.storage).map Reservation.content

/-- Nothing is in flight: every reservation is counted and written. -/
structure Filled (s : Store ι α) : Prop where
  head : s.head = 0
  length : s.contents.length = s.len
  le : s.len ≤ s.capacity
  state : ∀ i, i < s.len → (s.slot s.storage i).state = .write
  value : ∀ i, i < s.len → (s.slot s.storage i).value = s.contents[i]?

/-- The visit of the `i`-th element by an `as_vec` that was started in the store `s`. -/
structure Visit.Lists (v : Visit α) (s : Store ι α) (i : ℕ) : Prop where
  job : v.job = .asVec
  head : v.head = 0
  len : v.len = s.len
  slots : v.slots = s.storage
  index : v.i = i
  lt : i < s.len

/-- **Where an `as_vec` stands** that was started in the store `s`, and what it has collected. -/
def Pc.Listing (s : Store ι α) : Pc ι α → Prop
  | .coord _ (.job .asVec) | .loadLen .asVec => True
  | .loadHead .asVec len => len = s.len
  | .waitWrite v | .lock _ v | .access v => v.Lists s v.i ∧ v.seen = s.contents.take v.i
  | .unlock _ v => v.Lists s v.i ∧ v.seen = s.contents.take (v.i + 1)
  | .coord _ (.finish (.list vs)) => vs = s.contents
  | .coord _ (.finish (.panicked _)) => True
  | _ => False

section Listing

variable {s₀ s : Store ι α}

omit [DecidableEq ι] in
theorem listing_visitNext {v : Visit α} (hf : Filled s₀) (hjob : v.job = .asVec)
    (hhead : v.head = 0) (hlen : v.len = s₀.len) (hslots : v.slots = s₀.storage) (hi : v.i ≤ s₀.len)
    (hseen : v.seen = s₀.contents.take v.i) :
    (visitNext v s₀.capacity : Pc ι α).Listing s₀ := by
  have hle := hf.le
  simp only [visitNext, hjob]
  split_ifs with h
  · exact ⟨⟨hjob, hhead, hlen, hslots, rfl, hlen ▸ h.1⟩, hseen⟩
  · have hi' : v.i = s₀.len := by
      by_contra hne
      refine h ⟨by omega, ?_⟩
      unfold Visit.target
      omega
    show v.seen = s₀.contents
    rw [hseen, hi', ← hf.length, List.take_length]

variable [Fintype ι] {ids : SerialMutex.OwnerIds ι} {adaptive : ℕ}

/-- **One access of `as_vec`**: the data stays as it was, and what is returned is the contents. -/
theorem exec_listing {t : ι} {ch : Choice ι} {p : Pc ι α} {s' : Store ι α}
    {o : Outcome (Pc ι α) (Ret ι α)} (hf : Filled s₀) (hd : SameData s₀ s) (hp : p.Listing s₀)
    (he : exec ids adaptive t ch s p = some (s', o)) :
    SameData s₀ s' ∧ (∀ q, o = .goto q → q.Listing s₀) ∧
      ∀ vs, o = .ret (.list vs) → vs = s₀.contents := by
  cases p with
  | coord p k =>
    obtain ⟨l, ⟨p', -, rfl, rfl⟩ | ⟨e, -, heq⟩⟩ := coord_cases he
    · refine ⟨hd.trans (.coord s l), ?_, fun _ h ↦ (by cases h)⟩
      rintro _ ⟨⟩
      cases k with
      | job j => cases j <;> exact hp
      | finish r => cases r <;> exact hp
      | _ => exact hp
    · have hd' : SameData s₀ s' := by
        have := hd.trans ((SameData.coord s l).trans (sameData_resume _ k e))
        rwa [← heq] at this
      refine ⟨hd', ?_⟩
      cases k with
      | job j =>
        cases heq
        cases j with
        | asVec =>
          refine ⟨?_, fun _ h ↦ (by cases h)⟩
          rintro _ ⟨⟩
          trivial
        | _ => exact hp.elim
      | finish r =>
        cases heq
        refine ⟨fun _ h ↦ (by cases h), ?_⟩
        rintro vs ⟨⟩
        exact hp
      | _ => exact hp.elim
  | loadLen j =>
    cases he
    refine ⟨hd.trans (.use ..), ?_, fun _ h ↦ (by cases h)⟩
    cases j with
    | asVec =>
      rintro _ ⟨⟩
      show (lenCheck .asVec s.len).Listing s₀
      simp only [lenCheck]
      split_ifs with h
      · show [] = s₀.contents
        refine (List.length_eq_zero_iff.1 ?_).symm
        rw [hf.length, ← hd.len, h]
      · exact hd.len
    | _ => exact hp.elim
  | loadHead j len =>
    cases he
    refine ⟨hd.trans (.use ..), ?_, fun _ h ↦ (by cases h)⟩
    cases j with
    | asVec =>
      rintro _ ⟨⟩
      show (visitNext ⟨.asVec, s.head, len, s.storage, 0, []⟩ s.capacity : Pc ι α).Listing s₀
      rw [hd.capacity]
      exact listing_visitNext hf rfl (hd.head.trans hf.head) hp hd.storage (Nat.zero_le _) rfl
    | _ => exact hp.elim
  | waitWrite v =>
    simp only [exec] at he
    split at he <;> cases he <;> refine ⟨hd, ?_, fun _ h ↦ (by cases h)⟩ <;>
      rintro _ ⟨⟩ <;> exact hp
  | lock p v =>
    simp only [exec] at he
    obtain ⟨l, ⟨p', -, rfl, rfl⟩ | ⟨e, -, heq⟩⟩ := slotStep_cases he
    · refine ⟨hd.trans (.setLock ..), ?_, fun _ h ↦ (by cases h)⟩
      rintro _ ⟨⟩
      exact hp
    · cases e with
      | token w =>
        have hlk : locked t (s.setLock v.slots v.target l) v =
            (s.setLock v.slots v.target l, .goto (.access v)) := by
          simp only [locked, hp.1.job]
        cases heq.trans hlk
        refine ⟨hd.trans (.setLock ..), ?_, fun _ h ↦ (by cases h)⟩
        rintro _ ⟨⟩
        exact hp
      | _ =>
        cases heq
        refine ⟨hd.trans (.setLock ..), ?_, fun _ h ↦ (by cases h)⟩
        rintro _ ⟨⟩
        trivial
  | access v =>
    obtain ⟨hv, hseen⟩ := hp
    have htarget : v.target = v.i := by rw [Visit.target, hv.head, Nat.zero_add]
    have hval : (s.slot v.slots v.target).value = s₀.contents[v.i]? := by
      rw [htarget, hv.slots, hd.value, hf.value _ hv.lt]
    have hlt : v.i < s₀.contents.length := hf.length ▸ hv.lt
    rw [List.getElem?_eq_getElem hlt] at hval
    have hshown : shown s v s₀.contents[v.i] = s := by simp only [shown, hv.job]
    simp only [exec, hval, hshown, Option.some.injEq, Prod.mk.injEq] at he
    obtain ⟨rfl, rfl⟩ := he
    refine ⟨hd, ?_, fun _ h ↦ (by cases h)⟩
    rintro _ ⟨⟩
    refine ⟨⟨hv.job, hv.head, hv.len, hv.slots, rfl, hv.lt⟩, ?_⟩
    show v.seen ++ _ = _
    rw [hseen, List.take_append_getElem hlt]
  | unlock p v =>
    obtain ⟨hv, hseen⟩ := hp
    simp only [exec] at he
    obtain ⟨l, ⟨p', -, rfl, rfl⟩ | ⟨e, -, heq⟩⟩ := slotStep_cases he
    · refine ⟨hd.trans (.setLock ..), ?_, fun _ h ↦ (by cases h)⟩
      rintro _ ⟨⟩
      exact ⟨hv, hseen⟩
    · cases e with
      | unit =>
        cases heq
        refine ⟨(hd.trans (.setLock ..)).trans (.use ..), ?_, fun _ h ↦ (by cases h)⟩
        rintro _ ⟨⟩
        rw [hd.capacity]
        exact listing_visitNext hf hv.job hv.head hv.len hd.storage hv.lt hseen
      | _ =>
        cases heq
        refine ⟨hd.trans (.setLock ..), ?_, fun _ h ↦ (by cases h)⟩
        rintro _ ⟨⟩
        trivial
  | _ => exact hp.elim

/-- An `as_vec` run alone returns the contents, if it returns a list. -/
theorem solo_listing {t : ι} (hf : Filled s₀) {chs : List (Choice ι)} {s' : Store ι α}
    {vs : List α} :
    ∀ {s : Store ι α} {p : Pc ι α}, SameData s₀ s → p.Listing s₀ →
      (atomicArray ids adaptive).solo t chs (s, .goto p) = some (s', .list vs) →
      vs = s₀.contents := by
  induction chs with
  | nil =>
    intro s p _ _ h
    cases h
  | cons ch chs ih =>
    intro s p hd hp h
    obtain ⟨⟨s₁, o⟩, he, h⟩ := Option.bind_eq_some_iff.1 h
    obtain ⟨hd₁, hgo, hret⟩ := exec_listing hf hd hp he
    cases o with
    | goto q => exact ih hd₁ (hgo q rfl) h
    | ret r =>
      have hr : r = .list vs := by
        cases chs <;> exact (Prod.mk.inj (Option.some.inj h)).2
      exact hret vs (by rw [hr])

/-! ### `as_vec` returns

Run alone without guards in the way, the call waits for nobody, and the bound on its accesses is
linear in the number of elements. -/

/-- No lock is in the way of a reader of the slots from `i` on. -/
structure Unheld (s : Store ι α) (i : ℕ) : Prop where
  unparked : Word.wp s.coordLock.state = false
  slots : ∀ j, i ≤ j → (s.slot s.storage j).lock.state = 0

/-- A shared release of the coordination lock is one access. -/
theorem returns_release {t : ι} {k : After ι α} {n : ℕ} {Q : Store ι α → Ret ι α → Prop}
    (hwp : Word.wp s.coordLock.state = false)
    (hnext : ∀ l : RawMutex.Store ι,
      (atomicArray ids adaptive).Returns t n Q (resume { s with coordLock := l } k .unit)) :
    (atomicArray ids adaptive).Returns t (n + 1) Q (s, .goto (.coord .unlockShared k)) := by
  refine .step fun ch ↦
    ⟨_, ?_, hnext (s.coordLock.dropShared t (s.coordLock.state - Word.oneReader))⟩
  have hrun : RawMutex.exec adaptive t ch s.coordLock .unlockShared =
      some (s.coordLock.dropShared t (s.coordLock.state - Word.oneReader), .ret .unit) := by
    simp only [RawMutex.exec, Option.some.injEq, Prod.mk.injEq, true_and]
    rw [if_neg]
    rintro ⟨-, h⟩
    exact h (Word.and_writersParked_eq_zero_iff.2 hwp)
  simp only [atomicArray, exec, hrun]

/-- A call returns by dropping its coordination guard. -/
theorem returns_leave {t : ι} (hwp : Word.wp s.coordLock.state = false)
    {Q : Store ι α → Ret ι α → Prop} {r : Ret ι α} (hq : ∀ s', Q s' r) :
    (atomicArray ids adaptive).Returns t 1 Q (s, .goto (leave r)) :=
  returns_release hwp fun _ ↦ .ret (hq _)

/-- A written slot whose lock is free is passed in four accesses. -/
theorem returns_pass {t : ι} {v : Visit α} {n i : ℕ} {Q : Store ι α → Ret ι α → Prop}
    (hf : Filled s₀) (hd : SameData s₀ s) (hu : Unheld s i) (hv : v.Lists s₀ i)
    (hnext : ∀ s' x, SameData s₀ s' → Unheld s' (i + 1) → s₀.contents[i]? = some x →
      (atomicArray ids adaptive).Returns t n Q (s', .goto (visitNext
        { v with i := v.i + 1, slots := s₀.storage, seen := v.seen ++ [x] } s₀.capacity))) :
    (atomicArray ids adaptive).Returns t (n + 4) Q (s, .goto (.waitWrite v)) := by
  have htarget : v.target = i := by rw [Visit.target, hv.head, hv.index, Nat.zero_add]
  have hslots : v.slots = s.storage := hv.slots.trans hd.storage.symm
  have hreads : v.job.reads = true := by rw [hv.job]; rfl
  have hlt : i < s₀.contents.length := hf.length ▸ hv.lt
  have hlock : (s.slot v.slots v.target).lock.state = 0 := by
    rw [hslots]
    exact hu.slots _ htarget.ge
  set w := SerialMutex.desired ids t true with hw
  set l := (s.slot v.slots v.target).lock with hl
  set s₁ := s.setLock v.slots v.target (l.gainRead t w) with hs₁
  have hd₁ : SameData s₀ s₁ := hd.trans (.setLock ..)
  have hl₁ : (s₁.slot v.slots v.target).lock = l.gainRead t w := by
    rw [hs₁, Store.setLock, slot_setSlot_self]
  -- the state of the slot
  refine .step fun ch ↦ ⟨(s, .goto (.lock (.lockFast true) v)), ?_, ?_⟩
  · have hst : (s.slot v.slots v.target).state = .write := by
      rw [htarget, hv.slots, hd.state, hf.state _ hv.lt]
    simp only [atomicArray, exec, hst, hreads]
  -- its lock is free
  refine .step fun ch ↦ ⟨(s₁, .goto (.access v)), ?_, ?_⟩
  · have hrun : SerialMutex.exec ids adaptive t ch l (.lockFast true) =
        some (l.gainRead t w, .ret (.token (ids.id t))) := by
      simp only [SerialMutex.exec, cas, hlock, if_pos, SerialMutex.gain, hw]
    simp only [atomicArray, exec, slotStep, ← hl, hrun, locked, hv.job, ← hs₁]
  -- the element is cloned
  refine .step fun ch ↦ ⟨(s₁, .goto (.unlock (.unlockReadFast t)
    { v with seen := v.seen ++ [s₀.contents[i]] })), ?_, ?_⟩
  · have hval : (s₁.slot v.slots v.target).value = some s₀.contents[i] := by
      rw [htarget, hv.slots, hd₁.value, hf.value _ hv.lt, List.getElem?_eq_getElem hlt]
    have hshown : shown s₁ v s₀.contents[i] = s₁ := by simp only [shown, hv.job]
    simp only [atomicArray, exec, hval, hshown, hreads, releasePc, if_pos]
  -- and the slot guard dropped
  have hrun : ∀ ch, SerialMutex.exec ids adaptive t ch (l.gainRead t w) (.unlockReadFast t) =
      some ((l.gainRead t w).dropRead t t 0, .ret .unit) := by
    intro ch
    have hstate : (l.gainRead t w).state = SerialWord.ownerBits (ids.id t) ||| 1 := rfl
    simp only [SerialMutex.exec, cas, hstate, if_pos]
  set s₂ := s₁.setLock v.slots v.target ((l.gainRead t w).dropRead t t 0) with hs₂
  have hd₂ : SameData s₀ (s₂.use t [s₁.storage]) := (hd₁.trans (.setLock ..)).trans (.use ..)
  refine .step fun ch ↦ ⟨(s₂.use t [s₁.storage], .goto (visitNext { v with
    i := v.i + 1, slots := s₀.storage, seen := v.seen ++ [s₀.contents[i]] } s₀.capacity)), ?_, ?_⟩
  · have hrun' := hrun ch
    rw [← hl₁] at hrun'
    simp only [atomicArray, exec, slotStep, Visit.target]
    rw [show v.head + v.i = v.target from rfl, hrun']
    simp only [hd₁.storage, hd₁.capacity, hs₂, hl₁]
  refine hnext _ _ hd₂ ⟨?_, fun j hj ↦ ?_⟩ (List.getElem?_eq_getElem hlt)
  · exact hu.unparked
  · have hne : j ≠ v.target := by omega
    show ((s₂.slot s₂.storage j).lock).state = 0
    have hst₂ : s₂.storage = s.storage := rfl
    rw [hst₂, hs₂, Store.setLock, slot_setSlot, if_neg (by simp [hne]), hs₁, Store.setLock,
      slot_setSlot, if_neg (by simp [hne])]
    exact hu.slots j (by omega)

/-- The loop of `as_vec` ends, with the contents. -/
theorem returns_visitNext {t : ι} (hf : Filled s₀) (k : ℕ) :
    ∀ {s : Store ι α} {v : Visit α}, SameData s₀ s → Unheld s v.i → v.job = .asVec → v.head = 0 →
      v.len = s₀.len → v.slots = s₀.storage → v.i + k = s₀.len → v.seen = s₀.contents.take v.i →
      (atomicArray ids adaptive).Returns t (4 * k + 1) (fun _ r ↦ r = .list s₀.contents)
        (s, .goto (visitNext v s₀.capacity)) := by
  induction k with
  | zero =>
    intro s v hd hu hjob hhead hlen hslots hi hseen
    have hexit : (visitNext v s₀.capacity : Pc ι α) = leave (.list s₀.contents) := by
      have hi' : v.i = s₀.contents.length := by rw [hf.length]; exact hi
      simp only [visitNext, hjob]
      rw [if_neg (by omega), hseen, hi', List.take_length]
    rw [hexit]
    exact returns_leave hu.unparked fun _ ↦ rfl
  | succ k ih =>
    intro s v hd hu hjob hhead hlen hslots hi hseen
    have hle := hf.le
    have hstay : (visitNext v s₀.capacity : Pc ι α) = .waitWrite v := by
      have htarget : v.target = v.i := by rw [Visit.target, hhead, Nat.zero_add]
      simp only [visitNext, hjob]
      rw [if_pos ⟨by omega, by omega⟩]
    rw [hstay]
    have hv : v.Lists s₀ v.i := ⟨hjob, hhead, hlen, hslots, rfl, by omega⟩
    refine (returns_pass (n := 4 * k + 1) hf hd hu hv fun s' x hd' hu' hx ↦ ?_).mono (by omega)
    refine ih hd' hu' hjob hhead hlen rfl (by show v.i + 1 + k = _; omega) ?_
    show v.seen ++ [x] = s₀.contents.take (v.i + 1)
    rw [hseen, List.take_add_one, hx]
    rfl

/-- Run alone, the coordination lock is taken shared in two accesses. -/
theorem returns_shared {t : ι} {k : After ι α} {n : ℕ} {Q : Store ι α → Ret ι α → Prop}
    (hcount : Word.count s.coordLock.state + 1 < Word.writerCount)
    (hwp : Word.wp s.coordLock.state = false)
    (hnext : ∀ l : RawMutex.Store ι, Word.wp l.state = false →
      (atomicArray ids adaptive).Returns t n Q (resume { s with coordLock := l } k .unit)) :
    (atomicArray ids adaptive).Returns t (n + 2) Q (s, .goto (shared k)) := by
  obtain ⟨w, hadm, hw⟩ : ∃ w, Word.admitShared s.coordLock.state = some w ∧ Word.wp w = false := by
    refine ⟨_, Word.admitShared_eq_some_iff.2 ⟨hcount, hwp, rfl⟩, ?_⟩
    rw [(Word.count_add_oneReader (by omega)).2.1]
    exact hwp
  refine .step fun ch ↦ ⟨(s, .goto (.coord (.sharedFastCas true s.coordLock.state w) k)), ?_, ?_⟩
  · have hrun : RawMutex.exec adaptive t ch s.coordLock (.sharedFastLoad true) =
        some (s.coordLock, .goto (.sharedFastCas true s.coordLock.state w)) := by
      simp only [RawMutex.exec, hadm]
    simp only [atomicArray, shared, exec, hrun]
  refine .step fun ch ↦ ⟨_, ?_, hnext (s.coordLock.gainShared t w) hw⟩
  have hrun : RawMutex.exec adaptive t ch s.coordLock (.sharedFastCas true s.coordLock.state w) =
      some (s.coordLock.gainShared t w, .ret .unit) := by
    simp only [RawMutex.exec, cas, if_pos, RawMutex.sharedDone]
  simp only [atomicArray, exec, hrun]

/-- **`as_vec` lists the contents.** Run alone while nothing is in flight and no lock is held, it
returns, and what it returns are the contents. -/
theorem returns_asVec {t : ι} (hf : Filled s) (hu : Unheld s 0)
    (hcount : Word.count s.coordLock.state = 0) :
    (atomicArray ids adaptive).Returns t (4 * s.len + 5) (fun _ r ↦ r = .list s.contents)
      (s.start t, .goto (shared (.job .asVec))) := by
  refine returns_shared (s := s.start t) ?_ hu.unparked fun l hl ↦ ?_
  · show Word.count s.coordLock.state + 1 < _
    rw [hcount]
    decide
  obtain ⟨s₁, hs₁⟩ : ∃ s₁ : Store ι α, s₁ = { s.start t with coordLock := l } := ⟨_, rfl⟩
  have hd₁ : SameData s s₁ := by
    rw [hs₁]
    exact .of_heap rfl rfl rfl rfl rfl rfl rfl rfl rfl rfl rfl rfl rfl
  have hwp₁ : Word.wp s₁.coordLock.state = false := by
    rw [hs₁]
    exact hl
  have hslots₁ : ∀ j, (s₁.slot s₁.storage j).lock.state = 0 := by
    rw [hs₁]
    exact fun j ↦ hu.slots j (Nat.zero_le j)
  show (atomicArray ids adaptive).Returns t _ _
    ({ s.start t with coordLock := l }, .goto (.loadLen .asVec))
  rw [← hs₁]
  refine .step fun ch ↦ ⟨(s₁.use t [s₁.lenGen], .goto (lenCheck .asVec s.len)), ?_, ?_⟩
  · simp only [atomicArray, exec, hd₁.len]
  by_cases hlen : s.len = 0
  · have hexit : (lenCheck .asVec s.len : Pc ι α) = leave (.list s.contents) := by
      simp only [lenCheck, if_pos hlen]
      rw [List.length_eq_zero_iff.1 (hf.length.trans hlen)]
    rw [hexit]
    refine Object.Returns.mono (n := 1) (returns_leave ?_ fun _ ↦ rfl) (by omega)
    exact hwp₁
  · have hgo : (lenCheck .asVec s.len : Pc ι α) = .loadHead .asVec s.len := by
      simp only [lenCheck, if_neg hlen]
    rw [hgo]
    refine .step fun ch ↦ ⟨((s₁.use t [s₁.lenGen]).use t [s₁.headGen, s₁.storage],
      .goto (visitNext ⟨.asVec, s₁.head, s.len, s₁.storage, 0, []⟩ s.capacity)), ?_, ?_⟩
    · simp only [atomicArray, exec, visitFirst, ← hd₁.capacity]
      rfl
    exact returns_visitNext hf s.len ((hd₁.trans (.use ..)).trans (.use ..))
      ⟨hwp₁, fun j _ ↦ hslots₁ j⟩ rfl (hd₁.head.trans hf.head) rfl hd₁.storage (Nat.zero_add _) rfl

end Listing

/-! ### The account of the slots

What the books say in the terms of the public interface. -/

/-- The slot that a program point waits on, locks, reads, writes or unlocks, with its storage. -/
def Pc.touches : Pc ι α → Option (ℕ × ℕ)
  | .waitWrite v | .lock _ v | .access v | .unlock _ v => some (v.slots, v.target)
  | .dropSlot _ g => some (g.storage, g.index)
  | .pushWrite _ a i | .pushLen _ a i | .pushState _ a i => some (a, i)
  | _ => none

/-- **A reserved slot of the storage in use**: below `tail`, which is at most the capacity, and
empty only while the push that reserved it is in flight. -/
structure Reserved (c : Config ι (Store ι α) (Pc ι α)) (a i : ℕ) : Prop where
  storage : a = c.shared.storage
  lt_tail : i < c.shared.tail
  lt_capacity : i < c.shared.capacity
  entry : ∃ r, (c.shared.ledger a)[i]? = some r
  pending : (c.shared.slot a i).state = .empty →
    ∃ u p v r, c.pcs u = some p ∧
      (p = .pushWrite v a i ∨ p = .pushLen v a i ∨ p = .pushState v a i) ∧
      (c.shared.ledger a)[i]? = some r ∧ r.pusher = some (ticket c.shared u) ∧ r.accepted = v

section Account

variable [Fintype ι] {ids : SerialMutex.OwnerIds ι} {adaptive capacity : ℕ}
  {c : Config ι (Store ι α) (Pc ι α)} {t : ι}

omit [DecidableEq ι] in
/-- A slot below `tail`, seen while no reset is in the middle of its exchange. -/
theorem Books.reserved (h : Books c) (hcalm : Calm c) {a i : ℕ} (ha : a = c.shared.storage)
    (hi : i < c.shared.tail) : Reserved c a i := by
  have hset := h.settled hcalm
  subst ha
  refine ⟨rfl, hi, hi.trans_le hset.tail_le, ?_, fun he ↦ ?_⟩
  · exact ⟨_, List.getElem?_eq_getElem (hset.length ▸ hi)⟩
  · obtain ⟨u, hu⟩ := h.flying hcalm i hi he
    obtain ⟨p, hp, hfl⟩ := Option.bind_eq_some_iff.1 hu
    have hold := h.holds u p hp
    cases p with
    | pushWrite v a j =>
      cases hfl
      have hst : a = c.shared.storage := hold.storage
      subst hst
      exact ⟨u, _, v, _, hp, Or.inl rfl, hold.entry, rfl, rfl⟩
    | pushLen v a j =>
      cases hfl
      have hst : a = c.shared.storage := hold.1.storage
      subst hst
      exact ⟨u, _, v, _, hp, Or.inr (Or.inl rfl), hold.1.entry, rfl, rfl⟩
    | pushState v a j =>
      cases hfl
      have hst : a = c.shared.storage := hold.1.storage
      subst hst
      exact ⟨u, _, v, _, hp, Or.inr (Or.inr rfl), hold.1.entry, rfl, rfl⟩
    | _ => cases hfl

omit [DecidableEq ι] [Fintype ι] in
/-- A reservation in flight is below `tail`. -/
theorem InFlight.lt_tail {s : Store ι α} {v : α} {a i : ℕ} (h : InFlight t s v a i)
    (hs : Settled s) : i < s.tail := by
  obtain ⟨hlt, -⟩ := List.getElem?_eq_some_iff.1 h.entry
  rwa [h.storage, hs.length] at hlt

/-- **What a call touches is reserved.** -/
theorem Books.touches (h : Books c) (hl : Locks ids c) {p : Pc ι α} (hpc : c.pcs t = some p)
    {a i : ℕ} (hp : p.touches = some (a, i)) : Reserved c a i := by
  have hpin : p.pinned = 1 := by cases p <;> first | rfl | cases hp
  have hcalm := (hl.calm_of_pinned hpc hpin).2
  have hset := h.settled hcalm
  have hold := h.holds t p hpc
  cases p with
  | waitWrite v =>
    cases hp
    exact h.reserved hcalm hold.slots hold.target_lt
  | lock q v | access v | unlock q v =>
    cases hp
    exact h.reserved hcalm hold.1.slots hold.1.target_lt
  | dropSlot q g =>
    cases hp
    exact h.reserved hcalm hold.storage hold.lt
  | pushWrite v b j =>
    cases hp
    exact h.reserved hcalm hold.storage (hold.lt_tail hset)
  | pushLen v b j | pushState v b j =>
    cases hp
    exact h.reserved hcalm hold.1.storage (hold.1.lt_tail hset)
  | _ => cases hp

/-- A verdict of a push is returned by the release of the coordination lock. -/
theorem exec_verdict {ch : Choice ι} {s s' : Store ι α} {p : Pc ι α} {r : Ret ι α}
    (he : exec ids adaptive t ch s p = some (s', .ret r))
    (hr : r = .pushed ∨ ∃ v, r = .full v) :
    ∃ q l, p = .coord q (.finish r) ∧ s' = { s with coordLock := l } := by
  have hlock : ∀ {v : Visit α} {s : Store ι α}, (s', .ret r) ≠ locked t s v := by
    intro v s h
    obtain hl | hl := locked_cases t s v <;> rw [hl] at h <;> cases h
    obtain hr | ⟨_, hr⟩ := hr <;> cases hr
  cases p with
  | coord q k =>
    obtain ⟨l, ⟨p', -, rfl, h⟩ | ⟨e, -, h⟩⟩ := coord_cases he
    · cases h
    · cases k with
      | finish r' =>
        cases h
        exact ⟨q, l, rfl, rfl⟩
      | unwind r' =>
        cases h
        obtain hr | ⟨_, hr⟩ := hr <;> cases hr
      | attempt r' =>
        cases e with
        | bool b => cases b <;> cases h
        | _ => cases h
      | _ => cases h
  | lock q v =>
    simp only [exec] at he
    obtain ⟨l, ⟨p', -, rfl, h⟩ | ⟨e, -, h⟩⟩ := slotStep_cases he
    · cases h
    · split at h
      · exact (hlock h).elim
      · cases h
  | unlock q v | dropSlot q v =>
    simp only [exec] at he
    obtain ⟨l, ⟨p', -, rfl, h⟩ | ⟨e, -, h⟩⟩ := slotStep_cases he
    · cases h
    · split at h <;> cases h
      try obtain hr | ⟨_, hr⟩ := hr <;> cases hr
  | resetDrop q old =>
    cases he
    obtain hr | ⟨_, hr⟩ := hr <;> cases hr
  | pushCas | waitWrite | access | inspect =>
    simp only [exec] at he
    split at he <;> cases he
  | _ => cases he

omit [DecidableEq ι] in
/-- Nothing is in flight while nobody is inside a call. -/
theorem Books.filled (h : Books c) (hq : c.Quiet) : Filled c.shared := by
  have hnone : ∀ u p, c.pcs u ≠ some p := fun u p hp ↦ by
    rw [hq u] at hp
    cases hp
  have hset := h.settled fun u p hp ↦ absurd hp (hnone u p)
  have hlen : c.shared.len = c.shared.tail := by
    have := h.count fun u p hp ↦ absurd hp (hnone u p)
    rwa [uncounted, show (fun u ↦ (c.pcs u).elim 0 Pc.uncounted) = fun _ ↦ 0 from
      funext fun u ↦ by rw [hq u]; rfl, tally_zero, Nat.add_zero] at this
  have hwritten : ∀ i, i < c.shared.len → (c.shared.slot c.shared.storage i).state = .write := by
    intro i hi
    cases hst : (c.shared.slot c.shared.storage i).state with
    | write => rfl
    | empty =>
      obtain ⟨u, hu⟩ := h.flying (fun u p hp ↦ absurd hp (hnone u p)) i (hlen ▸ hi) hst
      rw [hq u] at hu
      cases hu
  refine ⟨hset.head, ?_, hlen ▸ hset.tail_le, hwritten, fun i hi ↦ ?_⟩
  · rw [Store.contents, List.length_map, hset.length, hlen]
  · obtain ⟨r, hr, hv⟩ := hset.value (hlen ▸ hi) (hwritten i hi)
    rw [hv, Store.contents, List.getElem?_map, hr]
    rfl

/-- Without guards and calls, no lock is held. -/
theorem Locks.unheld (h : Locks ids c) (hq : c.Quiet) (hg : ∀ u, c.shared.guards u = []) :
    Unheld c.shared 0 ∧ Word.count c.shared.coordLock.state = 0 := by
  have hrec : ∀ a i read b u, (c.shared.slot a i).lock.record read b u = 0 := by
    intro a i read b u
    refine ((h.mine u).record ⟨a, i, read, b⟩).trans ?_
    simp [hands, hg u, hq u]
  refine ⟨⟨h.sound.unparked, fun j _ ↦ ?_⟩, ?_⟩
  · have hr : ∀ b u, (c.shared.slot c.shared.storage j).lock.reads b u = 0 := fun b u ↦
      hrec c.shared.storage j true b u
    have hw : ∀ b u, (c.shared.slot c.shared.storage j).lock.writes b u = 0 := fun b u ↦
      hrec c.shared.storage j false b u
    cases h.sound.exact c.shared.storage j with
    | free hs => exact hs
    | readBy o hown _ hpos hcount =>
      rw [tally_eq_zero_iff.2 (hr o)] at hcount
      omega
    | writtenBy o hown _ hcount _ hone =>
      rw [tally_eq_zero_iff.2 (hw o)] at hone
      omega
  · have hsh : tally c.shared.coordLock.shared = 0 := tally_eq_zero_iff.2 fun u ↦ by
      rw [(h.mine u).shared, hg u, hq u]
      rfl
    have hex : tally c.shared.coordLock.exclusive = 0 := tally_eq_zero_iff.2 fun u ↦ by
      rw [(h.mine u).exclusive, hq u]
      rfl
    rcases h.sound.accounts with ⟨he, -, -⟩ | ⟨-, hs, -⟩ <;> omega

variable (ids adaptive c) in
/-- **The account of the slots** in one configuration. -/
structure Accounting : Prop where
  /-- `len` counts completed writes, `tail` counts reservations, and the capacity bounds both. -/
  counters : Calm c → c.shared.len ≤ c.shared.tail ∧ c.shared.tail ≤ c.shared.capacity ∧
    (c.shared.ledger c.shared.storage).length = c.shared.tail
  /-- In the middle of an exchange nobody else is in a section of the array, and no guard is
  live. -/
  alone : ∀ t p, c.pcs t = some p → p.exchanging = true → ∀ u, c.shared.guards u = [] ∧
    ∀ q, c.pcs u = some q → u ≠ t → q.pinned = 0 ∧ q.sealed = 0
  /-- A push has reserved one slot of one generation at most, for the value it was called with. -/
  once : ∀ (a b i j : ℕ) r r' k, (c.shared.ledger a)[i]? = some r →
    (c.shared.ledger b)[j]? = some r' →
    r.pusher = some k → r'.pusher = some k → a = b ∧ i = j
  named : ∀ a, ∀ r ∈ c.shared.ledger a, ∀ u n, r.pusher = some (u, n) →
    (c.shared.offered u)[n]? = some r.accepted
  /-- What a call waits on or dereferences, and what a guard points to. -/
  touched : ∀ t p a i, c.pcs t = some p → p.touches = some (a, i) → Reserved c a i
  guarded : ∀ t, ∀ g ∈ c.shared.guards t, Reserved c g.storage g.index ∧
    (c.shared.slot g.storage g.index).state = .write
  /-- No slot was read before it was written. -/
  defined : c.shared.undefined = false
  /-- A push is turned away, with its own value, only by a full array, and has reserved nothing. -/
  full : ∀ t ch p s' v, c.pcs t = some p → exec ids adaptive t ch c.shared p =
    some (s', .ret (.full v)) →
    s'.tail = s'.capacity ∧ (s'.offered t).getLast? = some v ∧
      ∀ a, ∀ r ∈ s'.ledger a, r.pusher ≠ some (ticket s' t)
  /-- The value of an accepted push is in one slot, and in no other. -/
  pushed : ∀ t ch p s', c.pcs t = some p → exec ids adaptive t ch c.shared p =
    some (s', .ret .pushed) →
    ∃ i r, (s'.ledger s'.storage)[i]? = some r ∧ r.pusher = some (ticket s' t) ∧
      (s'.offered t).getLast? = some r.accepted ∧
      (s'.slot s'.storage i).state = .write ∧ (s'.slot s'.storage i).value = some r.content ∧
      ∀ (b j : ℕ) r', (s'.ledger b)[j]? = some r' → r'.pusher = some (ticket s' t) →
        b = s'.storage ∧ j = i
  /-- While no call is in flight, what `as_vec` returns is the contents in reservation order. -/
  lists : c.Quiet → ∀ t x chs s' vs, enter t .asVec c.shared = some x →
    (atomicArray ids adaptive).solo t chs x = some (s', .list vs) → vs = c.shared.contents
  /-- And it does return, if no guard is live. -/
  returns : c.Quiet → (∀ t, c.shared.guards t = []) → ∀ t, ∃ x, enter t .asVec c.shared = some x ∧
    (atomicArray ids adaptive).Returns t (4 * c.shared.len + 5)
      (fun _ r ↦ r = .list c.shared.contents) x

/-- A release that returns the verdict of a push. -/
theorem Locks.releasing (h : Locks ids c) {q : RawMutex.Pc} {r : Ret ι α}
    (hpc : c.pcs t = some (.coord q (.finish r))) : RawMutex.phase q = .releaseShared :=
  (h.mine t).phased _ hpc

/-- **Slot accounting.** In every reachable configuration of an array, whatever its capacity and
however its calls interleave, the account of the slots is right. -/
theorem slots_accounted (h : Reach (atomicArray ids adaptive) Always (init capacity) c) :
    Accounting ids adaptive c := by
  have hl := reach_locks h
  have hb := reach_books h
  have hk := reach_tickets h
  have hname : ∀ (s : Store ι α) (a i : ℕ) r, (s.ledger a)[i]? = some r →
      (names s a)[i]? = some (r.pusher, r.accepted) := by
    intro s a i r hr
    rw [names, List.getElem?_map, hr]
    rfl
  have honce : ∀ (a b i j : ℕ) r r' k, (c.shared.ledger a)[i]? = some r →
      (c.shared.ledger b)[j]? = some r' → r.pusher = some k → r'.pusher = some k → a = b ∧ i = j :=
    fun a b i j r r' k hr hr' hp hp' ↦
      hk.once a b i j _ _ k (hname _ a i r hr) (hname _ b j r' hr') hp hp'
  have hnamed : ∀ a, ∀ r ∈ c.shared.ledger a, ∀ u n, r.pusher = some (u, n) →
      (c.shared.offered u)[n]? = some r.accepted := fun a r hr u n hp ↦
    hk.named a (r.pusher, r.accepted) (List.mem_map_of_mem hr) u n hp
  refine ⟨fun hcalm ↦ ?_, fun t p hpc hp u ↦ ?_, honce, hnamed,
    fun t p a i hpc hp ↦ hb.touches hl hpc hp, fun t g hg ↦ ?_, hb.defined, ?_, ?_, ?_, ?_⟩
  · have hset := hb.settled hcalm
    have := hb.count hcalm
    exact ⟨by omega, hset.tail_le, hset.length⟩
  · have hseal : p.sealed = 1 := by cases p <;> first | rfl | cases hp
    obtain ⟨hg, hq⟩ := hl.alone hpc hseal u
    exact ⟨hg, fun q hq' hne ↦ ⟨(hq q hq').1, (hq q hq').2 hne⟩⟩
  · have hw := hb.guards t g hg
    exact ⟨hb.reserved (hl.calm_of_guard hg).2 hw.storage hw.lt, hw.state⟩
  · intro t ch p s' v hpc he
    obtain ⟨q, l, rfl, rfl⟩ := exec_verdict he (Or.inr ⟨v, rfl⟩)
    have hold : RawMutex.phase q = .releaseShared → c.shared.tail = c.shared.capacity :=
      hb.holds t _ hpc
    refine ⟨hold (hl.releasing hpc), hk.last t _ v hpc rfl, fun a r hr hp ↦ ?_⟩
    exact hk.fresh t _ hpc rfl a (r.pusher, r.accepted) (List.mem_map_of_mem hr) hp
  · intro t ch p s' hpc he
    obtain ⟨q, l, rfl, rfl⟩ := exec_verdict he (Or.inl rfl)
    have hph := hl.releasing hpc
    obtain ⟨i, r, hr, hp, hw⟩ : ∃ i r, (c.shared.ledger c.shared.storage)[i]? = some r ∧
        r.pusher = some (ticket c.shared t) ∧ (c.shared.slot c.shared.storage i).state = .write :=
      hb.holds t _ hpc hph
    have hpin : (Pc.coord q (.finish .pushed) : Pc ι α).pinned = 1 := by
      show (RawMutex.phase q).pins = 1
      rw [hph]
      rfl
    have hset := hb.settled (hl.calm_of_pinned hpc hpin).2
    refine ⟨i, r, hr, hp, ?_, hw, hset.content i r hr hw, fun b j r' hr' hp' ↦ ?_⟩
    · rw [List.getLast?_eq_getElem?]
      exact hnamed _ r (List.mem_of_getElem? hr) _ _ hp
    · exact honce _ _ _ _ _ _ _ hr' hr hp' hp
  · rintro hq t _ chs s' vs ⟨⟩ hsolo
    have hd : SameData c.shared (c.shared.start t) :=
      .of_heap rfl rfl rfl rfl rfl rfl rfl rfl rfl rfl rfl rfl rfl
    exact solo_listing (hb.filled hq) hd (by trivial) hsolo
  · intro hq hg t
    obtain ⟨hu, hcount⟩ := hl.unheld hq hg
    exact ⟨_, rfl, returns_asVec (hb.filled hq) hu hcount⟩

end Account

/-- Whether a thread waits on a slot, as a test. -/
def Pc.waitsOn (a i : ℕ) : Pc ι α → Bool
  | .waitWrite v => v.slots = a ∧ v.target = i
  | _ => false

omit [DecidableEq ι] in
theorem Pc.waitsOn_touches {a i : ℕ} {p : Pc ι α} (h : p.waitsOn a i = true) :
    p.touches = some (a, i) := by
  cases p <;> simp_all [Pc.waitsOn, Pc.touches]

/-- Thread `0` has reserved slot `0` and written nothing yet, thread `1` has filled slot `1` and
waits for slot `0` in `get(0)`, which `len = 1` lets it ask for. -/
theorem slots_accounted_out_of_order :
    ∃ c, Reach (atomicArray SerialMutex.twoIds 4) Always
    (init 2 : Config (Fin 2) (Store (Fin 2) ℕ) _) c ∧
      (c.pcs 1).any (Pc.waitsOn 0 0) = true ∧ (c.shared.slot 0 0).state = .empty ∧
      Reserved c 0 0 := by
  obtain ⟨c, hc, ht⟩ := Reach.exists_of_replay (atomicArray SerialMutex.twoIds 4) Always
    (init 2 : Config (Fin 2) (Store (Fin 2) ℕ) (Pc (Fin 2) ℕ))
    (.call 0 (.push 7) :: List.replicate 4 (.exec 0 .go) ++
      .call 1 (.push 8) :: List.replicate 8 (.exec 1 .go) ++
      .call 1 (.get 0) :: List.replicate 4 (.exec 1 .go))
    (fun c ↦ (c.pcs 1).any (Pc.waitsOn 0 0) && decide ((c.shared.slot 0 0).state = .empty))
    (by decide +kernel)
  obtain ⟨h₁, h₂⟩ := Bool.and_eq_true_iff.1 ht
  obtain ⟨p, hp, hw⟩ := (Option.any_eq_true _ _).1 h₁
  exact ⟨c, hc, h₁, of_decide_eq_true h₂,
    (slots_accounted hc).touched 1 p 0 0 hp (Pc.waitsOn_touches hw)⟩

/-- **The counters in the middle of an exchange.** Two pushes fill an array of two slots, and a
reset to one slot has exchanged the storages but not yet the counters: `tail` is above the
capacity. -/
theorem tail_exceeds_capacity :
    ∃ c, Reach (atomicArray SerialMutex.twoIds 4) Always
    (init 2 : Config (Fin 2) (Store (Fin 2) ℕ) _) c ∧
      ¬ (c.shared.len ≤ c.shared.tail ∧ c.shared.tail ≤ c.shared.capacity) := by
  obtain ⟨c, hc, ht⟩ := Reach.exists_of_replay (atomicArray SerialMutex.twoIds 4) Always
    (init 2 : Config (Fin 2) (Store (Fin 2) ℕ) (Pc (Fin 2) ℕ))
    (.call 0 (.push 7) :: List.replicate 8 (.exec 0 .go) ++
      .call 0 (.push 8) :: List.replicate 8 (.exec 0 .go) ++
      .call 0 (.resetWith 1 [9]) :: List.replicate 3 (.exec 0 .go))
    (fun c ↦ decide (c.shared.capacity < c.shared.tail)) (by decide +kernel)
  have hlt := of_decide_eq_true ht
  exact ⟨c, hc, by omega⟩

end AtomicArray

end Crossync
