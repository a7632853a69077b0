import Mathlib.Data.Nat.ModEq
import Mathlib.Tactic.SplitIfs
import Crossync.Interleave.Stake
import Crossync.Atomic.Buffer

/-!
# `AtomicBuffer` transfers every pointer exactly once

Every reserved position is in one *phase*: its push has reserved it and not stored, stored and not
published, it is published, its pop has reserved it and not taken, taken and not published, or it is
done. The phase says what the slot holds (`cell`) and which thread, if any, is responsible for it;
the invariant says that slots and program points agree with the phases.

## Laps

A slot is used by one position in each stretch of `cap` positions. The last `cap` positions below
`tail` are the ones whose phase shows in the slots; everything before is done. A push may reserve
`pos` because the slot shows that `pos - cap` is done, and being done is final — that is why the
look at the sequence and the reservation can be two accesses.

## Stale positions

A compare-exchange compares 64-bit words. A thread that has kept a position while `2 ^ 64` others
were reserved would see a match where there is none; the results are about runs in which nobody is
delayed that long (`Prompt`, with half that distance).

## The order of the modules

This module proves the invariant; `Atomic.BufferPlaces` reads it as places, and
`Atomic.BufferVerdicts` asks what a call that gives up has seen. `Atomic.VecPool` uses the same
invariant for the free list of the queue, where the condition on delays is met by construction.
-/

open Interleave

namespace Crossync

namespace AtomicBuffer

variable {ι α : Type*} [DecidableEq ι] [DecidableEq α]

/-! ### Words and slots

Comparing words instead of positions is right for positions that are less than `2 ^ 64` apart. -/

theorem word_eq_iff {a b : ℕ} : word a = word b ↔ a % 2 ^ 64 = b % 2 ^ 64 := by
  rw [word, word, ← BitVec.toNat_inj, BitVec.toNat_ofNat, BitVec.toNat_ofNat]

/-- Words tell positions apart that are less than `2 ^ 64` apart. -/
theorem eq_of_word_eq {a b : ℕ} (h : word a = word b) (hle : a ≤ b) (hlt : b < a + 2 ^ 64) :
    a = b := by
  rw [word_eq_iff] at h
  omega

theorem sub_word_eq_zero_iff {a b : ℕ} : word a - word b = 0 ↔ word a = word b := by
  rw [BitVec.sub_eq_iff_eq_add]
  simp

/-- In a stretch of `n` positions the remainder determines the position. -/
theorem eq_of_mod_eq {n p q : ℕ} (h : p % n = q % n) (hle : p ≤ q) (hlt : q < p + n) : p = q := by
  have hdvd : n ∣ q - p := (Nat.modEq_iff_dvd' hle).1 h
  have := Nat.eq_zero_of_dvd_of_lt hdvd (by omega)
  omega

omit [DecidableEq α] in
/-- The masked word is the remainder. -/
theorem slot_eq_mod {s : Store α} (h : IsPowerOfTwo s.cap) (pos : ℕ) :
    slot s pos = pos % s.cap := by
  obtain ⟨k, hk, hcap⟩ := h
  have hpow : 2 ^ k ∣ 2 ^ 64 := Nat.pow_dvd_pow 2 (by omega)
  have hlt : 2 ^ k - 1 < 2 ^ 64 := by
    have := Nat.pow_lt_pow_right (a := 2) (by omega) hk
    omega
  rw [slot, word, word, hcap, BitVec.toNat_and, BitVec.toNat_ofNat, BitVec.toNat_ofNat,
    Nat.mod_eq_of_lt hlt, Nat.and_two_pow_sub_one_eq_mod, Nat.mod_mod_of_dvd _ hpow]

/-! ### Phases

The life of a position from its reservation by a push to its release by a pop, and what its slot
shows meanwhile. -/

/-- Where a thread stands with a position it has reserved. -/
inductive Stage where
  /-- A push has reserved and not stored. -/
  | writing
  /-- A push has stored and not published. -/
  | written
  /-- A pop has reserved and not taken. -/
  | taking
  /-- A pop has taken and not published. -/
  | taken
  deriving DecidableEq

/-- Where a position stands. -/
inductive Phase (ι : Type*) where
  | free
  | held (stage : Stage) (t : ι)
  | full
  | done

/-- A pop has reserved the position. -/
def Phase.Popped : Phase ι → Prop
  | held .taking _ | held .taken _ | done => True
  | _ => False

/-- The position and the stage a program point is responsible for. -/
def claim : Pc α → Option (ℕ × Stage)
  | .pushStore _ pos => some (pos, .writing)
  | .pushPublish pos => some (pos, .written)
  | .popTake pos => some (pos, .taking)
  | .popPublish pos _ => some (pos, .taken)
  | _ => none

/-- What the slot of a position shows: its sequence and its pointer, given the pointer `x` brought
by the position's push. -/
def cell (cap p : ℕ) (x : Option (ℕ × α)) : Phase ι → ℕ × Option (ℕ × α)
  | .free | .held .writing _ => (p, none)
  | .held .written _ => (p, x)
  | .full | .held .taking _ => (p + 1, x)
  | .held .taken _ => (p + 1, none)
  | .done => (p + cap, none)

/-- The pointer brought for a position, with the position. -/
def brought (s : Store α) (p : ℕ) : Option (ℕ × α) := (s.pushes[p]?).map fun v ↦ (p, v)

omit [DecidableEq ι] [DecidableEq α] in
/-- The sequence a slot shows is the position, the next one, or, when done, the position of the next
lap. -/
theorem cell_sequence (cap p : ℕ) (x : Option (ℕ × α)) (ph : Phase ι) (h : ph ≠ .done) :
    (cell cap p x ph).1 = p ∨ (cell cap p x ph).1 = p + 1 := by
  cases ph with
  | free => exact Or.inl rfl
  | held st t => cases st <;> simp [cell]
  | full => exact Or.inr rfl
  | done => exact absurd rfl h

/-- **The slots and the counters agree with the phases.** -/
structure Agrees (φ : ℕ → Phase ι) (s : Store α) : Prop where
  pow : IsPowerOfTwo s.cap
  two_le : 2 ≤ s.cap
  cap_le : s.cap ≤ 2 ^ 63 - 1
  head_le : s.head ≤ s.tail
  tail_le : s.tail ≤ s.head + s.cap
  length : s.pushes.length = s.tail
  free_iff : ∀ p, φ p = .free ↔ s.tail ≤ p
  popped_iff : ∀ p, (φ p).Popped ↔ p < s.head
  /-- What is more than a lap behind is done. -/
  past : ∀ p, p + s.cap < s.tail → φ p = .done
  /-- The slots of the current lap. -/
  cells : ∀ p, p < s.tail → s.tail ≤ p + s.cap →
    (s.sequence (p % s.cap), s.value (p % s.cap)) = cell s.cap p (brought s p) (φ p)
  /-- The slots that have not been used. -/
  fresh : ∀ p, s.tail ≤ p → p < s.cap → s.sequence p = p ∧ s.value p = none
  /-- What has been returned is done, was brought for that position, and is returned once. -/
  returned_done : ∀ e ∈ s.returned, φ e.1 = .done ∧ e.2 = brought s e.1
  done_returned : ∀ p, φ p = .done → ∃ e ∈ s.returned, e.1 = p
  nodup : (s.returned.map Prod.fst).Nodup

/-- What a thread relies on at a program point. -/
def Knows (φ : ℕ → Phase ι) (s : Store α) : Pc α → Prop
  | .pushSequence _ pos => pos ≤ s.tail
  | .pushCas _ pos => pos ≤ s.tail ∧ (s.tail = pos → pos < s.cap ∨ φ (pos - s.cap) = .done)
  | .pushStore v pos => s.pushes[pos]? = some v
  | .popSequence pos => pos ≤ s.head
  | .popCas pos => pos ≤ s.head ∧ (s.head = pos → φ pos = .full)
  | .popPublish pos x => pos < s.tail ∧ x = brought s pos
  | .pushSingle _ | .popSingle => False
  | _ => True

/-- **The invariant**: the store agrees with the phases, every responsibility is some thread's, and
what the threads rely on holds. -/
structure Inv (φ : ℕ → Phase ι) (c : Config ι (Store α) (Pc α)) : Prop where
  agrees : Agrees φ c.shared
  staked : Staked .held claim φ c.pcs
  knows : ∀ t q, c.pcs t = some q → Knows φ c.shared q

/-! ### What other steps leave alone

A thread relies on the positions it has in hand, which only grow stale in one direction. -/

/-- How a step may move phases and counters as seen by the other threads. -/
structure Advances (φ φ' : ℕ → Phase ι) (s s' : Store α) : Prop where
  cap : s'.cap = s.cap
  tail : s.tail ≤ s'.tail
  head : s.head ≤ s'.head
  done : ∀ p, φ p = .done → φ' p = .done
  full : s'.head = s.head → ∀ p, φ p = .full → φ' p = .full
  pushes : s.pushes <+: s'.pushes

omit [DecidableEq ι] [DecidableEq α] in
theorem Advances.getElem? {φ φ' : ℕ → Phase ι} {s s' : Store α} (h : Advances φ φ' s s') {p : ℕ}
    {v : α} (hp : s.pushes[p]? = some v) : s'.pushes[p]? = some v := by
  obtain ⟨l, hl⟩ := h.pushes
  rw [← hl]
  have hlt : p < s.pushes.length := by
    by_contra hge
    rw [List.getElem?_eq_none (not_lt.1 hge)] at hp
    cases hp
  rwa [List.getElem?_append_left hlt]

omit [DecidableEq ι] [DecidableEq α] in
theorem Advances.brought {φ φ' : ℕ → Phase ι} {s s' : Store α} (h : Advances φ φ' s s')
    (hlen : s.pushes.length = s.tail) {p : ℕ} (hp : p < s.tail) :
    AtomicBuffer.brought s' p = AtomicBuffer.brought s p := by
  obtain ⟨v, hv⟩ : ∃ v, s.pushes[p]? = some v := ⟨_, List.getElem?_eq_getElem (hlen ▸ hp)⟩
  rw [AtomicBuffer.brought, AtomicBuffer.brought, hv, h.getElem? hv]

omit [DecidableEq ι] [DecidableEq α] in
theorem Knows.mono {φ φ' : ℕ → Phase ι} {s s' : Store α} {q : Pc α} (h : Knows φ s q)
    (ha : Advances φ φ' s s') (hlen : s.pushes.length = s.tail) : Knows φ' s' q := by
  have ht := ha.tail
  have hh := ha.head
  cases q with
  | pushSequence v pos => exact le_trans h ht
  | pushCas v pos =>
    obtain ⟨hle, hfree⟩ := h
    refine ⟨hle.trans ht, fun he ↦ ?_⟩
    rw [ha.cap]
    exact (hfree (by omega)).imp_right (ha.done _)
  | pushStore v pos => exact ha.getElem? h
  | popSequence pos => exact le_trans h hh
  | popCas pos =>
    obtain ⟨hle, hfull⟩ := h
    exact ⟨hle.trans hh, fun he ↦ ha.full (by omega) pos (hfull (by omega))⟩
  | popPublish pos x => exact ⟨h.1.trans_le ht, h.2.trans (ha.brought hlen h.1).symm⟩
  | pushSingle | popSingle => exact h
  | _ => trivial

/-! ### How each effect moves the phases

The accesses that change a slot or a counter, each as a change of one phase. -/

namespace Agrees

variable {φ : ℕ → Phase ι} {s s' : Store α} {p : ℕ} {x : Phase ι}

omit [DecidableEq ι] [DecidableEq α] in
/-- A position that is neither free nor done shows in its slot. -/
theorem in_lap (h : Agrees φ s) (hfree : φ p ≠ .free) (hdone : φ p ≠ .done) :
    p < s.tail ∧ s.tail ≤ p + s.cap := by
  refine ⟨?_, ?_⟩
  · by_contra hge
    exact hfree ((h.free_iff p).2 (not_lt.1 hge))
  · by_contra hlt
    exact hdone (h.past p (not_le.1 hlt))

omit [DecidableEq ι] [DecidableEq α] in
/-- The access of a responsible thread to its slot: the slot shows the new phase, and nothing else
moves. -/
theorem rewrite (h : Agrees φ s) (hfree : φ p ≠ .free) (hdone : φ p ≠ .done) (hx : x ≠ .free)
    (hpop : x.Popped ↔ (φ p).Popped) (hcap : s'.cap = s.cap) (hhead : s'.head = s.head)
    (htail : s'.tail = s.tail) (hpushes : s'.pushes = s.pushes)
    (hother : ∀ i, i ≠ p % s.cap → s'.sequence i = s.sequence i ∧ s'.value i = s.value i)
    (hself : (s'.sequence (p % s.cap), s'.value (p % s.cap)) = cell s.cap p (brought s p) x)
    (hret : ∀ e ∈ s'.returned, Function.update φ p x e.1 = .done ∧ e.2 = brought s e.1)
    (hall : ∀ q, Function.update φ p x q = .done → ∃ e ∈ s'.returned, e.1 = q)
    (hnodup : (s'.returned.map Prod.fst).Nodup) : Agrees (Function.update φ p x) s' := by
  obtain ⟨hlt, hlap⟩ := h.in_lap hfree hdone
  have hbrought : ∀ q, brought s' q = brought s q := fun q ↦ by rw [brought, brought, hpushes]
  refine ⟨hcap ▸ h.pow, hcap ▸ h.two_le, hcap ▸ h.cap_le, hhead ▸ htail ▸ h.head_le,
    hcap ▸ hhead ▸ htail ▸ h.tail_le, hpushes ▸ htail ▸ h.length, ?_, ?_, ?_, ?_, ?_, ?_, hall,
    hnodup⟩
  · intro q
    rw [htail]
    by_cases hq : q = p
    · subst hq
      rw [Function.update_self]
      exact ⟨fun he ↦ absurd he hx, fun hle ↦ absurd hlt (not_lt.2 hle)⟩
    · rw [Function.update_of_ne hq]
      exact h.free_iff q
  · intro q
    rw [hhead]
    by_cases hq : q = p
    · subst hq
      rw [Function.update_self, hpop]
      exact h.popped_iff q
    · rw [Function.update_of_ne hq]
      exact h.popped_iff q
  · intro q hq
    rw [hcap, htail] at hq
    have hne : q ≠ p := by
      rintro rfl
      omega
    rw [Function.update_of_ne hne]
    exact h.past q hq
  · intro q hq hq'
    rw [htail] at hq hq'
    rw [hcap] at hq' ⊢
    rw [hbrought]
    by_cases hqp : q = p
    · subst hqp
      rw [Function.update_self]
      exact hself
    · have hmod : q % s.cap ≠ p % s.cap := by
        intro he
        rcases Nat.le_total q p with hle | hle
        · exact hqp (eq_of_mod_eq he hle (by omega))
        · exact hqp (eq_of_mod_eq he.symm hle (by omega)).symm
      rw [Function.update_of_ne hqp, (hother _ hmod).1, (hother _ hmod).2]
      exact h.cells q hq hq'
  · intro q hq hq'
    rw [htail] at hq
    rw [hcap] at hq'
    have hmod : q ≠ p % s.cap := by
      rw [Nat.mod_eq_of_lt (show p < s.cap by omega)]
      omega
    rw [(hother q hmod).1, (hother q hmod).2]
    exact h.fresh q hq hq'
  · intro e he
    rw [hbrought]
    exact hret e he

omit [DecidableEq ι] [DecidableEq α] in
/-- An access that completes no pop. -/
theorem rewrite_same (h : Agrees φ s) (hfree : φ p ≠ .free) (hdone : φ p ≠ .done) (hx : x ≠ .free)
    (hx' : x ≠ .done) (hpop : x.Popped ↔ (φ p).Popped) (hcap : s'.cap = s.cap)
    (hhead : s'.head = s.head) (htail : s'.tail = s.tail) (hpushes : s'.pushes = s.pushes)
    (hreturned : s'.returned = s.returned)
    (hother : ∀ i, i ≠ p % s.cap → s'.sequence i = s.sequence i ∧ s'.value i = s.value i)
    (hself : (s'.sequence (p % s.cap), s'.value (p % s.cap)) = cell s.cap p (brought s p) x) :
    Agrees (Function.update φ p x) s' := by
  refine h.rewrite hfree hdone hx hpop hcap hhead htail hpushes hother hself ?_ ?_ ?_
  · intro e he
    rw [hreturned] at he
    obtain ⟨hd, hb⟩ := h.returned_done e he
    have hne : e.1 ≠ p := by
      intro heq
      exact hdone (heq ▸ hd)
    rw [Function.update_of_ne hne]
    exact ⟨hd, hb⟩
  · intro q hq
    rw [hreturned]
    by_cases hqp : q = p
    · subst hqp
      rw [Function.update_self] at hq
      exact absurd hq hx'
    · rw [Function.update_of_ne hqp] at hq
      exact h.done_returned q hq
  · rw [hreturned]
    exact h.nodup

omit [DecidableEq ι] [DecidableEq α] in
/-- What the slot of a position in its lap shows. -/
theorem slot_shows (h : Agrees φ s) (hfree : φ p ≠ .free) (hdone : φ p ≠ .done) :
    (s.sequence (p % s.cap), s.value (p % s.cap)) = cell s.cap p (brought s p) (φ p) :=
  h.cells p (h.in_lap hfree hdone).1 (h.in_lap hfree hdone).2

omit [DecidableEq ι] [DecidableEq α] in
/-- A push reserves the next position. -/
theorem reservePush (h : Agrees φ s) (t : ι) (v : α)
    (hready : s.tail < s.cap ∨ φ (s.tail - s.cap) = .done) :
    Agrees (Function.update φ s.tail (.held .writing t))
      { s with tail := s.tail + 1, pushes := s.pushes ++ [v] } := by
  have hlen := h.length
  have hhead := h.head_le
  have htwo := h.two_le
  have hbrought : ∀ q, q < s.tail →
      brought { s with tail := s.tail + 1, pushes := s.pushes ++ [v] } q = brought s q := by
    intro q hq
    rw [brought, brought, List.getElem?_append_left (by omega)]
  -- the lap before is over, so there is room
  have hroom : s.tail + 1 ≤ s.head + s.cap := by
    rcases hready with hlt | hd
    · omega
    · have := (h.popped_iff (s.tail - s.cap)).1 (by rw [hd]; trivial)
      omega
  have hempty : s.sequence (s.tail % s.cap) = s.tail ∧ s.value (s.tail % s.cap) = none := by
    by_cases hlt : s.tail < s.cap
    · rw [Nat.mod_eq_of_lt hlt]
      exact h.fresh s.tail le_rfl hlt
    · have hc := h.cells (s.tail - s.cap) (by omega) (by omega)
      rw [hready.resolve_left hlt, show (s.tail - s.cap) % s.cap = s.tail % s.cap from
        (Nat.mod_eq_sub_mod (not_lt.1 hlt)).symm] at hc
      simp only [cell, Prod.mk.injEq] at hc
      exact ⟨by omega, hc.2⟩
  refine ⟨h.pow, h.two_le, h.cap_le, by dsimp only; omega, hroom, by simp [hlen], ?_, ?_, ?_, ?_,
    ?_, ?_, ?_, h.nodup⟩
  · intro q
    by_cases hq : q = s.tail
    · subst hq
      rw [Function.update_self]
      simp
    · rw [Function.update_of_ne hq, h.free_iff]
      dsimp only
      omega
  · intro q
    by_cases hq : q = s.tail
    · subst hq
      rw [Function.update_self]
      exact ⟨fun hp ↦ hp.elim, fun hlt ↦ absurd hlt (not_lt.2 hhead)⟩
    · rw [Function.update_of_ne hq]
      exact h.popped_iff q
  · intro q hq
    dsimp only at hq
    rw [Function.update_of_ne (by omega)]
    by_cases hlast : q + s.cap < s.tail
    · exact h.past q hlast
    · have hq' : q = s.tail - s.cap := by omega
      rw [hq']
      exact hready.resolve_left (by omega)
  · intro q hq hq'
    dsimp only at hq hq' ⊢
    by_cases hqt : q = s.tail
    · rw [hqt, Function.update_self, hempty.1, hempty.2]
      rfl
    · rw [Function.update_of_ne hqt, hbrought q (by omega)]
      exact h.cells q (by omega) (by omega)
  · intro q hq hq'
    exact h.fresh q (by dsimp only at hq; omega) hq'
  · intro e he
    obtain ⟨hd, hb⟩ := h.returned_done e he
    have hlt : e.1 < s.tail := by
      by_contra hge
      rw [(h.free_iff e.1).2 (not_lt.1 hge)] at hd
      cases hd
    rw [Function.update_of_ne (by omega), hbrought e.1 hlt]
    exact ⟨hd, hb⟩
  · intro q hq
    by_cases hqt : q = s.tail
    · subst hqt
      rw [Function.update_self] at hq
      cases hq
    · rw [Function.update_of_ne hqt] at hq
      exact h.done_returned q hq

omit [DecidableEq ι] [DecidableEq α] in
/-- A pop reserves the next position, which is published. -/
theorem reservePop (h : Agrees φ s) (t : ι) (hfull : φ s.head = .full) :
    Agrees (Function.update φ s.head (.held .taking t)) { s with head := s.head + 1 } := by
  have hlap := h.in_lap (p := s.head) (by rw [hfull]; simp) (by rw [hfull]; simp)
  have htail := h.tail_le
  refine ⟨h.pow, h.two_le, h.cap_le, hlap.1, by dsimp only; omega, h.length, ?_, ?_, ?_, ?_,
    h.fresh, ?_, ?_, h.nodup⟩
  · intro q
    by_cases hq : q = s.head
    · subst hq
      rw [Function.update_self]
      dsimp only
      exact ⟨fun he ↦ (nomatch he), fun hle ↦ absurd hlap.1 (not_lt.2 hle)⟩
    · rw [Function.update_of_ne hq]
      exact h.free_iff q
  · intro q
    by_cases hq : q = s.head
    · subst hq
      rw [Function.update_self]
      simp [Phase.Popped]
    · rw [Function.update_of_ne hq, h.popped_iff]
      dsimp only
      omega
  · intro q hq
    have hne : q ≠ s.head := by
      rintro rfl
      dsimp only at hq
      omega
    rw [Function.update_of_ne hne]
    exact h.past q hq
  · intro q hq hq'
    have hc := h.cells q hq hq'
    by_cases hqh : q = s.head
    · rw [hqh] at hc ⊢
      rw [Function.update_self]
      rw [hfull] at hc
      exact hc
    · rw [Function.update_of_ne hqh]
      exact hc
  · intro e he
    obtain ⟨hd, hb⟩ := h.returned_done e he
    have hne : e.1 ≠ s.head := by
      intro heq
      rw [heq, hfull] at hd
      cases hd
    rw [Function.update_of_ne hne]
    exact ⟨hd, hb⟩
  · intro q hq
    by_cases hqh : q = s.head
    · subst hqh
      rw [Function.update_self] at hq
      cases hq
    · rw [Function.update_of_ne hqh] at hq
      exact h.done_returned q hq

end Agrees

/-! ### Steps

All accesses of the code, each by the lemma of its effect. -/

/-- **No thread is delayed across `2 ^ 63` reservations**: a thread that uses a position it has
loaded, uses it before that many further positions were reserved. -/
def Prompt (c : Config ι (Store α) (Pc α)) : Label ι (Op α) → Prop
  | .call _ _ => True
  | .exec t _ =>
    match c.pcs t with
    | some (.pushSequence _ pos) | some (.pushCas _ pos) => c.shared.tail < pos + 2 ^ 63
    | some (.popSequence pos) | some (.popCas pos) | some (.popTail pos) =>
      c.shared.head < pos + 2 ^ 63
    | _ => True

instance (c : Config ι (Store α) (Pc α)) (l : Label ι (Op α)) : Decidable (Prompt c l) := by
  unfold Prompt
  split
  · infer_instance
  · split <;> infer_instance

section Steps

variable {φ : ℕ → Phase ι} {c : Config ι (Store α) (Pc α)} {t : ι} {s' : Store α}
  {o : Outcome (Pc α) (Ret α)}

omit [DecidableEq α] in
theorem Inv.put {φ' : ℕ → Phase ι} (h : Inv φ c) (ha : Agrees φ' s')
    (hadv : Advances φ φ' c.shared s')
    (hstaked : Staked .held claim φ' (Function.update c.pcs t o.pc))
    (hk : ∀ q, o.pc = some q → Knows φ' s' q) : Inv φ' (c.put t (s', o)) where
  agrees := ha
  staked := hstaked
  knows := Config.forall_put (L := fun _ s q ↦ Knows φ' s q) hk
    fun u q _ hq ↦ (h.knows u q hq).mono hadv h.agrees.length

omit [DecidableEq α] in
/-- A step that changes neither the store nor a responsibility. -/
theorem Inv.put_same (h : Inv φ c) (hbefore : (c.pcs t).bind claim = none)
    (hafter : o.pc.bind claim = none) (hk : ∀ q, o.pc = some q → Knows φ c.shared q) :
    Inv φ (c.put t (c.shared, o)) := by
  exact h.put h.agrees ⟨rfl, le_rfl, le_rfl, fun _ h ↦ h, fun _ _ h ↦ h, List.prefix_refl _⟩
    (h.staked.same (hafter.trans hbefore.symm)) hk

omit [DecidableEq α] in
/-- A step of the thread responsible for `p`, or of a thread that becomes so. -/
theorem Inv.put_phase {p : ℕ} {x : Phase ι} (h : Inv φ c)
    (hbefore : ∀ p' st, (c.pcs t).bind claim = some (p', st) → p' = p)
    (hothers : ∀ st u, φ p = .held st u → u = t) (hx : ∀ st u, x = .held st u → u = t)
    (hafter : ∀ p' st, o.pc.bind claim = some (p', st) ↔ p' = p ∧ x = .held st t)
    (ha : Agrees (Function.update φ p x) s')
    (hadv : Advances φ (Function.update φ p x) c.shared s')
    (hk : ∀ q, o.pc = some q → Knows (Function.update φ p x) s' q) :
    Inv (Function.update φ p x) (c.put t (s', o)) :=
  h.put ha hadv (h.staked.update hbefore hothers hx hafter) hk

omit [DecidableEq ι] [DecidableEq α] in
/-- A slot access leaves the counters alone and takes nothing from the other threads. -/
theorem advances_of_slot {p : ℕ} {x : Phase ι} {s s' : Store α} (hcap : s'.cap = s.cap)
    (hhead : s'.head = s.head) (htail : s'.tail = s.tail) (hpushes : s'.pushes = s.pushes)
    (hdone : φ p ≠ .done) (hfull : φ p ≠ .full) : Advances φ (Function.update φ p x) s s' := by
  refine ⟨hcap, htail.ge, hhead.ge, fun q hq ↦ ?_, fun _ q hq ↦ ?_, hpushes ▸ List.prefix_refl _⟩
  · rwa [Function.update_of_ne]
    rintro rfl
    exact hdone hq
  · rwa [Function.update_of_ne]
    rintro rfl
    exact hfull hq

omit [DecidableEq ι] [DecidableEq α] in
/-- What the look at the sequence tells a push. -/
theorem knows_pushCas (h : Agrees φ c.shared) {pos : ℕ} (v : α) (hle : pos ≤ c.shared.tail)
    (hword : word (c.shared.sequence (slot c.shared pos)) = word pos) :
    Knows φ c.shared (.pushCas v pos) := by
  have htwo := h.two_le
  have hcap := h.cap_le
  refine ⟨hle, fun he ↦ ?_⟩
  by_contra hnot
  rw [not_or, not_lt] at hnot
  have hseq := congrArg Prod.fst (h.cells (pos - c.shared.cap) (by omega) (by omega))
  rw [show (pos - c.shared.cap) % c.shared.cap = pos % c.shared.cap from
    (Nat.mod_eq_sub_mod hnot.1).symm] at hseq
  rw [slot_eq_mod h.pow] at hword
  dsimp only at hseq
  rw [hseq] at hword
  -- an unfinished lap shows a sequence less than a lap behind
  rcases cell_sequence c.shared.cap (pos - c.shared.cap)
    (brought c.shared (pos - c.shared.cap)) _ hnot.2 with hs | hs
  · rw [hs] at hword
    have := eq_of_word_eq hword (by omega) (by omega)
    omega
  · rw [hs] at hword
    have := eq_of_word_eq hword (by omega) (by omega)
    omega

omit [DecidableEq ι] [DecidableEq α] in
/-- What the look at the sequence tells a pop. -/
theorem knows_popCas (h : Agrees φ c.shared) {pos : ℕ} (hle : pos ≤ c.shared.head)
    (hword : word (c.shared.sequence (slot c.shared pos)) = word (pos + 1)) :
    Knows φ c.shared (.popCas pos : Pc α) := by
  have htwo := h.two_le
  have hcap := h.cap_le
  have hht := h.head_le
  have hth := h.tail_le
  refine ⟨hle, fun he ↦ ?_⟩
  rw [slot_eq_mod h.pow] at hword
  have hpop : ¬ (φ pos).Popped := by
    rw [h.popped_iff]
    omega
  by_cases hlt : pos < c.shared.tail
  · have hseq := congrArg Prod.fst (h.cells pos hlt (by omega))
    dsimp only at hseq
    cases hφ : φ pos with
    | full => rfl
    | free =>
      have := (h.free_iff pos).1 hφ
      omega
    | done =>
      rw [hφ] at hpop
      exact absurd trivial hpop
    | held st u =>
      rw [hφ] at hseq hpop
      cases st with
      | writing | written =>
        simp only [cell] at hseq
        rw [hseq] at hword
        have := eq_of_word_eq hword (by omega) (by omega)
        omega
      | taking | taken => exact absurd trivial hpop
  · -- the queue is empty: the slot is a lap behind or unused
    exfalso
    by_cases hfresh : pos < c.shared.cap
    · rw [Nat.mod_eq_of_lt hfresh, (h.fresh pos (by omega) hfresh).1] at hword
      have := eq_of_word_eq hword (by omega) (by omega)
      omega
    · have hseq := congrArg Prod.fst (h.cells (pos - c.shared.cap) (by omega) (by omega))
      rw [show (pos - c.shared.cap) % c.shared.cap = pos % c.shared.cap from
        (Nat.mod_eq_sub_mod (not_lt.1 hfresh)).symm] at hseq
      dsimp only at hseq
      rw [hseq] at hword
      by_cases hd : φ (pos - c.shared.cap) = .done
      · rw [hd] at hword
        have := eq_of_word_eq hword (by simp only [cell]; omega) (by simp only [cell]; omega)
        simp only [cell] at this
        omega
      · rcases cell_sequence c.shared.cap (pos - c.shared.cap)
          (brought c.shared (pos - c.shared.cap)) _ hd with hs | hs
        · rw [hs] at hword
          have := eq_of_word_eq hword (by omega) (by omega)
          omega
        · rw [hs] at hword
          have := eq_of_word_eq hword (by omega) (by omega)
          omega

omit [DecidableEq α] in
/-- A responsible thread accesses its slot. -/
theorem Inv.put_slot {q : Pc α} {p : ℕ} {st : Stage} {x : Phase ι} (h : Inv φ c)
    (hpc : c.pcs t = some q) (hq : claim q = some (p, st))
    (hx : ∀ st u, x = .held st u → u = t)
    (hafter : ∀ p' st, o.pc.bind claim = some (p', st) ↔ p' = p ∧ x = .held st t)
    (hcap : s'.cap = c.shared.cap) (hhead : s'.head = c.shared.head)
    (htail : s'.tail = c.shared.tail) (hpushes : s'.pushes = c.shared.pushes)
    (ha : Agrees (Function.update φ p x) s')
    (hk : ∀ q, o.pc = some q → Knows (Function.update φ p x) s' q) :
    Inv (Function.update φ p x) (c.put t (s', o)) := by
  have hφ := h.staked.phase hpc hq
  refine h.put_phase ?_ ?_ hx hafter ha
    (advances_of_slot hcap hhead htail hpushes (by rw [hφ]; simp) (by rw [hφ]; simp)) hk
  · intro p' st' hc
    rw [hpc] at hc
    exact (Prod.mk.inj (Option.some.inj (hc.symm.trans hq))).1
  · intro st' u hu
    rw [hφ] at hu
    cases hu
    rfl

omit [DecidableEq ι] [DecidableEq α] in
/-- The slot of a position that a thread is responsible for. -/
theorem Inv.shows {q : Pc α} {p : ℕ} {st : Stage} (h : Inv φ c) (hpc : c.pcs t = some q)
    (hq : claim q = some (p, st)) :
    φ p = .held st t ∧ p < c.shared.tail ∧
      (c.shared.sequence (p % c.shared.cap), c.shared.value (p % c.shared.cap)) =
        cell c.shared.cap p (brought c.shared p) (.held st t : Phase ι) := by
  have hφ := h.staked.phase hpc hq
  have hfree : φ p ≠ .free := by
    rw [hφ]
    exact nofun
  have hdone : φ p ≠ .done := by
    rw [hφ]
    exact nofun
  exact ⟨hφ, (h.agrees.in_lap hfree hdone).1, hφ ▸ h.agrees.slot_shows hfree hdone⟩

omit [DecidableEq α] in
/-- **A push reserves the next position.** -/
theorem Inv.reservePush {v : α} (h : Inv φ c) (hpc : c.pcs t = some (.pushCas v c.shared.tail)) :
    Inv (Function.update φ c.shared.tail (.held .writing t))
      (c.put t ({ c.shared with tail := c.shared.tail + 1, pushes := c.shared.pushes ++ [v] },
        (.goto (.pushStore v c.shared.tail) : Outcome (Pc α) (Ret α)))) := by
  have hready : c.shared.tail < c.shared.cap ∨ φ (c.shared.tail - c.shared.cap) = .done :=
    (h.knows t _ hpc).2 rfl
  have hfree : φ c.shared.tail = .free := (h.agrees.free_iff _).2 le_rfl
  refine h.put_phase ?_ ?_ ?_ ?_ (h.agrees.reservePush t v hready) ?_ ?_
  · intro p' st hc
    rw [hpc] at hc
    cases hc
  · intro st u hu
    rw [hfree] at hu
    cases hu
  · rintro st u ⟨⟩
    rfl
  · intro p' st
    simp [claim, eq_comm]
  · refine ⟨rfl, Nat.le_succ _, le_rfl, fun q hq ↦ ?_, fun _ q hq ↦ ?_, List.prefix_append _ _⟩
    · rwa [Function.update_of_ne]
      rintro rfl
      rw [hfree] at hq
      cases hq
    · rwa [Function.update_of_ne]
      rintro rfl
      rw [hfree] at hq
      cases hq
  · rintro q ⟨⟩
    show (c.shared.pushes ++ [v])[c.shared.tail]? = some v
    rw [← h.agrees.length]
    simp

omit [DecidableEq α] in
/-- **A push stores its value.** -/
theorem Inv.storePush {v : α} {pos : ℕ} (h : Inv φ c) (hpc : c.pcs t = some (.pushStore v pos)) :
    Inv (Function.update φ pos (.held .written t))
      (c.put t ({ c.shared with
          value := Function.update c.shared.value (slot c.shared pos) (some (pos, v)) },
        (.goto (.pushPublish pos) : Outcome (Pc α) (Ret α)))) := by
  obtain ⟨hφ, -, hshow⟩ := h.shows hpc (rfl : claim (.pushStore v pos) = _)
  have hv : c.shared.pushes[pos]? = some v := h.knows t _ hpc
  simp only [cell, Prod.mk.injEq] at hshow
  refine h.put_slot hpc rfl (by rintro st u ⟨⟩; rfl) (by simp [claim, eq_comm]) rfl rfl rfl rfl ?_
    (by rintro q ⟨⟩; trivial)
  rw [slot_eq_mod h.agrees.pow]
  refine h.agrees.rewrite_same (by rw [hφ]; simp) (by rw [hφ]; simp) (by simp) (by simp)
    (by rw [hφ]; rfl) rfl rfl rfl rfl rfl (fun i hi ↦ ⟨rfl, Function.update_of_ne hi _ _⟩) ?_
  simp [cell, hshow.1, brought, hv]

omit [DecidableEq α] in
/-- **A push publishes its position.** -/
theorem Inv.publishPush {pos : ℕ} (h : Inv φ c) (hpc : c.pcs t = some (.pushPublish pos)) :
    Inv (Function.update φ pos .full)
      (c.put t ({ c.shared with
          sequence := Function.update c.shared.sequence (slot c.shared pos) (pos + 1) },
        (.ret .ok : Outcome (Pc α) (Ret α)))) := by
  obtain ⟨hφ, -, hshow⟩ := h.shows hpc (rfl : claim (.pushPublish pos) = _)
  simp only [cell, Prod.mk.injEq] at hshow
  refine h.put_slot hpc rfl (by rintro st u ⟨⟩) (by simp) rfl rfl rfl rfl ?_ (by simp)
  rw [slot_eq_mod h.agrees.pow]
  refine h.agrees.rewrite_same (by rw [hφ]; simp) (by rw [hφ]; simp) (by simp) (by simp)
    (by rw [hφ]; rfl) rfl rfl rfl rfl rfl (fun i hi ↦ ⟨Function.update_of_ne hi _ _, rfl⟩) ?_
  simp [cell, hshow.2]

omit [DecidableEq α] in
/-- **A pop reserves the next position.** -/
theorem Inv.reservePop (h : Inv φ c) (hpc : c.pcs t = some (.popCas c.shared.head : Pc α)) :
    Inv (Function.update φ c.shared.head (.held .taking t))
      (c.put t ({ c.shared with head := c.shared.head + 1 },
        (.goto (.popTake c.shared.head) : Outcome (Pc α) (Ret α)))) := by
  have hfull : φ c.shared.head = .full := (h.knows t _ hpc).2 rfl
  refine h.put_phase ?_ ?_ ?_ ?_ (h.agrees.reservePop t hfull) ?_ ?_
  · intro p' st hc
    rw [hpc] at hc
    cases hc
  · intro st u hu
    rw [hfull] at hu
    cases hu
  · rintro st u ⟨⟩
    rfl
  · intro p' st
    simp [claim, eq_comm]
  · refine ⟨rfl, le_rfl, Nat.le_succ _, fun q hq ↦ ?_, fun hh ↦ ?_, List.prefix_refl _⟩
    · rwa [Function.update_of_ne]
      rintro rfl
      rw [hfull] at hq
      cases hq
    · exact absurd hh (Nat.succ_ne_self _)
  · rintro q ⟨⟩
    trivial

omit [DecidableEq α] in
/-- **A pop takes the pointer out of its slot.** -/
theorem Inv.takePop {pos : ℕ} (h : Inv φ c) (hpc : c.pcs t = some (.popTake pos : Pc α)) :
    Inv (Function.update φ pos (.held .taken t))
      (c.put t ({ c.shared with value := Function.update c.shared.value (slot c.shared pos) none },
        (.goto (.popPublish pos (c.shared.value (slot c.shared pos))) : Outcome (Pc α)
          (Ret α)))) := by
  obtain ⟨hφ, hlt, hshow⟩ := h.shows hpc (rfl : claim (.popTake pos : Pc α) = _)
  simp only [cell, Prod.mk.injEq] at hshow
  rw [slot_eq_mod h.agrees.pow, hshow.2]
  refine h.put_slot hpc rfl (by rintro st u ⟨⟩; rfl) (by simp [claim, eq_comm]) rfl rfl
    rfl rfl ?_ ?_
  · refine h.agrees.rewrite_same (by rw [hφ]; simp) (by rw [hφ]; simp) (by simp) (by simp)
      (by rw [hφ]; rfl) rfl rfl rfl rfl rfl (fun i hi ↦ ⟨rfl, Function.update_of_ne hi _ _⟩) ?_
    simp [cell, hshow.1]
  · rintro q ⟨⟩
    exact ⟨hlt, rfl⟩

omit [DecidableEq α] in
/-- **A pop gives the slot to the next lap and returns what it has taken.** -/
theorem Inv.publishPop {pos : ℕ} {x : Option (ℕ × α)} (h : Inv φ c)
    (hpc : c.pcs t = some (.popPublish pos x)) :
    Inv (Function.update φ pos .done)
      (c.put t ({ c.shared with
          sequence := Function.update c.shared.sequence (slot c.shared pos) (pos + c.shared.cap)
          returned := c.shared.returned ++ [(pos, x)] },
        (.ret (.popped (x.map Prod.snd)) : Outcome (Pc α) (Ret α)))) := by
  obtain ⟨hφ, -, hshow⟩ := h.shows hpc (rfl : claim (.popPublish pos x) = _)
  have hx : x = brought c.shared pos := (h.knows t _ hpc).2
  simp only [cell, Prod.mk.injEq] at hshow
  -- nothing has been returned for this position yet
  have hnew : ∀ e ∈ c.shared.returned, e.1 ≠ pos := by
    intro e he heq
    have hd := (h.agrees.returned_done e he).1
    rw [heq, hφ] at hd
    cases hd
  refine h.put_slot hpc rfl (by rintro st u ⟨⟩) (by simp) rfl rfl rfl rfl ?_ (by simp)
  rw [slot_eq_mod h.agrees.pow]
  refine h.agrees.rewrite (by rw [hφ]; simp) (by rw [hφ]; simp) (by simp)
    (by rw [hφ]; exact Iff.rfl) rfl rfl rfl rfl
    (fun i hi ↦ ⟨Function.update_of_ne hi _ _, rfl⟩) ?_ ?_ ?_ ?_
  · simp [cell, hshow.2]
  · intro e he
    rcases List.mem_append.1 he with he | he
    · rw [Function.update_of_ne (hnew e he)]
      exact h.agrees.returned_done e he
    · rw [List.mem_singleton] at he
      subst he
      exact ⟨Function.update_self .., hx⟩
  · intro p hp
    by_cases hpp : p = pos
    · exact ⟨(pos, x), List.mem_append_right _ (List.mem_singleton.2 rfl), hpp.symm⟩
    · rw [Function.update_of_ne hpp] at hp
      obtain ⟨e, he, hep⟩ := h.agrees.done_returned p hp
      exact ⟨e, List.mem_append_left _ he, hep⟩
  · rw [List.map_append, List.nodup_append]
    refine ⟨h.agrees.nodup, by simp, ?_⟩
    intro a ha b hb
    obtain ⟨e, he, rfl⟩ := List.mem_map.1 ha
    simp only [List.map_cons, List.map_nil, List.mem_singleton] at hb
    rw [hb]
    exact hnew e he

/-- **Every access keeps the invariant**, with the phases moved accordingly. -/
theorem exec_inv {ch : Choice ι} {q : Pc α} (h : Inv φ c) (hpc : c.pcs t = some q)
    (hok : Prompt c (.exec t ch)) (he : exec t ch c.shared q = some (s', o)) :
    ∃ φ', Inv φ' (c.put t (s', o)) := by
  have hk := h.knows t q hpc
  simp only [Prompt, hpc] at hok
  have hidle : claim q = none → (c.pcs t).bind claim = none := fun hc ↦ by rw [hpc]; exact hc
  cases q with
  | pushTail v | popHead =>
    cases he
    exact ⟨φ, h.put_same (hidle rfl) rfl (by rintro q ⟨⟩; exact le_rfl)⟩
  | pushSequence v pos =>
    simp only [exec] at he
    split_ifs at he with hd hneg
    · cases he
      refine ⟨φ, h.put_same (hidle rfl) rfl ?_⟩
      rintro q ⟨⟩
      exact knows_pushCas h.agrees v hk (sub_word_eq_zero_iff.1 hd)
    · cases he
      exact ⟨φ, h.put_same (hidle rfl) rfl (by simp)⟩
    · cases he
      exact ⟨φ, h.put_same (hidle rfl) rfl (by rintro q ⟨⟩; trivial)⟩
  | pushCas v pos =>
    simp only [exec] at he
    split at he
    · rename_i w hw
      obtain ⟨hword, -⟩ := casWeak_eq_ok hw
      -- the position in hand is recent, so the words tell
      have hpos : pos = c.shared.tail := eq_of_word_eq hword.symm hk.1 (by omega)
      subst hpos
      cases he
      exact ⟨_, h.reservePush hpc⟩
    · cases he
      exact ⟨φ, h.put_same (hidle rfl) rfl (by rintro q ⟨⟩; exact le_rfl)⟩
  | pushStore v pos =>
    cases he
    exact ⟨_, h.storePush hpc⟩
  | pushPublish pos =>
    cases he
    exact ⟨_, h.publishPush hpc⟩
  | popSequence pos =>
    simp only [exec] at he
    split_ifs at he with hd hneg
    · cases he
      refine ⟨φ, h.put_same (hidle rfl) rfl ?_⟩
      rintro q ⟨⟩
      exact knows_popCas h.agrees hk (sub_word_eq_zero_iff.1 hd)
    · cases he
      exact ⟨φ, h.put_same (hidle rfl) rfl (by rintro q ⟨⟩; trivial)⟩
    · cases he
      exact ⟨φ, h.put_same (hidle rfl) rfl (by rintro q ⟨⟩; trivial)⟩
  | popCas pos =>
    simp only [exec] at he
    split at he
    · rename_i w hw
      obtain ⟨hword, -⟩ := casWeak_eq_ok hw
      have hpos : pos = c.shared.head := eq_of_word_eq hword.symm hk.1 (by omega)
      subst hpos
      cases he
      exact ⟨_, h.reservePop hpc⟩
    · cases he
      exact ⟨φ, h.put_same (hidle rfl) rfl (by rintro q ⟨⟩; exact le_rfl)⟩
  | popTail pos =>
    simp only [exec] at he
    split_ifs at he
    · cases he
      exact ⟨φ, h.put_same (hidle rfl) rfl (by simp)⟩
    · cases he
      exact ⟨φ, h.put_same (hidle rfl) rfl (by rintro q ⟨⟩; trivial)⟩
  | popTake pos =>
    cases he
    exact ⟨_, h.takePop hpc⟩
  | popPublish pos x =>
    cases he
    exact ⟨_, h.publishPop hpc⟩
  | pushSingle v => exact hk.elim
  | popSingle => exact hk.elim

end Steps

/-! ### Runs -/

section Runs

variable {c : Config ι (Store α) (Pc α)} {cap : ℕ} {s₀ : Store α}

omit [DecidableEq ι] [DecidableEq α] in
theorem agrees_withCapacity (hs : withCapacity cap = some s₀) (hcap : 2 ≤ cap) :
    Agrees (fun _ ↦ (.free : Phase ι)) s₀ := by
  unfold withCapacity at hs
  split_ifs at hs with h
  cases hs
  unfold Store.empty
  exact ⟨h.1, hcap, h.2, le_rfl, Nat.zero_le _, rfl, by simp, by simp [Phase.Popped], by simp,
    by simp, by simp, by simp, by simp, by simp⟩

theorem reach_inv (hs : withCapacity cap = some s₀) (hcap : 2 ≤ cap)
    (h : Reach (atomicBuffer : Object ι _ _ _ _) Prompt ⟨s₀, fun _ ↦ none⟩ c) :
    ∃ φ : ℕ → Phase ι, Inv φ c := by
  refine h.invariant (I := fun c ↦ ∃ φ : ℕ → Phase ι, Inv φ c) ?_ ?_ ?_
  · exact ⟨fun _ ↦ .free, agrees_withCapacity hs hcap, by simp [Staked], by simp⟩
  · rintro c t op ⟨s', o⟩ - ⟨φ, hI⟩ - hpc he
    have hne : c.shared.cap ≠ 1 := by
      have := hI.agrees.two_le
      omega
    have hnone : (c.pcs t).bind claim = none := by rw [hpc]; rfl
    simp only [atomicBuffer, enter] at he
    split at he
    · cases he
      exact ⟨φ, hI.put_same hnone rfl (by simp)⟩
    · rw [pushPc, if_neg hne] at he
      cases he
      exact ⟨φ, hI.put_same hnone rfl (by rintro q ⟨⟩; trivial)⟩
    · rw [popPc, if_neg hne] at he
      cases he
      exact ⟨φ, hI.put_same hnone rfl (by rintro q ⟨⟩; trivial)⟩
  · rintro c t ch q ⟨s', o⟩ - ⟨φ, hI⟩ hok hpc he
    exact exec_inv hI hpc hok he

end Runs

end AtomicBuffer

end Crossync
