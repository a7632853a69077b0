import Crossync.Atomic.BufferTransfer

/-!
# Where the pointers of an `AtomicBuffer` are

The phases of a run, read as places. A pointer brought for a position is in transit in its push, in
the slot of the position, in transit in its pop, or among the returned ones; the phase of the
position says which, so it is in one place and in no other. A push that is rejected has made no
access that changes the buffer.

## What is stated of a place

A pointer has one place at any time, and no two pointers share one. The places are those of the
code: a local variable of a push or a pop, a slot, and the caller of a completed pop.
`exec_recorded` makes the last of them precise: the record of returned pointers grows when a pop
returns one, and by that one.
-/

open Interleave

namespace Crossync

namespace AtomicBuffer

variable {ι α : Type*} [DecidableEq ι] [DecidableEq α]

section Runs

variable {c : Config ι (Store α) (Pc α)} {cap : ℕ} {s₀ : Store α}

/-! ### Places

Where a pointer can be, and that it is in one place. -/

/-- A place where the pointer of a position can be. -/
inductive Place (ι : Type*) where
  /-- In transit in its push. -/
  | inPush (t : ι)
  /-- In a slot. -/
  | inSlot (i : ℕ)
  /-- In transit in its pop. -/
  | inPop (t : ι)
  /-- Returned by the `k`-th completed pop. -/
  | returned (k : ℕ)
  deriving DecidableEq

/-- The pointer `v` brought for position `p` is at a place. -/
def Holds (c : Config ι (Store α) (Pc α)) (p : ℕ) (v : α) : Place ι → Prop
  | .inPush t => c.pcs t = some (.pushStore v p)
  | .inSlot i => i < c.shared.cap ∧ c.shared.value i = some (p, v)
  | .inPop t => ∃ pos, c.pcs t = some (.popPublish pos (some (p, v)))
  | .returned k => ∃ pos, c.shared.returned[k]? = some (pos, some (p, v))

/-- The last position below `tail` that uses slot `i`. -/
theorem exists_lap {cap tail i : ℕ} (hi : i < cap) (hlt : i < tail) :
    ∃ p, p % cap = i ∧ p < tail ∧ tail ≤ p + cap := by
  refine ⟨i + cap * ((tail - 1 - i) / cap), ?_, ?_, ?_⟩
  · rw [Nat.add_mul_mod_self_left, Nat.mod_eq_of_lt hi]
  · have := Nat.mul_div_le (tail - 1 - i) cap
    omega
  · have := Nat.lt_mul_div_succ (tail - 1 - i) (show 0 < cap by omega)
    rw [Nat.mul_add, Nat.mul_one] at this
    omega

omit [DecidableEq ι] [DecidableEq α] in
/-- A slot that holds a pointer holds it for a position whose phase says so. -/
theorem Agrees.phase_of_slot {φ : ℕ → Phase ι} {s : Store α} (h : Agrees φ s) {i p : ℕ} {v : α}
    (hi : i < s.cap) (hv : s.value i = some (p, v)) :
    i = p % s.cap ∧ s.pushes[p]? = some v ∧
      ((∃ t, φ p = .held .written t) ∨ φ p = .full ∨ ∃ t, φ p = .held .taking t) := by
  by_cases hlt : i < s.tail
  · obtain ⟨q, hqi, hqt, hqc⟩ := exists_lap hi hlt
    have hcell := h.cells q hqt hqc
    rw [hqi, hv] at hcell
    have hb : ∀ {x : ℕ}, (x, brought s q) = (x, some (p, v)) → q = p ∧ s.pushes[q]? = some v := by
      intro x hx
      have hx := (Prod.mk.inj hx).2
      unfold brought at hx
      obtain ⟨w, hw, hpair⟩ := Option.map_eq_some_iff.1 hx
      obtain ⟨rfl, rfl⟩ := Prod.mk.inj hpair
      exact ⟨rfl, hw⟩
    have hsnd := congrArg Prod.snd hcell
    cases hφ : φ q with
    | free | done =>
      rw [hφ] at hsnd
      cases hsnd
    | full =>
      rw [hφ] at hsnd
      obtain ⟨rfl, hp⟩ := hb (x := 0) (by rw [show brought s q = some (p, v) from hsnd.symm])
      exact ⟨hqi.symm, hp, Or.inr (Or.inl hφ)⟩
    | held st t =>
      rw [hφ] at hsnd
      cases st with
      | writing | taken => cases hsnd
      | written =>
        obtain ⟨rfl, hp⟩ := hb (x := 0) (by rw [show brought s q = some (p, v) from hsnd.symm])
        exact ⟨hqi.symm, hp, Or.inl ⟨t, hφ⟩⟩
      | taking =>
        obtain ⟨rfl, hp⟩ := hb (x := 0) (by rw [show brought s q = some (p, v) from hsnd.symm])
        exact ⟨hqi.symm, hp, Or.inr (Or.inr ⟨t, hφ⟩)⟩
  · rw [(h.fresh i (not_lt.1 hlt) hi).2] at hv
    cases hv

/-- The place that a phase stands for. -/
def Place.Of (φ : ℕ → Phase ι) (s : Store α) (p : ℕ) : Place ι → Prop
  | .inPush t => φ p = .held .writing t
  | .inSlot i => i = p % s.cap ∧
      ((∃ t, φ p = .held .written t) ∨ φ p = .full ∨ ∃ t, φ p = .held .taking t)
  | .inPop t => φ p = .held .taken t
  | .returned k => φ p = .done ∧ (s.returned.map Prod.fst)[k]? = some p

omit [DecidableEq ι] [DecidableEq α] in
theorem Place.Of.unique {φ : ℕ → Phase ι} {s : Store α} {p : ℕ} {a b : Place ι}
    (hn : (s.returned.map Prod.fst).Nodup) (ha : a.Of φ s p) (hb : b.Of φ s p) : a = b := by
  cases a with
  | returned k =>
    cases b with
    | returned l =>
      have hk : k < (s.returned.map Prod.fst).length := (List.getElem?_eq_some_iff.1 ha.2).1
      exact congrArg _ ((List.getElem?_inj hk hn).1 (ha.2.trans hb.2.symm))
    | inSlot i =>
      simp only [Place.Of] at ha hb
      grind
    | _ =>
      simp only [Place.Of] at ha hb
      rw [ha.1] at hb
      cases hb
  | _ =>
    cases b <;> simp only [Place.Of] at ha hb <;> grind

omit [DecidableEq ι] [DecidableEq α] in
theorem Inv.holds_of {φ : ℕ → Phase ι} (h : Inv φ c) {p : ℕ} {v : α} {a : Place ι}
    (ha : Holds c p v a) : a.Of φ c.shared p ∧ c.shared.pushes[p]? = some v := by
  cases a with
  | inPush t => exact ⟨h.staked.phase ha rfl, h.knows t _ ha⟩
  | inSlot i =>
    obtain ⟨hi, hv, hφ⟩ := h.agrees.phase_of_slot ha.1 ha.2
    exact ⟨⟨hi, hφ⟩, hv⟩
  | inPop t =>
    obtain ⟨pos, hpc⟩ := ha
    have hx := (h.knows t _ hpc).2
    obtain ⟨w, hw, hpair⟩ := Option.map_eq_some_iff.1 hx.symm
    obtain ⟨rfl, rfl⟩ := Prod.mk.inj hpair
    exact ⟨h.staked.phase hpc rfl, hw⟩
  | returned k =>
    obtain ⟨pos, hk⟩ := ha
    obtain ⟨hd, hx⟩ := h.agrees.returned_done _ (List.mem_of_getElem? hk)
    dsimp only at hd hx
    obtain ⟨w, hw, hpair⟩ := Option.map_eq_some_iff.1 hx.symm
    obtain ⟨rfl, rfl⟩ := Prod.mk.inj hpair
    exact ⟨⟨hd, by rw [List.getElem?_map, hk]; rfl⟩, hw⟩

omit [DecidableEq ι] [DecidableEq α] in
theorem Inv.exists_holds {φ : ℕ → Phase ι} (h : Inv φ c) {p : ℕ} {v : α}
    (hv : c.shared.pushes[p]? = some v) : ∃ a, Holds c p v a := by
  have hlt : p < c.shared.tail := by
    rw [← h.agrees.length]
    exact (List.getElem?_eq_some_iff.1 hv).1
  have hb : brought c.shared p = some (p, v) := by rw [brought, hv]; rfl
  have hslot : ∀ ph, φ p = ph → ph ≠ .free → ph ≠ .done →
      (cell c.shared.cap p (brought c.shared p) ph).2 = brought c.shared p →
        ∃ a, Holds c p v a := by
    intro ph hφ hf hd hc
    have hshow := congrArg Prod.snd (h.agrees.slot_shows (p := p) (hφ ▸ hf) (hφ ▸ hd))
    rw [hφ, hc, hb] at hshow
    have htwo := h.agrees.two_le
    exact ⟨.inSlot (p % c.shared.cap), Nat.mod_lt _ (by omega), hshow⟩
  cases hφ : φ p with
  | free =>
    have := (h.agrees.free_iff p).1 hφ
    omega
  | full => exact hslot .full hφ (by simp) (by simp) rfl
  | done =>
    obtain ⟨⟨pos, x⟩, he, rfl⟩ := h.agrees.done_returned p hφ
    obtain ⟨k, hk⟩ := List.getElem?_of_mem he
    have hx := (h.agrees.returned_done _ he).2
    rw [hb] at hx
    exact ⟨.returned k, pos, by rw [hk]; exact congrArg some (Prod.ext rfl hx)⟩
  | held st t =>
    have hclaim := (h.staked t p st).1 hφ
    obtain ⟨q, hq, hqc⟩ := Option.bind_eq_some_iff.1 hclaim
    cases st with
    | writing =>
      cases q <;> simp only [claim, reduceCtorEq, Option.some.injEq, Prod.mk.injEq, and_false,
        and_true] at hqc
      subst hqc
      have hw := h.knows t _ hq
      simp only [Knows, hv, Option.some.injEq] at hw
      exact ⟨.inPush t, by rw [hw]; exact hq⟩
    | written => exact hslot _ hφ (by simp) (by simp) rfl
    | taking => exact hslot _ hφ (by simp) (by simp) rfl
    | taken =>
      cases q <;> simp only [claim, reduceCtorEq, Option.some.injEq, Prod.mk.injEq, and_false,
        and_true] at hqc
      subst hqc
      have hx := (h.knows t _ hq).2
      rw [hb] at hx
      exact ⟨.inPop t, _, by rw [← hx]; exact hq⟩

/-! ### Rejected pushes

A push that reports a full buffer has stored nothing, so the caller has its pointer still. -/

/-- The pointer a push has been given and has not yet reserved a position for. -/
def offers : Pc α → Option α
  | .pushTail v | .pushSequence v _ | .pushCas v _ | .pushSingle v => some v
  | _ => none

/-- What an access may do to the pointer of a push that has reserved nothing yet: nothing at all, or
reserve; and only such a push is rejected. -/
structure Rejects (s s' : Store α) (q : Pc α) (o : Outcome (Pc α) (Ret α)) : Prop where
  /-- A rejected pointer is the one offered. -/
  offered : ∀ x, o = .ret (.err x) → ∃ v, x = some v ∧ offers q = some v
  /-- Before its reservation a push leaves everything as it is. -/
  untouched : ∀ v, offers q = some v →
    (s' = s ∧ (o = .ret (.err (some v)) ∨ ∃ q', o = .goto q' ∧ offers q' = some v)) ∨
    ∃ pos, o = .goto (.pushStore v pos)
  /-- After its reservation a push offers nothing again. -/
  accepted : offers q = none → ∀ q', o = .goto q' → offers q' = none

omit [DecidableEq ι] in
theorem exec_rejects {t : ι} {ch : Choice ι} {s s' : Store α} {q : Pc α}
    {o : Outcome (Pc α) (Ret α)} (hk : ∀ v, q ≠ .pushSingle v)
    (h : exec t ch s q = some (s', o)) : Rejects s s' q o := by
  cases q with
  | pushSingle v => exact absurd rfl (hk v)
  | pushTail v | pushSequence v pos | pushCas v pos =>
    simp only [exec] at h
    repeat' split at h
    all_goals cases h
    all_goals refine ⟨?_, ?_, ?_⟩ <;> simp [offers]
  | _ =>
    simp only [exec] at h
    repeat' split at h
    all_goals cases h
    all_goals refine ⟨?_, ?_, ?_⟩ <;> simp [offers]

/-! ### The record of the pops

The record is written by the access that returns a pointer. -/

/-- The pointer an outcome returns from a pop that found one. -/
def popped : Outcome (Pc α) (Ret α) → List (Option α)
  | .ret (.popped v) => [v]
  | _ => []

omit [DecidableEq ι] in
/-- **An access records what it returns**: the record of the pops grows by one entry when a pop
returns a pointer, the pointer is the one of the entry, and otherwise the record stays. -/
theorem exec_recorded {t : ι} {ch : Choice ι} {s s' : Store α} {q : Pc α}
    {o : Outcome (Pc α) (Ret α)} (hk : q ≠ .popSingle) (h : exec t ch s q = some (s', o)) :
    ∃ es, s'.returned = s.returned ++ es ∧ popped o = es.map fun e ↦ e.2.map Prod.snd := by
  cases q with
  | popSingle => exact absurd rfl hk
  | popPublish pos v =>
    cases h
    exact ⟨[(pos, v)], rfl, rfl⟩
  | _ =>
    simp only [exec] at h
    repeat' split at h
    all_goals cases h
    all_goals exact ⟨[], (List.append_nil _).symm, rfl⟩

/-- **Every pointer is transferred exactly once and in order.** With a capacity of at least two, in
every state reached without an extreme delay: `head ≤ tail ≤ head + cap`; the pop that reserved a
position returns the pointer brought by the push that reserved it; every pointer brought is at
exactly one place; a rejected push leaves the buffer as it is at every one of its accesses; and the
record of what the pops have returned grows by the pointer that a pop returns, when it returns
it. -/
theorem transfers_exactly_once (hs : withCapacity cap = some s₀) (hcap : 2 ≤ cap)
    (h : Reach (atomicBuffer : Object ι _ _ _ _) Prompt ⟨s₀, fun _ ↦ none⟩ c) :
    (c.shared.head ≤ c.shared.tail ∧ c.shared.tail ≤ c.shared.head + cap) ∧
    (∀ p x, (p, x) ∈ c.shared.returned → ∃ v, x = some (p, v) ∧ c.shared.pushes[p]? = some v) ∧
    (∀ t p x, c.pcs t = some (.popPublish p x) →
      ∃ v, x = some (p, v) ∧ c.shared.pushes[p]? = some v) ∧
    (∀ p v, c.shared.pushes[p]? = some v → ∃! a, Holds c p v a) ∧
    (∀ p v a, Holds c p v a → c.shared.pushes[p]? = some v) ∧
    (∀ t ch q s' o, c.pcs t = some q → exec t ch c.shared q = some (s', o) →
      Rejects c.shared s' q o) ∧
    (∀ t ch q s' o, c.pcs t = some q → exec t ch c.shared q = some (s', o) →
      ∃ es, s'.returned = c.shared.returned ++ es ∧
        popped o = es.map fun e ↦ e.2.map Prod.snd) := by
  obtain ⟨φ, hI⟩ := reach_inv hs hcap h
  have hcapc : c.shared.cap = cap := by
    refine h.invariant (I := fun c ↦ c.shared.cap = cap) ?_ ?_ ?_
    · unfold withCapacity at hs
      split_ifs at hs
      cases hs
      rfl
    · rintro c t op ⟨s', o⟩ - hc - - he
      simp only [atomicBuffer, enter] at he
      repeat' split at he
      all_goals cases he
      all_goals exact hc
    · rintro c t ch q ⟨s', o⟩ - hc - - he
      cases q <;> simp only [atomicBuffer, exec] at he
      all_goals repeat' split at he
      all_goals cases he
      all_goals exact hc
  have hbrought : ∀ {p : ℕ} {x : Option (ℕ × α)}, p < c.shared.tail → x = brought c.shared p →
      ∃ v, x = some (p, v) ∧ c.shared.pushes[p]? = some v := by
    intro p x hp hx
    have hget := List.getElem?_eq_getElem (hI.agrees.length ▸ hp)
    exact ⟨_, by rw [hx, brought, hget]; rfl, hget⟩
  refine ⟨⟨hI.agrees.head_le, hcapc ▸ hI.agrees.tail_le⟩, ?_, ?_, ?_, ?_, ?_, ?_⟩
  · intro p x hp
    obtain ⟨hd, hx⟩ := hI.agrees.returned_done (p, x) hp
    refine hbrought ?_ hx
    by_contra hge
    rw [(hI.agrees.free_iff p).2 (not_lt.1 hge)] at hd
    cases hd
  · intro t p x hpc
    obtain ⟨hlt, hx⟩ := hI.knows t _ hpc
    exact hbrought hlt hx
  · intro p v hv
    obtain ⟨a, ha⟩ := hI.exists_holds hv
    exact ⟨a, ha, fun b hb ↦
      Place.Of.unique hI.agrees.nodup (hI.holds_of hb).1 (hI.holds_of ha).1⟩
  · intro p v a ha
    exact (hI.holds_of ha).2
  · intro t ch q s' o hpc he
    refine exec_rejects ?_ he
    rintro v rfl
    exact hI.knows t _ hpc
  · intro t ch q s' o hpc he
    refine exec_recorded ?_ he
    rintro rfl
    exact hI.knows t _ hpc

end Runs

/-- Two threads on a buffer of two slots: thread `0` has pushed and thread `1` holds the pointer. -/
theorem transfers_exactly_once_in_transit :
    ∃ c : Config (Fin 2) (Store ℕ) (Pc ℕ),
      Reach (atomicBuffer : Object (Fin 2) _ _ _ _) Prompt
        ⟨.empty 2, fun _ ↦ none⟩ c ∧
      c.pcs 1 = some (.popPublish 0 (some (0, 7))) ∧ ∃! a, Holds c 0 7 a := by
  obtain ⟨c, hc, ht⟩ := Reach.exists_of_replay
    (atomicBuffer : Object (Fin 2) (Store ℕ) _ _ _) Prompt ⟨.empty 2, fun _ ↦ none⟩
    (.call 0 (.push (some 7)) :: List.replicate 5 (.exec 0 .go) ++
      .call 1 .pop :: List.replicate 4 (.exec 1 .go))
    (fun c ↦ decide (c.pcs 1 = some (.popPublish 0 (some (0, 7))) ∧ c.shared.pushes[0]? = some 7))
    (by decide)
  obtain ⟨h₁, h₂⟩ := of_decide_eq_true ht
  exact ⟨c, hc, h₁, (transfers_exactly_once (rfl : withCapacity 2 = _) le_rfl hc).2.2.2.1 0 7 h₂⟩

end AtomicBuffer

end Crossync
