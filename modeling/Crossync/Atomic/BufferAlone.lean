import Crossync.Atomic.BufferTransfer

/-!
# The bounded queue `AtomicBuffer`, one call at a time

What `push` and `pop` do to the ring when no other thread takes a step in between. Each loop is
passed once: its compare-exchange finds the words it has just loaded, and a weak one that fails for
no reason finds them again. A call that would have to wait for another thread fails here (`none`).

`Contains s q` says that the ring holds the pointers `q`, oldest first, with every sequence word
where the next call expects it; the specifications of the two calls are stated with it.

## Why it is a function

Run alone, a call finds the words it has just loaded, so its accesses compose to a plain function of
the store, which is what is defined here. That the interleaved code run alone computes this function
is proved in `Atomic.BufferFifo`; the queue `Atomic.VecAlone` uses the same functions for its pool.
-/

open Interleave

namespace Crossync

namespace AtomicBuffer

variable {α : Type*}

/-- `push` of a non-null pointer: whether it is stored. -/
def pushAlone (v : α) (s : Store α) : Option (Store α × Bool) :=
  if s.cap = 1 then
    match s.single with
    | none => some ({ s with single := some v }, true)
    | some _ => some (s, false)
  else
    let pos := s.tail
    let diff := word (s.sequence (slot s pos)) - word pos
    if diff = 0 then
      some ({ s with
        tail := s.tail + 1
        pushes := s.pushes ++ [v]
        value := Function.update s.value (slot s pos) (some (pos, v))
        sequence := Function.update s.sequence (slot s pos) (pos + 1) }, true)
    else if diff.toInt < 0 then some (s, false)
    else none

/-- `pop`: the pointer, if there is one. -/
def popAlone (s : Store α) : Option (Store α × Option α) :=
  if s.cap = 1 then some ({ s with single := none }, s.single)
  else
    let pos := s.head
    let diff := word (s.sequence (slot s pos)) - word (pos + 1)
    if diff = 0 then
      some ({ s with
        head := s.head + 1
        value := Function.update s.value (slot s pos) none
        sequence := Function.update s.sequence (slot s pos) (pos + s.cap)
        returned := s.returned ++ [(pos, s.value (slot s pos))] },
        (s.value (slot s pos)).map Prod.snd)
    else if diff.toInt < 0 then
      if word s.tail = word pos then some (s, none) else none
    else none

/-- `len_approx`. -/
def lenAlone (s : Store α) : ℕ :=
  if s.cap = 1 then s.single.toList.length else lenApprox s.cap s.head s.tail

/-- **The ring holds these pointers**, oldest first. -/
structure Contains (s : Store α) (q : List α) : Prop where
  pow : IsPowerOfTwo s.cap
  two_le : 2 ≤ s.cap
  small : s.cap ≤ 2 ^ 62
  tail : s.tail = s.head + q.length
  length_le : q.length ≤ s.cap
  full : ∀ i v, q[i]? = some v → s.sequence ((s.head + i) % s.cap) = s.head + i + 1 ∧
    s.value ((s.head + i) % s.cap) = some (s.head + i, v)
  free : ∀ i, q.length ≤ i → i < s.cap → s.sequence ((s.head + i) % s.cap) = s.head + i

section Specs

variable {s : Store α} {q : List α}

theorem contains_empty {cap : ℕ} (hpow : IsPowerOfTwo cap) (htwo : 2 ≤ cap)
    (hsmall : cap ≤ 2 ^ 62) :
    Contains (.empty cap : Store α) [] := by
  refine ⟨hpow, htwo, hsmall, rfl, Nat.zero_le _, fun i v hv ↦ (by cases hv), fun i _ hi ↦ ?_⟩
  show id ((0 + i) % cap) = 0 + i
  rw [Nat.zero_add]
  exact Nat.mod_eq_of_lt hi

/-- Positions less than a lap apart have different slots. -/
theorem slot_ne {n a i j : ℕ} (hi : i < n) (hj : j < n) (hij : i ≠ j) :
    (a + i) % n ≠ (a + j) % n := by
  intro h
  rcases Nat.lt_or_gt_of_ne hij with hlt | hlt
  · have := eq_of_mod_eq h (by omega) (by omega)
    omega
  · have := eq_of_mod_eq h.symm (by omega) (by omega)
    omega

/-- `len_approx` is exact. -/
theorem Contains.lenAlone_eq (h : Contains s q) : lenAlone s = q.length := by
  have hle := h.length_le
  have hsmall := h.small
  have htwo := h.two_le
  have hsub : (word (s.head + q.length) - word s.head).toNat = q.length := by
    rw [word, word, BitVec.toNat_sub, BitVec.toNat_ofNat, BitVec.toNat_ofNat]
    omega
  rw [lenAlone, if_neg (by omega), lenApprox, h.tail, hsub]
  exact min_eq_left hle

/-- A word that is `d` behind another, with `d` below half of the range, differs from it by a
negative number. -/
theorem sub_word_neg {a d : ℕ} (hd : 0 < d) (hlt : d ≤ 2 ^ 62) :
    word a - word (a + d) ≠ 0 ∧ (word a - word (a + d)).toInt < 0 := by
  have hnat : (word a - word (a + d)).toNat = 2 ^ 64 - d := by
    rw [word, word, BitVec.toNat_sub, BitVec.toNat_ofNat, BitVec.toNat_ofNat]
    omega
  refine ⟨fun h ↦ ?_, ?_⟩
  · rw [h] at hnat
    have : (0 : BitVec 64).toNat = 0 := rfl
    omega
  · rw [BitVec.toInt_eq_toNat_cond, hnat, if_neg (by omega)]
    omega

/-- **`push` appends** while there is room. -/
theorem Contains.push (h : Contains s q) (hlt : q.length < s.cap) (v : α) :
    ∃ s', pushAlone v s = some (s', true) ∧ s'.cap = s.cap ∧ Contains s' (q ++ [v]) := by
  have htwo := h.two_le
  have hcap : s.cap ≠ 1 := by omega
  have hseq : s.sequence (slot s s.tail) = s.tail := by
    rw [slot_eq_mod h.pow, h.tail]
    exact h.free q.length le_rfl hlt
  refine ⟨{ s with
    tail := s.tail + 1
    pushes := s.pushes ++ [v]
    value := Function.update s.value (slot s s.tail) (some (s.tail, v))
    sequence := Function.update s.sequence (slot s s.tail) (s.tail + 1) }, ?_, rfl, ?_⟩
  · rw [pushAlone, if_neg hcap]
    simp only [hseq, sub_word_eq_zero_iff, if_true]
  · rw [slot_eq_mod h.pow, h.tail]
    refine ⟨h.pow, htwo, h.small, ?_, ?_, fun i x hx ↦ ?_, fun i hi hic ↦ ?_⟩
    · show s.head + q.length + 1 = s.head + (q ++ [v]).length
      rw [List.length_append]
      rfl
    · rw [List.length_append]
      exact hlt
    · show Function.update s.sequence _ _ ((s.head + i) % s.cap) = s.head + i + 1 ∧
        Function.update s.value _ _ ((s.head + i) % s.cap) = some (s.head + i, x)
      by_cases hi : i < q.length
      · have hne := slot_ne (a := s.head) (by omega) hlt (Nat.ne_of_lt hi)
        rw [Function.update_of_ne hne, Function.update_of_ne hne]
        rw [List.getElem?_append_left hi] at hx
        exact h.full i x hx
      · have hi' : i = q.length := by
          have := (List.getElem?_eq_some_iff.1 hx).1
          rw [List.length_append, List.length_singleton] at this
          omega
        subst hi'
        rw [List.getElem?_append_right le_rfl, Nat.sub_self] at hx
        cases hx
        rw [Function.update_self, Function.update_self]
        exact ⟨rfl, rfl⟩
    · show Function.update s.sequence _ _ ((s.head + i) % s.cap) = s.head + i
      rw [List.length_append, List.length_singleton] at hi
      have hic' : i < s.cap := hic
      rw [Function.update_of_ne (slot_ne (a := s.head) hic' hlt (by omega))]
      exact h.free i (by omega) hic'

/-- A full ring shows the sequence word of a lap ago, and `push` fails. -/
theorem Contains.push_full (h : Contains s q) (hlen : q.length = s.cap) (v : α) :
    pushAlone v s = some (s, false) := by
  have htwo := h.two_le
  have hsmall := h.small
  have hseq : s.sequence (slot s s.tail) = s.head + 1 := by
    rw [slot_eq_mod h.pow, h.tail, hlen, Nat.add_mod_right]
    exact (h.full 0 _ (List.getElem?_eq_getElem (by omega))).1
  have htail : s.tail = s.head + 1 + (s.cap - 1) := by
    rw [h.tail, hlen]
    omega
  obtain ⟨hne, hneg⟩ := sub_word_neg (a := s.head + 1) (d := s.cap - 1) (by omega) (by omega)
  rw [pushAlone, if_neg (by omega)]
  simp only [hseq]
  rw [htail, if_neg hne, if_pos hneg]

/-- What a push that stored its pointer leaves. -/
theorem Contains.pushed {v : α} {s' : Store α} (h : Contains s q)
    (hpush : pushAlone v s = some (s', true)) : Contains s' (q ++ [v]) := by
  have hlt : q.length < s.cap := by
    refine lt_of_le_of_ne h.length_le fun hfull ↦ ?_
    rw [h.push_full hfull v] at hpush
    cases hpush
  obtain ⟨t, hpush', -, ht⟩ := h.push hlt v
  cases Option.some.inj (hpush'.symm.trans hpush)
  exact ht

/-- **`pop` takes the oldest pointer.** -/
theorem Contains.pop {v : α} (h : Contains s (v :: q)) :
    ∃ s', popAlone s = some (s', some v) ∧ s'.cap = s.cap ∧ Contains s' q := by
  have htwo := h.two_le
  have hle := h.length_le
  have htail := h.tail
  rw [List.length_cons] at hle htail
  have hcap : s.cap ≠ 1 := by omega
  obtain ⟨hseq, hval⟩ := h.full 0 v rfl
  rw [Nat.add_zero, ← slot_eq_mod h.pow] at hseq hval
  refine ⟨{ s with
    head := s.head + 1
    value := Function.update s.value (slot s s.head) none
    sequence := Function.update s.sequence (slot s s.head) (s.head + s.cap)
    returned := s.returned ++ [(s.head, s.value (slot s s.head))] }, ?_, rfl, ?_⟩
  · rw [popAlone, if_neg hcap]
    simp only [hseq, sub_word_eq_zero_iff, if_true, hval, Option.map_some]
  · rw [slot_eq_mod h.pow]
    have hslot : ∀ i, 0 < i → i < s.cap → (s.head + i) % s.cap ≠ s.head % s.cap := by
      intro i hi hic
      have := slot_ne (a := s.head) hic (by omega : 0 < s.cap) (by omega)
      rwa [Nat.add_zero] at this
    refine ⟨h.pow, htwo, h.small, ?_, ?_, fun i x hx ↦ ?_, fun i hi hic ↦ ?_⟩
    · show s.tail = s.head + 1 + q.length
      omega
    · show q.length ≤ s.cap
      omega
    · show Function.update s.sequence _ _ ((s.head + 1 + i) % s.cap) = s.head + 1 + i + 1 ∧
        Function.update s.value _ _ ((s.head + 1 + i) % s.cap) = some (s.head + 1 + i, x)
      have hi : i < q.length := (List.getElem?_eq_some_iff.1 hx).1
      have hfull := h.full (i + 1) x hx
      rw [show s.head + 1 + i = s.head + (i + 1) by omega]
      have hne := hslot (i + 1) (by omega) (by omega)
      rw [Function.update_of_ne hne, Function.update_of_ne hne]
      exact hfull
    · show Function.update s.sequence _ _ ((s.head + 1 + i) % s.cap) = s.head + 1 + i
      have hic' : i < s.cap := hic
      rw [show s.head + 1 + i = s.head + (i + 1) by omega]
      by_cases hi' : i + 1 = s.cap
      · rw [hi', Nat.add_mod_right, Function.update_self]
      · rw [Function.update_of_ne (hslot (i + 1) (by omega) (by omega))]
        exact h.free (i + 1) (by rw [List.length_cons]; omega) (by omega)

/-- An empty ring has nothing to pop. -/
theorem Contains.pop_empty (h : Contains s []) : popAlone s = some (s, none) := by
  have htwo := h.two_le
  have htail : s.tail = s.head := h.tail
  have hseq : s.sequence (slot s s.head) = s.head := by
    rw [slot_eq_mod h.pow]
    exact h.free 0 le_rfl (by omega)
  obtain ⟨hne, hneg⟩ := sub_word_neg (a := s.head) (d := 1) (by omega) (by omega)
  rw [popAlone, if_neg (by omega)]
  simp only [hseq]
  rw [if_neg hne, if_pos hneg, htail, if_pos rfl]

end Specs

/-! ### Dropping the ring

The destructor pops until nothing is left and drops what the slots still hold, which is nothing. -/

/-- `drain_all`, taken to its end: up to `k` pointers are popped. -/
def drainAlone : ℕ → Store α → Option (Store α × List α)
  | 0, s => some (s, [])
  | k + 1, s =>
    match popAlone s with
    | none => none
    | some (s, none) => some (s, [])
    | some (s, some v) => (drainAlone k s).map fun r ↦ (r.1, v :: r.2)

/-- `drop` of the ring, once nobody else has a handle: the pointers that it frees, the one of the
ring of one first and then slot by slot. -/
def leftovers (s : Store α) : List α :=
  s.single.toList ++ (List.range s.cap).filterMap fun i ↦ (s.value i).map Prod.snd

/-- **No pointer is left behind**: the slots that hold nothing are null. -/
structure Vacant (s : Store α) (q : List α) : Prop where
  single : s.single = none
  null : ∀ i, q.length ≤ i → i < s.cap → s.value ((s.head + i) % s.cap) = none

theorem vacant_empty (cap : ℕ) : Vacant (.empty cap : Store α) [] :=
  ⟨rfl, fun _ _ _ ↦ rfl⟩

section Dropping

variable {s s' : Store α} {q : List α} {v : α}

theorem Vacant.push (hv : Vacant s q) (h : Contains s q) (hpush : pushAlone v s = some (s', true)) :
    Vacant s' (q ++ [v]) := by
  have htwo := h.two_le
  have hlt : q.length < s.cap := by
    refine lt_of_le_of_ne h.length_le fun hfull ↦ ?_
    rw [h.push_full hfull v] at hpush
    cases hpush
  simp only [pushAlone, if_neg (by omega : s.cap ≠ 1)] at hpush
  split_ifs at hpush
  · cases hpush
    refine ⟨hv.single, fun i hi hic ↦ ?_⟩
    rw [List.length_append, List.length_singleton] at hi
    have hic' : i < s.cap := hic
    show Function.update s.value (slot s s.tail) _ ((s.head + i) % s.cap) = none
    rw [slot_eq_mod h.pow, h.tail,
      Function.update_of_ne (slot_ne (a := s.head) hic' hlt (by omega))]
    exact hv.null i (by omega) hic'
  · cases hpush

theorem Vacant.pop (hv : Vacant s (v :: q)) (h : Contains s (v :: q))
    (hpop : popAlone s = some (s', some v)) : Vacant s' q := by
  have htwo := h.two_le
  simp only [popAlone, if_neg (by omega : s.cap ≠ 1)] at hpop
  split_ifs at hpop
  · obtain rfl := (Prod.mk.inj (Option.some.inj hpop)).1
    refine ⟨hv.single, fun i hi hic ↦ ?_⟩
    have hic' : i < s.cap := hic
    show Function.update s.value (slot s s.head) none ((s.head + 1 + i) % s.cap) = none
    rw [slot_eq_mod h.pow]
    by_cases hself : (s.head + 1 + i) % s.cap = s.head % s.cap
    · rw [hself, Function.update_self]
    · rw [Function.update_of_ne hself]
      have hlast : i + 1 ≠ s.cap := fun he ↦ hself (by
        rw [show s.head + 1 + i = s.head + s.cap by omega, Nat.add_mod_right])
      rw [show s.head + 1 + i = s.head + (i + 1) by omega]
      exact hv.null (i + 1) (by rw [List.length_cons]; omega) (by omega)
  · cases hpop

/-- **`drain_all`** takes every pointer, oldest first, and leaves only null slots. -/
theorem Contains.drain (h : Contains s q) (hv : Vacant s q) {k : ℕ} (hk : q.length ≤ k) :
    ∃ s', drainAlone k s = some (s', q) ∧ Contains s' [] ∧ Vacant s' [] := by
  induction q generalizing s k with
  | nil =>
    refine ⟨s, ?_, h, hv⟩
    cases k with
    | zero => rfl
    | succ k => rw [drainAlone, h.pop_empty]
  | cons v q ih =>
    cases k with
    | zero => cases hk
    | succ k =>
      obtain ⟨s₁, hpop, -, h₁⟩ := h.pop
      obtain ⟨s₂, hrest, h₂, hv₂⟩ := ih h₁ (hv.pop h hpop) (Nat.le_of_succ_le_succ hk)
      refine ⟨s₂, ?_, h₂, hv₂⟩
      rw [drainAlone, hpop]
      show (drainAlone k s₁).map _ = _
      rw [hrest]
      rfl

/-- Dropping an empty ring frees nothing. -/
theorem Vacant.leftovers_eq (hv : Vacant s []) : leftovers s = [] := by
  rw [leftovers, hv.single, Option.toList_none, List.nil_append, List.filterMap_eq_nil_iff]
  intro i hi
  have hlt := List.mem_range.1 hi
  -- the distance of the slot from the head
  have hslot : (s.head + (i + (s.cap - s.head % s.cap)) % s.cap) % s.cap = i := by
    have hmod := Nat.mod_lt s.head (by omega : 0 < s.cap)
    have hdiv := Nat.div_add_mod s.head s.cap
    rw [Nat.add_mod_mod, show s.head + (i + (s.cap - s.head % s.cap)) =
      i + s.cap * (s.head / s.cap + 1) by rw [Nat.mul_add]; omega, Nat.add_mul_mod_self_left]
    exact Nat.mod_eq_of_lt hlt
  have hnull := hv.null _ (Nat.zero_le _) (Nat.mod_lt (i + (s.cap - s.head % s.cap)) (by omega))
  rw [hslot] at hnull
  rw [hnull]
  rfl

end Dropping

end AtomicBuffer

end Crossync
