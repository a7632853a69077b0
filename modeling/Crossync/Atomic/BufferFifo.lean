import Crossync.Interleave.Solo
import Crossync.Atomic.BufferAlone

/-!
# `AtomicBuffer` is a bounded FIFO queue

Calls that do not overlap, each run access by access to its end, by any thread and through any
spurious failures of its weak exchanges. Whatever happens in between, **such a call does what
`pushAlone` and `popAlone` say** (`solo_push`, `solo_pop`), and a call whose exchanges do not fail
for no reason returns.

The two representations meet in `Queues s q`: a ring for a capacity of two or more, one pointer for
a capacity of one. Nothing in it bounds `head` and `tail`: the code compares words, and a queue of
at most `2 ^ 62` pointers is told full from empty by them however often they have wrapped around.

A drain is a sequence of pops, at most as many as the capacity, made one by one as its consumer asks
for them.

## What wraps and what does not

Positions grow without bound and the code compares words. A queue holds at most `2 ^ 62` pointers,
so `head` and `tail` are never a full range apart, and the word of one is the word of the other only
if they are equal. No sequence of calls is too long for the result.
-/

open Interleave

namespace Crossync

namespace AtomicBuffer

variable {ι α : Type*} [DecidableEq α]

/-! ### Calls run alone

The loops of the interleaved code, each passed once. A weak exchange that fails makes the loop go
round again with the same words. -/

/-- A call of `t`, run alone through the choices. -/
def runCall (t : ι) (chs : List (Choice ι)) (op : Op α) (s : Store α) : Option (Store α × Ret α) :=
  ((atomicBuffer : Object ι (Store α) (Pc α) (Op α) (Ret α)).enter t op s).bind
    (atomicBuffer.solo t chs)

/-- What `push` of a non-null pointer returns. -/
def pushRet (v : α) : Bool → Ret α
  | true => .ok
  | false => .err (some v)

/-- What `pop` returns. -/
def popRet : Option α → Ret α
  | some v => .popped (some v)
  | none => .empty

section Solo

variable {t : ι} {chs : List (Choice ι)} {s s' s₁ : Store α} {v : α} {b : Bool} {x : Option α}
  {r : Ret α}

/-- A call that has returned. -/
theorem solo_ret (chs : List (Choice ι)) (s : Store α) (r : Ret α) :
    (atomicBuffer : Object ι (Store α) (Pc α) (Op α) (Ret α)).solo t chs (s, .ret r) =
      some (s, r) := by
  cases chs <;> rfl

/-- One access of a call. -/
theorem solo_goto {p : Pc α} {x : Store α × Ret α}
    (h : (atomicBuffer : Object ι (Store α) (Pc α) (Op α) (Ret α)).solo t chs
      (s, .goto p) = some x) :
    ∃ ch chs' y, chs = ch :: chs' ∧ exec t ch s p = some y ∧
      atomicBuffer.solo t chs' y = some x := by
  cases chs with
  | nil => cases h
  | cons ch chs' =>
    obtain ⟨y, hy, hx⟩ := Option.bind_eq_some_iff.1 h
    exact ⟨ch, chs', y, rfl, hy, hx⟩

/-- The loop of `push`, from the load of the sequence and from the exchange. The exchange finds the
`tail` it has loaded, or fails for no reason and the loop is at its head again. -/
theorem solo_push_loop (hcap : s.cap ≠ 1) (hv : pushAlone v s = some (s', b)) :
    ((atomicBuffer : Object ι (Store α) (Pc α) (Op α) (Ret α)).solo t chs
      (s, .goto (.pushSequence v s.tail)) = some (s₁, r) → s₁ = s' ∧ r = pushRet v b) ∧
    (word (s.sequence (slot s s.tail)) - word s.tail = 0 →
      (atomicBuffer : Object ι (Store α) (Pc α) (Op α) (Ret α)).solo t chs
        (s, .goto (.pushCas v s.tail)) = some (s₁, r) → s₁ = s' ∧ r = pushRet v b) := by
  rw [pushAlone, if_neg hcap] at hv
  induction chs with
  | nil => exact ⟨fun h ↦ (by cases h), fun _ h ↦ (by cases h)⟩
  | cons ch chs ih =>
    refine ⟨fun h ↦ ?_, fun hdiff h ↦ ?_⟩
    · obtain ⟨_, _, y, hchs, hy, hx⟩ := solo_goto h
      obtain ⟨rfl, rfl⟩ := List.cons.inj hchs
      simp only [exec] at hy
      by_cases hdiff : word (s.sequence (slot s s.tail)) - word s.tail = 0
      · rw [if_pos hdiff] at hy
        cases hy
        exact ih.2 hdiff hx
      · simp only [if_neg hdiff] at hy hv
        split_ifs at hy hv
        cases hy
        cases hv
        rw [solo_ret] at hx
        cases hx
        exact ⟨rfl, rfl⟩
    · obtain ⟨_, _, y, hchs, hy, hx⟩ := solo_goto h
      obtain ⟨rfl, rfl⟩ := List.cons.inj hchs
      simp only [exec] at hy
      cases hcas : casWeak ch (word s.tail) (word s.tail) (word (s.tail + 1)) with
      | error w =>
        rw [hcas] at hy
        cases hy
        exact ih.1 hx
      | ok w =>
        rw [hcas] at hy
        cases hy
        -- the reservation holds: store the pointer and publish
        obtain ⟨_, _, y, -, hy, hx⟩ := solo_goto hx
        cases hy
        obtain ⟨_, _, y, -, hy, hx⟩ := solo_goto hx
        cases hy
        rw [solo_ret] at hx
        simp only [if_pos hdiff] at hv
        cases hv
        cases hx
        exact ⟨rfl, rfl⟩

/-- **A `push` that runs alone does what `pushAlone` says.** -/
theorem solo_push (hv : pushAlone v s = some (s', b))
    (h : runCall t chs (.push (some v)) s = some (s₁, r)) : s₁ = s' ∧ r = pushRet v b := by
  obtain ⟨y, hy, h⟩ := Option.bind_eq_some_iff.1 h
  cases hy
  by_cases hcap : s.cap = 1
  · simp only [pushPc, if_pos hcap] at h
    rw [pushAlone, if_pos hcap] at hv
    obtain ⟨_, _, y, -, hy, hx⟩ := solo_goto h
    simp only [exec, cas] at hy
    cases hs : s.single with
    | none =>
      simp only [hs] at hv
      rw [if_pos hs] at hy
      cases hy
      cases hv
      rw [solo_ret] at hx
      cases hx
      exact ⟨rfl, rfl⟩
    | some w =>
      simp only [hs] at hv
      rw [if_neg (by rw [hs]; simp)] at hy
      cases hy
      cases hv
      rw [solo_ret] at hx
      cases hx
      exact ⟨rfl, rfl⟩
  · simp only [pushPc, if_neg hcap] at h
    obtain ⟨_, _, y, -, hy, hx⟩ := solo_goto h
    cases hy
    exact (solo_push_loop hcap hv).1 hx

/-- The loop of `pop`, from the load of the sequence and from the exchange. -/
theorem solo_pop_loop (hcap : s.cap ≠ 1) (hv : popAlone s = some (s', x))
    (hsome : word (s.sequence (slot s s.head)) - word (s.head + 1) = 0 → x.isSome = true) :
    ((atomicBuffer : Object ι (Store α) (Pc α) (Op α) (Ret α)).solo t chs
      (s, .goto (.popSequence s.head)) = some (s₁, r) → s₁ = s' ∧ r = popRet x) ∧
    (word (s.sequence (slot s s.head)) - word (s.head + 1) = 0 →
      (atomicBuffer : Object ι (Store α) (Pc α) (Op α) (Ret α)).solo t chs
        (s, .goto (.popCas s.head)) = some (s₁, r) → s₁ = s' ∧ r = popRet x) := by
  rw [popAlone, if_neg hcap] at hv
  induction chs with
  | nil => exact ⟨fun h ↦ (by cases h), fun _ h ↦ (by cases h)⟩
  | cons ch chs ih =>
    refine ⟨fun h ↦ ?_, fun hdiff h ↦ ?_⟩
    · obtain ⟨_, _, y, hchs, hy, hx⟩ := solo_goto h
      obtain ⟨rfl, rfl⟩ := List.cons.inj hchs
      simp only [exec] at hy
      by_cases hdiff : word (s.sequence (slot s s.head)) - word (s.head + 1) = 0
      · rw [if_pos hdiff] at hy
        cases hy
        exact ih.2 hdiff hx
      · simp only [if_neg hdiff] at hy hv
        split_ifs at hy hv with hneg htail
        cases hy
        cases hv
        obtain ⟨_, _, y, -, hy, hx⟩ := solo_goto hx
        simp only [exec, if_pos htail] at hy
        cases hy
        rw [solo_ret] at hx
        cases hx
        exact ⟨rfl, rfl⟩
    · obtain ⟨_, _, y, hchs, hy, hx⟩ := solo_goto h
      obtain ⟨rfl, rfl⟩ := List.cons.inj hchs
      simp only [exec] at hy
      cases hcas : casWeak ch (word s.head) (word s.head) (word (s.head + 1)) with
      | error w =>
        rw [hcas] at hy
        cases hy
        exact ih.1 hx
      | ok w =>
        rw [hcas] at hy
        cases hy
        -- the reservation holds: take the pointer and publish
        obtain ⟨_, _, y, -, hy, hx⟩ := solo_goto hx
        cases hy
        obtain ⟨_, _, y, -, hy, hx⟩ := solo_goto hx
        cases hy
        rw [solo_ret] at hx
        have hx' := hsome hdiff
        simp only [if_pos hdiff] at hv
        cases hv
        cases hx
        refine ⟨rfl, ?_⟩
        obtain ⟨w, hw⟩ := Option.isSome_iff_exists.1 hx'
        show Ret.popped ((s.value (slot s s.head)).map Prod.snd) = popRet _
        rw [hw]
        rfl

/-- **A `pop` that runs alone does what `popAlone` says.** -/
theorem solo_pop (hv : popAlone s = some (s', x))
    (hsome : s.cap ≠ 1 → word (s.sequence (slot s s.head)) - word (s.head + 1) = 0 →
      x.isSome = true)
    (h : runCall t chs .pop s = some (s₁, r)) : s₁ = s' ∧ r = popRet x := by
  obtain ⟨y, hy, h⟩ := Option.bind_eq_some_iff.1 h
  cases hy
  by_cases hcap : s.cap = 1
  · simp only [popPc, if_pos hcap] at h
    rw [popAlone, if_pos hcap] at hv
    obtain ⟨_, _, y, -, hy, hx⟩ := solo_goto h
    simp only [exec] at hy
    cases hs : s.single with
    | none =>
      rw [hs] at hy
      cases hy
      cases hv
      rw [solo_ret] at hx
      cases hx
      refine ⟨?_, by rw [hs]; rfl⟩
      cases s
      cases hs
      rfl
    | some w =>
      rw [hs] at hy
      cases hy
      cases hv
      rw [solo_ret] at hx
      cases hx
      exact ⟨rfl, by rw [hs]; rfl⟩
  · simp only [popPc, if_neg hcap] at h
    obtain ⟨_, _, y, -, hy, hx⟩ := solo_goto h
    cases hy
    exact (solo_pop_loop hcap hv (hsome hcap)).1 hx

/-- An exchange that finds its word and does not fail for no reason. -/
theorem casWeak_self {ch : Choice ι} (h : ch ≠ .spurious) (w new : BitVec 64) :
    casWeak ch w w new = .ok new := by
  cases ch with
  | spurious => exact absurd rfl h
  | _ => simp [casWeak, cas]

/-- A `push` whose exchanges do not fail for no reason returns, after five accesses at most. -/
theorem push_returns (hv : pushAlone v s = some (s', b)) (hlen : 5 ≤ chs.length)
    (hgo : ∀ ch ∈ chs, ch ≠ .spurious) : ∃ y, runCall t chs (.push (some v)) s = some y := by
  match chs, hlen, hgo with
  | ch₁ :: ch₂ :: ch₃ :: ch₄ :: ch₅ :: chs, _, hgo =>
    have hgo₃ : ch₃ ≠ .spurious := hgo ch₃ (by simp)
    by_cases hcap : s.cap = 1
    · simp only [runCall, atomicBuffer, enter, pushPc, if_pos hcap, Option.bind_some,
        Object.solo, exec]
      cases hcas : cas s.single none (some v) with
      | ok | error => exact ⟨_, solo_ret _ _ _⟩
    · simp only [pushAlone, if_neg hcap] at hv
      simp only [runCall, atomicBuffer, enter, pushPc, if_neg hcap, Option.bind_some,
        Object.solo, exec]
      split_ifs at hv ⊢ with hdiff hneg
      · simp only [Option.bind_some, Object.solo, exec, casWeak_self hgo₃]
        exact ⟨_, rfl⟩
      · exact ⟨_, solo_ret _ _ _⟩

/-- And so does a `pop`. -/
theorem pop_returns (hv : popAlone s = some (s', x)) (hlen : 5 ≤ chs.length)
    (hgo : ∀ ch ∈ chs, ch ≠ .spurious) : ∃ y, runCall t chs .pop s = some y := by
  match chs, hlen, hgo with
  | ch₁ :: ch₂ :: ch₃ :: ch₄ :: ch₅ :: chs, _, hgo =>
    have hgo₃ : ch₃ ≠ .spurious := hgo ch₃ (by simp)
    by_cases hcap : s.cap = 1
    · simp only [runCall, atomicBuffer, enter, popPc, if_pos hcap, Option.bind_some,
        Object.solo, exec]
      cases hs : s.single with
      | none | some => exact ⟨_, solo_ret _ _ _⟩
    · simp only [popAlone, if_neg hcap] at hv
      simp only [runCall, atomicBuffer, enter, popPc, if_neg hcap, Option.bind_some,
        Object.solo, exec]
      split_ifs at hv ⊢ with hdiff hneg htail
      · simp only [Option.bind_some, Object.solo, exec, casWeak_self hgo₃]
        exact ⟨_, rfl⟩
      · simp only [Option.bind_some, Object.solo, exec, if_pos htail]
        exact ⟨_, rfl⟩

end Solo

/-! ### The content

One relation for both representations of the buffer. -/

/-- **The buffer holds these pointers**, oldest first. -/
def Queues (s : Store α) (q : List α) : Prop := s.cap = 1 ∧ s.single.toList = q ∨ Contains s q

section Content

variable {s : Store α} {q : List α}

omit [DecidableEq α] in
theorem Queues.length_le (h : Queues s q) : q.length ≤ s.cap := by
  rcases h with ⟨hcap, rfl⟩ | h
  · rw [hcap]
    cases s.single <;> simp
  · exact h.length_le

omit [DecidableEq α] in
/-- `push` appends while there is room, and else leaves the buffer as it is. -/
theorem Queues.push (h : Queues s q) (v : α) :
    ∃ s', pushAlone v s = some (s', decide (q.length < s.cap)) ∧ s'.cap = s.cap ∧
      Queues s' (if q.length < s.cap then q ++ [v] else q) ∧ (¬ q.length < s.cap → s' = s) := by
  rcases h with ⟨hcap, hq⟩ | h
  · cases hs : s.single with
    | none =>
      rw [hs] at hq
      subst hq
      refine ⟨{ s with single := some v }, ?_, rfl, Or.inl ⟨hcap, ?_⟩, fun hno ↦ ?_⟩
      · rw [pushAlone, if_pos hcap, hs, hcap]
        rfl
      · rw [hcap]
        rfl
      · rw [hcap] at hno
        exact absurd Nat.zero_lt_one hno
    | some w =>
      rw [hs] at hq
      subst hq
      refine ⟨s, ?_, rfl, Or.inl ⟨hcap, ?_⟩, fun _ ↦ rfl⟩
      · rw [pushAlone, if_pos hcap, hs, hcap]
        rfl
      · rw [hcap, hs]
        rfl
  · by_cases hlt : q.length < s.cap
    · obtain ⟨s', hpush, hcap, h'⟩ := h.push hlt v
      refine ⟨s', ?_, hcap, ?_, fun hno ↦ absurd hlt hno⟩
      · rw [hpush, decide_eq_true hlt]
      · rw [if_pos hlt]
        exact Or.inr h'
    · have hfull : q.length = s.cap := le_antisymm h.length_le (by omega)
      refine ⟨s, ?_, rfl, ?_, fun _ ↦ rfl⟩
      · rw [h.push_full hfull v, decide_eq_false hlt]
      · rw [if_neg hlt]
        exact Or.inr h

omit [DecidableEq α] in
/-- `pop` takes the oldest pointer, if there is one. -/
theorem Queues.pop (h : Queues s q) :
    ∃ s', popAlone s = some (s', q.head?) ∧ s'.cap = s.cap ∧ Queues s' q.tail := by
  rcases h with ⟨hcap, hq⟩ | h
  · refine ⟨{ s with single := none }, ?_, rfl, Or.inl ⟨hcap, ?_⟩⟩
    · rw [popAlone, if_pos hcap, ← hq]
      cases s.single <;> rfl
    · rw [← hq]
      cases s.single <;> rfl
  · cases q with
    | nil => exact ⟨s, h.pop_empty, rfl, Or.inr h⟩
    | cons v q =>
      obtain ⟨s', hpop, hcap, h'⟩ := h.pop
      exact ⟨s', hpop, hcap, Or.inr h'⟩

omit [DecidableEq α] in
/-- Where the slot of `head` says that there is a pointer, there is one. -/
theorem Queues.head_isSome (h : Queues s q) (hcap : s.cap ≠ 1)
    (hdiff : word (s.sequence (slot s s.head)) - word (s.head + 1) = 0) :
    q.head?.isSome = true := by
  rcases h with ⟨hone, -⟩ | h
  · exact absurd hone hcap
  · cases q with
    | cons => rfl
    | nil =>
      have htwo := h.two_le
      have hseq : s.sequence (slot s s.head) = s.head := by
        rw [slot_eq_mod h.pow]
        exact h.free 0 le_rfl (by omega)
      rw [hseq] at hdiff
      exact absurd hdiff (sub_word_neg (a := s.head) (d := 1) (by omega) (by omega)).1

omit [DecidableEq α] in
/-- `len_approx` is exact. -/
theorem Queues.lenAlone_eq (h : Queues s q) : lenAlone s = q.length := by
  rcases h with ⟨hcap, rfl⟩ | h
  · rw [lenAlone, if_pos hcap]
  · exact h.lenAlone_eq

omit [DecidableEq α] in
/-- A new buffer is empty. -/
theorem queues_withCapacity {cap : ℕ} (hpow : IsPowerOfTwo cap) (hle : cap ≤ 2 ^ 63 - 1) :
    withCapacity cap = some (.empty cap : Store α) ∧ Queues (.empty cap : Store α) [] := by
  refine ⟨if_pos ⟨hpow, hle⟩, ?_⟩
  by_cases hone : cap = 1
  · exact Or.inl ⟨hone, rfl⟩
  · obtain ⟨k, hk, rfl⟩ := hpow
    have hk0 : 0 < k := by
      rcases Nat.eq_zero_or_pos k with rfl | hpos
      · exact absurd rfl hone
      · exact hpos
    have hk62 : k ≤ 62 := by
      by_contra hgt
      have : 2 ^ 63 ≤ 2 ^ k := Nat.pow_le_pow_right (by omega) (by omega)
      omega
    refine Or.inr (contains_empty ⟨k, hk, rfl⟩ ?_ (Nat.pow_le_pow_right (by omega) hk62))
    calc 2 = 2 ^ 1 := rfl
      _ ≤ 2 ^ k := Nat.pow_le_pow_right (by omega) hk0

end Content

/-! ### Sequences of calls

The queue of the specification against the buffer, call by call, with drains that stop in the
middle. -/

/-- The calls; of a drain, how many pointers its consumer asks for at most. -/
inductive Cmd (α : Type*) where
  | op (op : Op α)
  | len
  | drain (n : ℕ)
  deriving DecidableEq

/-- What a call returns. -/
inductive Res (α : Type*) where
  | ret (r : Ret α)
  | nat (n : ℕ)
  | list (vs : List α)
  deriving DecidableEq

variable (ι) in
/-- The first `n` pops of `drain_all`, up to the first that finds nothing. -/
inductive Drains : ℕ → Store α → Store α → List α → Prop where
  | stop (s : Store α) : Drains 0 s s []
  | empty {n : ℕ} {s s' : Store α} (t : ι) (chs : List (Choice ι))
      (h : runCall t chs .pop s = some (s', .empty)) : Drains (n + 1) s s' []
  | next {n : ℕ} {s s₁ s' : Store α} {v : α} {vs : List α} (t : ι) (chs : List (Choice ι))
      (h : runCall t chs .pop s = some (s₁, .popped (some v))) (hrest : Drains n s₁ s' vs) :
      Drains (n + 1) s s' (v :: vs)

variable (ι) in
/-- One call, run alone to its end. -/
inductive Calls (s : Store α) : Cmd α → Store α → Res α → Prop where
  | op {op : Op α} {s' : Store α} {r : Ret α} (t : ι) (chs : List (Choice ι))
      (h : runCall t chs op s = some (s', r)) : Calls s (.op op) s' (.ret r)
  | len : Calls s .len s (.nat (lenAlone s))
  | drain {n : ℕ} {s' : Store α} {vs : List α} (h : Drains ι (min n s.cap) s s' vs) :
      Calls s (.drain n) s' (.list vs)

variable (ι) in
/-- A sequence of calls, none of which overlap. -/
inductive Runs : Store α → List (Cmd α) → Store α → List (Res α) → Prop where
  | nil (s : Store α) : Runs s [] s []
  | cons {s s₁ s' : Store α} {cmd : Cmd α} {cmds : List (Cmd α)} {r : Res α} {rs : List (Res α)}
      (h : Calls ι s cmd s₁ r) (hrest : Runs s₁ cmds s' rs) : Runs s (cmd :: cmds) s' (r :: rs)

/-- What a bounded queue does. -/
def Spec.call (cap : ℕ) (q : List α) : Cmd α → List α × Res α
  | .op (.push none) => (q, .ret (.err none))
  | .op (.push (some v)) =>
    if q.length < cap then (q ++ [v], .ret .ok) else (q, .ret (.err (some v)))
  | .op .pop => (q.tail, .ret (popRet q.head?))
  | .len => (q, .nat q.length)
  | .drain n => (q.drop n, .list (q.take n))

/-- What a bounded queue does with a sequence of calls. -/
def Spec.run (cap : ℕ) : List (Cmd α) → List α → List α × List (Res α)
  | [], q => (q, [])
  | cmd :: cmds, q =>
    let (q', r) := Spec.call cap q cmd
    let (q'', rs) := Spec.run cap cmds q'
    (q'', r :: rs)

section Runs

variable {s s' : Store α} {q : List α} {r : Ret α}

theorem runCall_push (h : Queues s q) {t : ι} {chs : List (Choice ι)} {v : α}
    (hrun : runCall t chs (.push (some v)) s = some (s', r)) :
    s'.cap = s.cap ∧ r = pushRet v (decide (q.length < s.cap)) ∧
      Queues s' (if q.length < s.cap then q ++ [v] else q) ∧ (¬ q.length < s.cap → s' = s) := by
  obtain ⟨s₁, hpush, hcap, h', hsame⟩ := h.push v
  obtain ⟨rfl, rfl⟩ := solo_push hpush hrun
  exact ⟨hcap, rfl, h', hsame⟩

theorem runCall_pop (h : Queues s q) {t : ι} {chs : List (Choice ι)}
    (hrun : runCall t chs .pop s = some (s', r)) :
    s'.cap = s.cap ∧ r = popRet q.head? ∧ Queues s' q.tail := by
  obtain ⟨s₁, hpop, hcap, h'⟩ := h.pop
  obtain ⟨rfl, rfl⟩ := solo_pop hpop h.head_isSome hrun
  exact ⟨hcap, rfl, h'⟩

/-- **A drain takes the oldest pointers** and leaves the others. -/
theorem drains_spec {n : ℕ} {vs : List α} (hd : Drains ι n s s' vs) {q : List α} (h : Queues s q) :
    s'.cap = s.cap ∧ vs = q.take n ∧ Queues s' (q.drop n) := by
  induction hd generalizing q with
  | stop s => exact ⟨rfl, rfl, h⟩
  | empty t chs hrun =>
    obtain ⟨hcap, hr, h'⟩ := runCall_pop h hrun
    cases q with
    | nil => exact ⟨hcap, rfl, h'⟩
    | cons v q => cases hr
  | next t chs hrun hrest ih =>
    obtain ⟨hcap, hr, h'⟩ := runCall_pop h hrun
    cases q with
    | nil => cases hr
    | cons v q =>
      cases hr
      obtain ⟨hcap', rfl, h''⟩ := ih h'
      exact ⟨hcap'.trans hcap, rfl, h''⟩

/-- **One call does what the bounded queue does.** -/
theorem calls_spec {cmd : Cmd α} {res : Res α} (hc : Calls ι s cmd s' res) (h : Queues s q) :
    s'.cap = s.cap ∧ res = (Spec.call s.cap q cmd).2 ∧ Queues s' (Spec.call s.cap q cmd).1 := by
  cases hc with
  | op t chs hrun =>
    rename_i op r
    cases op with
    | push value =>
      cases value with
      | none =>
        obtain ⟨y, hy, hrun⟩ := Option.bind_eq_some_iff.1 hrun
        cases hy
        rw [solo_ret] at hrun
        cases hrun
        exact ⟨rfl, rfl, h⟩
      | some v =>
        obtain ⟨hcap, rfl, h', -⟩ := runCall_push h hrun
        refine ⟨hcap, ?_, ?_⟩
        · rw [Spec.call]
          split_ifs with hlt
          · rw [decide_eq_true hlt]
            rfl
          · rw [decide_eq_false hlt]
            rfl
        · rw [Spec.call]
          split_ifs with hlt
          · rwa [if_pos hlt] at h'
          · rwa [if_neg hlt] at h'
    | pop =>
      obtain ⟨hcap, rfl, h'⟩ := runCall_pop h hrun
      exact ⟨hcap, rfl, h'⟩
  | len => exact ⟨rfl, by rw [h.lenAlone_eq]; rfl, h⟩
  | drain hd =>
    rename_i n vs
    obtain ⟨hcap, rfl, h'⟩ := drains_spec hd h
    have hle := h.length_le
    -- a drain stops at the capacity, and there are no more pointers than that
    have htake : q.take (min n s.cap) = q.take n := by
      rw [List.take_eq_take_iff]
      omega
    have hdrop : q.drop (min n s.cap) = q.drop n := by
      by_cases hn : n ≤ s.cap
      · rw [min_eq_left hn]
      · rw [List.drop_eq_nil_of_le (by omega), List.drop_eq_nil_of_le (by omega)]
    rw [hdrop] at h'
    rw [htake]
    exact ⟨hcap, rfl, h'⟩

/-- A drain can be run. -/
theorem exists_drains (t : ι) (n : ℕ) (h : Queues s q) : ∃ s' vs, Drains ι n s s' vs := by
  induction n generalizing s q with
  | zero => exact ⟨s, [], .stop s⟩
  | succ n ih =>
    obtain ⟨s₁, hpop, -, h₁⟩ := h.pop
    obtain ⟨⟨s₂, r⟩, hrun⟩ :=
      pop_returns (t := t) hpop (List.length_replicate (n := 5) (a := .go)).ge
      (by simp)
    obtain ⟨hcap, rfl, h₂⟩ := runCall_pop h hrun
    cases q with
    | nil => exact ⟨_, _, .empty t _ hrun⟩
    | cons v q =>
      obtain ⟨s', vs, hd⟩ := ih h₂
      exact ⟨s', v :: vs, .next t _ hrun hd⟩

/-- **Every call can be run to its end.** -/
theorem exists_calls (t : ι) (cmd : Cmd α) (h : Queues s q) : ∃ s' res, Calls ι s cmd s' res := by
  cases cmd with
  | op op =>
    cases op with
    | push value =>
      cases value with
      | none => exact ⟨s, _, .op t [] (solo_ret _ _ _)⟩
      | some v =>
        obtain ⟨s₁, hpush, -⟩ := h.push v
        obtain ⟨⟨s₂, r⟩, hrun⟩ := push_returns (t := t) hpush
          (List.length_replicate (n := 5) (a := .go)).ge (by simp)
        exact ⟨s₂, _, .op t _ hrun⟩
    | pop =>
      obtain ⟨s₁, hpop, -⟩ := h.pop
      obtain ⟨⟨s₂, r⟩, hrun⟩ :=
        pop_returns (t := t) hpop (List.length_replicate (n := 5) (a := .go)).ge
        (by simp)
      exact ⟨s₂, _, .op t _ hrun⟩
  | len => exact ⟨s, _, .len⟩
  | drain n =>
    obtain ⟨s', vs, hd⟩ := exists_drains t (min n s.cap) h
    exact ⟨s', _, .drain hd⟩

/-- **A sequence of calls does what the bounded queue does.** -/
theorem runs_spec {cmds : List (Cmd α)} {rs : List (Res α)} (hr : Runs ι s cmds s' rs) {q : List α}
    (h : Queues s q) :
    s'.cap = s.cap ∧ rs = (Spec.run s.cap cmds q).2 ∧ Queues s' (Spec.run s.cap cmds q).1 := by
  induction hr generalizing q with
  | nil s => exact ⟨rfl, rfl, h⟩
  | cons hcall hrest ih =>
    obtain ⟨hcap, rfl, h₁⟩ := calls_spec hcall h
    obtain ⟨hcap', rfl, h₂⟩ := ih h₁
    rw [hcap] at h₂ hcap' ⊢
    exact ⟨hcap', rfl, h₂⟩

theorem exists_runs (t : ι) (cmds : List (Cmd α)) (h : Queues s q) :
    ∃ s' rs, Runs ι s cmds s' rs := by
  induction cmds generalizing s q with
  | nil => exact ⟨s, [], .nil s⟩
  | cons cmd cmds ih =>
    obtain ⟨s₁, res, hcall⟩ := exists_calls t cmd h
    obtain ⟨-, -, h₁⟩ := calls_spec hcall h
    obtain ⟨s', rs, hrest⟩ := ih h₁
    exact ⟨s', res :: rs, .cons hcall hrest⟩

/-- **Run one at a time, `AtomicBuffer` is a bounded FIFO queue**, for every power of two as
capacity and for every sequence of calls: every call can be run to its end, and however it is run it
returns what the queue returns and leaves the content of the queue; a `push` that fails returns its
pointer and leaves the buffer as it is. -/
theorem bounded_fifo (t : ι) {cap : ℕ} (hpow : IsPowerOfTwo cap) (hle : cap ≤ 2 ^ 63 - 1) :
    ∃ s₀ : Store α, withCapacity cap = some s₀ ∧
      (∀ cmds, ∃ s rs, Runs ι s₀ cmds s rs) ∧
      ∀ cmds s rs, Runs ι s₀ cmds s rs →
        rs = (Spec.run cap cmds []).2 ∧ Queues s (Spec.run cap cmds []).1 ∧
        ∀ v s' w, Calls ι s (.op (.push v)) s' (.ret (.err w)) → w = v ∧ s' = s := by
  obtain ⟨hnew, h₀⟩ := queues_withCapacity (α := α) hpow hle
  refine ⟨.empty cap, hnew, fun cmds ↦ exists_runs t cmds h₀, fun cmds s rs hr ↦ ?_⟩
  obtain ⟨-, hrs, h⟩ := runs_spec hr h₀
  rw [show (Store.empty cap : Store α).cap = cap from rfl] at hrs h
  refine ⟨hrs, h, fun v s' w hc ↦ ?_⟩
  cases hc with
  | op t chs hrun =>
    cases v with
    | none =>
      obtain ⟨y, hy, hrun⟩ := Option.bind_eq_some_iff.1 hrun
      cases hy
      rw [solo_ret] at hrun
      cases hrun
      exact ⟨rfl, rfl⟩
    | some v =>
      obtain ⟨-, hr, -, hsame⟩ := runCall_push h hrun
      by_cases hlt : (Spec.run cap cmds ([] : List α)).1.length < s.cap
      · rw [decide_eq_true hlt] at hr
        cases hr
      · rw [decide_eq_false hlt] at hr
        cases hr
        exact ⟨rfl, hsame hlt⟩

end Runs

/-- A queue of capacity `1` and one of capacity `2`, through the same calls. -/
theorem bounded_fifo_small :
    (∃ s₀ s : Store ℕ, ∃ rs, withCapacity 1 = some s₀ ∧
      Runs (Fin 1) s₀ [.op (.push (some 7)), .op (.push (some 8)), .len, .drain 3] s rs ∧
      rs = [.ret .ok, .ret (.err (some 8)), .nat 1, .list [7]]) ∧
    ∃ s₀ s : Store ℕ, ∃ rs, withCapacity 2 = some s₀ ∧
      Runs (Fin 1) s₀ [.op (.push (some 7)), .op (.push (some 8)), .drain 1, .len, .op .pop] s rs ∧
      rs = [.ret .ok, .ret .ok, .list [7], .nat 1, .ret (.popped (some 8))] := by
  constructor
  · obtain ⟨s₀, hnew, hex, hall⟩ := bounded_fifo (α := ℕ) (0 : Fin 1)
      (show IsPowerOfTwo 1 from ⟨0, by decide, rfl⟩) (by decide)
    obtain ⟨s, rs, hr⟩ := hex _
    exact ⟨s₀, s, rs, hnew, hr, (hall _ s rs hr).1⟩
  · obtain ⟨s₀, hnew, hex, hall⟩ := bounded_fifo (α := ℕ) (0 : Fin 1)
      (show IsPowerOfTwo 2 from ⟨1, by decide, rfl⟩) (by decide)
    obtain ⟨s, rs, hr⟩ := hex _
    exact ⟨s₀, s, rs, hnew, hr, (hall _ s rs hr).1⟩

end AtomicBuffer

end Crossync
