import Crossync.Interleave.Futex
import Crossync.Interleave.Tally

/-!
# The token parker `ThreadParker`

A futex word that counts tokens. `park` takes a token and waits while there is none, `unpark` adds
one and wakes one sleeper. Both halves can be cloned, so any number of threads may park on one word
and any number may unpark; the parker starts with one token. The counter is 32 bits wide, and an
`unpark` that would overflow it panics.

## Why one wake for one token is enough

A wake may reach a thread that then finds the token gone, because a thread that was not asleep took
it. What is kept is a balance (`Inv.balance`): while anybody sleeps, the tokens and the sleepers
together are at most the threads inside `park` and those about to wake. So every token has a taker
that is awake or about to be woken.

`added` and `consumed` count the tokens that `unpark` added and `park` took; the code does not read
them.

## What is not promised

No order among the parked threads, and no promise that the thread that is woken takes the token. A
thread that comes late may take it first, and the woken one sleeps again; the balance says that this
can only happen with a taker for every token left.
-/

open Interleave

namespace Crossync

namespace Parker

/-- `u32::MAX`, the most tokens there can be. -/
def tokenMax : ℕ := 2 ^ 32 - 1

/-- `ThreadInner`, with the count of what was added and taken. -/
structure Store (ι : Type*) where
  tokens : Futex ι ℕ
  added : ℕ
  consumed : ℕ

/-- The operations. -/
inductive Op where
  | park
  | unpark
  deriving DecidableEq

/-- How an operation ends. -/
inductive Ret where
  | unit
  /-- "parker token count overflow" -/
  | overflow
  deriving DecidableEq, Repr

/-- Program points, named after the access that comes next. -/
inductive Pc where
  /-- `try_consume_token`: load, then exchange; on the fast path or in the loop. -/
  | consumeLoad (fast : Bool)
  | consumeCas (fast : Bool) (v : ℕ)
  /-- `park`: `futex_wait`, and asleep. -/
  | wait
  | parked
  /-- `add_token`: load, then exchange. -/
  | addLoad
  | addCas (v : ℕ)
  /-- `unpark`: `futex_wake`. -/
  | wake
  deriving DecidableEq

section Code

variable {ι : Type*} [DecidableEq ι]

open Outcome

/-- A new parker: the state is `UNPARKED`. -/
def Store.new : Store ι := ⟨.new 1, 0, 0⟩

/-- `try_consume_token` at a loaded value; without a token, the fast path goes on to the loop and
the loop to `futex_wait`. -/
def consumeLoop (fast : Bool) (v : ℕ) : Pc :=
  if 0 < v then .consumeCas fast v else if fast then .consumeLoad false else .wait

/-- `add_token` at a loaded value. -/
def addLoop (v : ℕ) : Outcome Pc Ret := if v < tokenMax then goto (.addCas v) else ret .overflow

/-- Start of a call. -/
def enter (_ : ι) (op : Op) (s : Store ι) : Option (Store ι × Outcome Pc Ret) :=
  match op with
  | .park => some (s, goto (.consumeLoad true))
  | .unpark => some (s, goto .addLoad)

/-- The access at a program point. -/
def exec (t : ι) (ch : Choice ι) (s : Store ι) : Pc → Option (Store ι × Outcome Pc Ret)
  | .consumeLoad fast => some (s, goto (consumeLoop fast s.tokens.value))
  | .consumeCas fast v =>
    match casWeak ch s.tokens.value v (v - 1) with
    | .ok w => some ({ s with tokens := { s.tokens with value := w }, consumed := s.consumed + 1 },
      ret .unit)
    | .error w => some (s, goto (consumeLoop fast w))
  | .wait =>
    match s.tokens.wait t 0 with
    | some f => some ({ s with tokens := f }, goto .parked)
    | none => some (s, goto (.consumeLoad false))
  | .parked =>
    match s.tokens.resume t ch with
    | some f => some ({ s with tokens := f }, goto (.consumeLoad false))
    | none => none
  | .addLoad => some (s, addLoop s.tokens.value)
  | .addCas v =>
    match casWeak ch s.tokens.value v (v + 1) with
    | .ok w => some ({ s with tokens := { s.tokens with value := w }, added := s.added + 1 },
      goto .wake)
    | .error w => some (s, addLoop w)
  | .wake =>
    match s.tokens.wakeOne ch with
    | some f => some ({ s with tokens := f }, ret .unit)
    | none => none

/-- `ThreadParker` -/
def threadParker : Object ι (Store ι) Pc Op Ret where
  enter := enter
  exec := exec

/-- A new parker with every thread outside. -/
def init : Config ι (Store ι) Pc := ⟨.new, fun _ ↦ none⟩

end Code

section Runs

variable {ι : Type*} [DecidableEq ι] [Fintype ι]
  {ok : Config ι (Store ι) Pc → Label ι Op → Prop} {c : Config ι (Store ι) Pc}

/-! ### The balance

Tokens and sleepers against the threads that are awake inside `park` or about to wake one. -/

/-- A thread inside `park`, asleep or not. -/
def parking : Option Pc → ℕ
  | some (.consumeLoad _) | some (.consumeCas _ _) | some .wait | some .parked => 1
  | _ => 0

/-- A thread that has added its token and owes the wake. -/
def waking : Option Pc → ℕ
  | some .wake => 1
  | _ => 0

/-- The exchanges that the program points go for are possible. -/
def Pc.Valid : Pc → Prop
  | .consumeCas _ v => 0 < v
  | .addCas v => v < tokenMax
  | _ => True

/-- **The invariant.** -/
structure Inv (c : Config ι (Store ι) Pc) : Prop where
  tokens : c.shared.tokens.value + c.shared.consumed = 1 + c.shared.added
  bound : c.shared.tokens.value ≤ tokenMax
  valid : ∀ t p, c.pcs t = some p → p.Valid
  asleep : ∀ t ∈ c.shared.tokens.waiters, c.pcs t = some .parked
  balance : c.shared.tokens.waiters.Nonempty →
    c.shared.tokens.value + c.shared.tokens.waiters.card ≤
      tally (fun t ↦ parking (c.pcs t)) + tally fun t ↦ waking (c.pcs t)

omit [DecidableEq ι] in
theorem card_le_tally {w : Finset ι} {f : ι → ℕ} (hf : ∀ t ∈ w, f t = 1) : w.card ≤ tally f := by
  calc w.card = ∑ t ∈ w, f t := by rw [Finset.sum_congr rfl hf, Finset.card_eq_sum_ones]
    _ ≤ tally f := Finset.sum_le_sum_of_subset (Finset.subset_univ w)

theorem valid_consumeLoop (fast : Bool) (v : ℕ) :
    (consumeLoop fast v).Valid ∧ parking (some (consumeLoop fast v)) = 1 ∧
      waking (some (consumeLoop fast v)) = 0 := by
  unfold consumeLoop
  split_ifs with hv
  · exact ⟨hv, rfl, rfl⟩
  · exact ⟨trivial, rfl, rfl⟩
  · exact ⟨trivial, rfl, rfl⟩

/-- `add_token` goes on to its exchange, or panics on a full counter. -/
theorem addLoop_cases (v : ℕ) :
    (v < tokenMax ∧ addLoop v = .goto (.addCas v)) ∨
      (tokenMax ≤ v ∧ addLoop v = .ret .overflow) := by
  unfold addLoop
  split_ifs with hv
  · exact Or.inl ⟨hv, rfl⟩
  · exact Or.inr ⟨not_lt.1 hv, rfl⟩

/-- Where the step of `t` leads, as far as the invariant is concerned. -/
theorem Inv.put {t : ι} (h : Inv c) {s' : Store ι} {o : Outcome Pc Ret}
    (htokens : s'.tokens.value + s'.consumed = 1 + s'.added) (hbound : s'.tokens.value ≤ tokenMax)
    (hvalid : ∀ p, o.pc = some p → p.Valid)
    (hself : t ∈ s'.tokens.waiters → o.pc = some .parked)
    (hsleep : ∀ u, u ≠ t → u ∈ s'.tokens.waiters → u ∈ c.shared.tokens.waiters)
    (hbalance : s'.tokens.waiters.Nonempty → ∀ m n,
      m + parking (c.pcs t) = tally (fun u ↦ parking (c.pcs u)) + parking o.pc →
      n + waking (c.pcs t) = tally (fun u ↦ waking (c.pcs u)) + waking o.pc →
      s'.tokens.waiters.card ≤ m → s'.tokens.value + s'.tokens.waiters.card ≤ m + n) :
    Inv (c.put t (s', o)) := by
  have hasleep : ∀ u ∈ s'.tokens.waiters, (c.put t (s', o)).pcs u = some .parked := by
    intro u hu
    by_cases hut : u = t
    · subst hut
      rw [Config.put_pcs_self]
      exact hself hu
    · rw [Config.put_pcs_of_ne _ _ hut]
      exact h.asleep u (hsleep u hut hu)
  refine ⟨htokens, hbound, ?_, hasleep, fun hne ↦ ?_⟩
  · exact Config.forall_put (L := fun _ _ q ↦ q.Valid) hvalid fun u q _ hq ↦ h.valid u q hq
  · refine hbalance hne _ _ (tally_put parking c t (s', o)) (tally_put waking c t (s', o)) ?_
    refine card_le_tally fun u hu ↦ ?_
    rw [hasleep u hu]
    rfl

/-- A step that leaves the word and the sleepers alone; a thread stays inside `park` or was never
there. -/
theorem Inv.goes {t : ι} (h : Inv c) {o : Outcome Pc Ret} (hvalid : ∀ p, o.pc = some p → p.Valid)
    (hself : t ∈ c.shared.tokens.waiters → o.pc = some .parked)
    (hpark : parking (c.pcs t) ≤ parking o.pc) (hwake : waking (c.pcs t) ≤ waking o.pc) :
    Inv (c.put t (c.shared, o)) := by
  refine h.put h.tokens h.bound hvalid hself (fun _ _ hu ↦ hu) fun hne m n hm hn _ ↦ ?_
  have := h.balance hne
  omega

/-- **Every access keeps the invariant.** -/
theorem Inv.exec {t : ι} {ch : Choice ι} {p : Pc} {s' : Store ι} {o : Outcome Pc Ret} (h : Inv c)
    (hpc : c.pcs t = some p) (he : exec t ch c.shared p = some (s', o)) :
    Inv (c.put t (s', o)) := by
  have hvalid := h.valid t p hpc
  have htokens := h.tokens
  have hbound := h.bound
  -- a thread that is not parked is not among the sleepers
  have hout : p ≠ .parked → t ∉ c.shared.tokens.waiters := by
    intro hp ht
    have := h.asleep t ht
    rw [hpc] at this
    exact hp (Option.some.inj this)
  cases p with
  | consumeLoad fast =>
    cases he
    obtain ⟨hv, hp, -⟩ := valid_consumeLoop fast c.shared.tokens.value
    refine h.goes ?_ (fun ht ↦ absurd ht (hout nofun)) ?_ ?_
    · rintro _ ⟨⟩
      exact hv
    · rw [hpc, Outcome.pc_goto, hp]
      rfl
    · rw [hpc]
      exact Nat.zero_le _
  | consumeCas fast v =>
    simp only [Parker.exec] at he
    split at he
    · rename_i w hcas
      cases he
      obtain ⟨hcur, rfl⟩ := casWeak_eq_ok hcas
      have hpos : 0 < v := hvalid
      refine h.put ?_ ?_ nofun (fun ht ↦ absurd ht (hout nofun)) (fun _ _ hu ↦ hu) ?_
      · show v - 1 + (c.shared.consumed + 1) = 1 + c.shared.added
        omega
      · show v - 1 ≤ tokenMax
        omega
      · intro hne m n hm hn _
        have hbal := h.balance hne
        rw [hpc] at hm hn
        have : m + 1 = tally (fun u ↦ parking (c.pcs u)) + 0 := hm
        have : n + 0 = tally (fun u ↦ waking (c.pcs u)) + 0 := hn
        show v - 1 + c.shared.tokens.waiters.card ≤ m + n
        omega
    · rename_i w hcas
      cases he
      obtain ⟨hv, hp, -⟩ := valid_consumeLoop fast w
      refine h.goes ?_ (fun ht ↦ absurd ht (hout nofun)) ?_ ?_
      · rintro _ ⟨⟩
        exact hv
      · rw [hpc, Outcome.pc_goto, hp]
        rfl
      · rw [hpc]
        exact Nat.zero_le _
  | wait =>
    simp only [Parker.exec] at he
    split at he
    · rename_i f hw
      cases he
      obtain ⟨hzero, rfl⟩ := Futex.wait_eq_some hw
      refine h.put htokens hbound ?_ (fun _ ↦ rfl) ?_ fun _ m n _ _ hcard ↦ ?_
      · rintro _ ⟨⟩
        trivial
      · intro u hut hu
        exact (Finset.mem_insert.1 hu).resolve_left hut
      · -- there is no token, and every sleeper is inside `park`
        show c.shared.tokens.value + _ ≤ m + n
        omega
    · cases he
      refine h.goes ?_ (fun ht ↦ absurd ht (hout nofun)) (by rw [hpc]; rfl) (by rw [hpc]; rfl)
      rintro _ ⟨⟩
      trivial
  | parked =>
    simp only [Parker.exec] at he
    split at he
    · rename_i f hr
      cases he
      obtain ⟨hv, hw⟩ := Futex.resume_eq_some hr
      refine h.put ?_ ?_ ?_ ?_ ?_ fun hne m n hm hn _ ↦ ?_
      · show f.value + _ = _
        rw [hv]
        exact htokens
      · show f.value ≤ _
        rwa [hv]
      · rintro _ ⟨⟩
        trivial
      · intro ht
        rw [hw] at ht
        exact absurd ht (Finset.notMem_erase t _)
      · intro u _ hu
        rw [hw] at hu
        exact Finset.mem_of_mem_erase hu
      · have hne' : c.shared.tokens.waiters.Nonempty := by
          rw [hw] at hne
          exact hne.mono (Finset.erase_subset _ _)
        have hbal := h.balance hne'
        have hle : f.waiters.card ≤ c.shared.tokens.waiters.card := by
          rw [hw]
          exact Finset.card_le_card (Finset.erase_subset _ _)
        rw [hpc] at hm hn
        have : m + 1 = tally (fun u ↦ parking (c.pcs u)) + 1 := hm
        have : n + 0 = tally (fun u ↦ waking (c.pcs u)) + 0 := hn
        show f.value + f.waiters.card ≤ m + n
        omega
    · cases he
  | addLoad =>
    cases he
    obtain ⟨hlt, ho⟩ | ⟨-, ho⟩ := addLoop_cases c.shared.tokens.value
    · rw [ho]
      refine h.goes ?_ (fun ht ↦ absurd ht (hout nofun)) (by rw [hpc]; rfl) (by rw [hpc]; rfl)
      rintro _ ⟨⟩
      exact hlt
    · rw [ho]
      exact h.goes nofun (fun ht ↦ absurd ht (hout nofun)) (by rw [hpc]; rfl) (by rw [hpc]; rfl)
  | addCas v =>
    simp only [Parker.exec] at he
    split at he
    · rename_i w hcas
      cases he
      obtain ⟨hcur, rfl⟩ := casWeak_eq_ok hcas
      have hlt : v < tokenMax := hvalid
      refine h.put ?_ ?_ ?_ (fun ht ↦ absurd ht (hout nofun)) (fun _ _ hu ↦ hu)
        fun hne m n hm hn _ ↦ ?_
      · show v + 1 + c.shared.consumed = 1 + (c.shared.added + 1)
        omega
      · show v + 1 ≤ tokenMax
        omega
      · rintro _ ⟨⟩
        trivial
      · have hbal := h.balance hne
        rw [hpc] at hm hn
        have : m + 0 = tally (fun u ↦ parking (c.pcs u)) + 0 := hm
        have : n + 0 = tally (fun u ↦ waking (c.pcs u)) + 1 := hn
        show v + 1 + c.shared.tokens.waiters.card ≤ m + n
        omega
    · rename_i w hcas
      cases he
      obtain ⟨hlt, ho⟩ | ⟨-, ho⟩ := addLoop_cases w
      · rw [ho]
        refine h.goes ?_ (fun ht ↦ absurd ht (hout nofun)) (by rw [hpc]; rfl) (by rw [hpc]; rfl)
        rintro _ ⟨⟩
        exact hlt
      · rw [ho]
        exact h.goes nofun (fun ht ↦ absurd ht (hout nofun)) (by rw [hpc]; rfl) (by rw [hpc]; rfl)
  | wake =>
    simp only [Parker.exec] at he
    split at he
    · rename_i f hw
      cases he
      have hv := Futex.wakeOne_value hw
      have hsub : f.waiters ⊆ c.shared.tokens.waiters := by
        rcases Futex.wakeOne_waiters hw with he | ⟨u, -, he⟩
        · rw [he]
          exact Finset.empty_subset _
        · rw [he]
          exact Finset.erase_subset _ _
      refine h.put ?_ ?_ nofun (fun ht ↦ absurd (hsub ht) (hout nofun)) (fun _ _ hu ↦ hsub hu)
        fun hne m n hm hn _ ↦ ?_
      · show f.value + _ = _
        rw [hv]
        exact htokens
      · show f.value ≤ _
        rwa [hv]
      · -- the wake is no longer owed, and one sleeper less sleeps
        have hbal := h.balance (hne.mono hsub)
        have hless : f.waiters.card + 1 = c.shared.tokens.waiters.card := by
          rcases Futex.wakeOne_waiters hw with he | ⟨u, hu, he⟩
          · rw [he] at hne
            exact absurd hne Finset.not_nonempty_empty
          · rw [he]
            exact Finset.card_erase_add_one hu
        rw [hpc] at hm hn
        have : m + 0 = tally (fun u ↦ parking (c.pcs u)) + 0 := hm
        have : n + 1 = tally (fun u ↦ waking (c.pcs u)) + 0 := hn
        show f.value + f.waiters.card ≤ m + n
        omega
    · cases he

omit [DecidableEq ι] in
theorem inv_init : Inv (init : Config ι (Store ι) Pc) where
  tokens := rfl
  bound := show 1 ≤ tokenMax by decide
  valid _ _ h := nomatch h
  asleep _ h := absurd h (Finset.notMem_empty _)
  balance h := absurd h Finset.not_nonempty_empty

theorem reach_inv (h : Reach threadParker ok init c) : Inv c := by
  refine h.invariant inv_init ?_ ?_
  · intro c t op r _ hI _ hpc he
    have hout : t ∉ c.shared.tokens.waiters := by
      intro ht
      have := hI.asleep t ht
      rw [hpc] at this
      cases this
    cases op with
    | park | unpark =>
      cases he
      refine hI.goes ?_ (fun ht ↦ absurd ht hout) (by rw [hpc]; exact Nat.zero_le _)
        (by rw [hpc]; exact Nat.zero_le _)
      rintro _ ⟨⟩
      trivial
  · rintro c t ch p ⟨s', o⟩ _ hI _ hpc he
    exact hI.exec hpc he

/-! ### Tokens and sleepers

What the balance says when nothing is moving. -/

/-- **Tokens are neither lost nor invented.** The tokens that are left and those that `park` took
are the first one and those that `unpark` added; and an `unpark` panics only on a full counter. -/
theorem tokens_exact (h : Reach threadParker Always init c) :
    c.shared.tokens.value + c.shared.consumed = 1 + c.shared.added ∧
    c.shared.tokens.value ≤ tokenMax ∧
    ∀ t ch p s', c.pcs t = some p → exec t ch c.shared p = some (s', .ret .overflow) →
      c.shared.tokens.value = tokenMax ∧ s' = c.shared := by
  have hI := reach_inv h
  refine ⟨hI.tokens, hI.bound, fun t ch p s' hpc he ↦ ?_⟩
  have hbound := hI.bound
  cases p with
  | addLoad =>
    simp only [exec, Option.some.injEq, Prod.mk.injEq] at he
    obtain ⟨rfl, he⟩ := he
    obtain ⟨-, ho⟩ | ⟨hle, -⟩ := addLoop_cases c.shared.tokens.value
    · rw [ho] at he
      cases he
    · exact ⟨by omega, rfl⟩
  | addCas v =>
    simp only [exec] at he
    split at he
    · cases he
    · rename_i w hcas
      simp only [Option.some.injEq, Prod.mk.injEq] at he
      obtain ⟨rfl, he⟩ := he
      obtain rfl := casWeak_eq_error hcas
      obtain ⟨-, ho⟩ | ⟨hle, -⟩ := addLoop_cases c.shared.tokens.value
      · rw [ho] at he
        cases he
      · exact ⟨by omega, rfl⟩
  | consumeLoad => cases he
  | consumeCas | wait | parked | wake =>
    simp only [exec] at he
    split at he <;> cases he

/-- One token taken, and one added that nobody has taken yet. -/
theorem tokens_exact_one_left :
    ∃ c : Config (Fin 2) (Store (Fin 2)) Pc, Reach threadParker Always init c ∧
      c.shared.consumed = 1 ∧
      c.shared.added = 1 ∧ c.shared.tokens.value = 1 := by
  obtain ⟨c, hc, ht⟩ :=
    Reach.exists_of_replay threadParker Always (init : Config (Fin 2) (Store (Fin 2)) Pc)
    [.call 0 .park, .exec 0 .go, .exec 0 .go, .call 1 .unpark, .exec 1 .go, .exec 1 .go]
    (fun c ↦ decide (c.shared.consumed = 1 ∧ c.shared.added = 1)) (by decide)
  obtain ⟨hconsumed, hadded⟩ := of_decide_eq_true ht
  have htokens := (tokens_exact hc).1
  exact ⟨c, hc, hconsumed, hadded, by omega⟩

/-- A token is left, some thread sleeps, and every other thread is outside or asleep as well. -/
def Stranded (c : Config ι (Store ι) Pc) : Prop :=
  0 < c.shared.tokens.value ∧
    ∃ t ∈ c.shared.tokens.waiters, ∀ u, u ≠ t → c.pcs u = none ∨ u ∈ c.shared.tokens.waiters

/-- **No parked thread is left behind a token.** While somebody sleeps, the tokens and the sleepers
together are at most the threads inside `park` and those about to wake one; so there is no token
with all its takers asleep and nobody else running. -/
theorem no_parker_stranded (h : Reach threadParker Always init c) :
    (c.shared.tokens.waiters.Nonempty →
      c.shared.tokens.value + c.shared.tokens.waiters.card ≤
        tally (fun t ↦ parking (c.pcs t)) + tally fun t ↦ waking (c.pcs t)) ∧
    ¬ Stranded c := by
  have hI := reach_inv h
  refine ⟨hI.balance, ?_⟩
  rintro ⟨hpos, t, ht, hothers⟩
  have hbal := hI.balance ⟨t, ht⟩
  have hrest : ∀ u, c.pcs u = none ∨ u ∈ c.shared.tokens.waiters := by
    intro u
    by_cases hut : u = t
    · exact Or.inr (hut ▸ ht)
    · exact hothers u hut
  have hwake : (tally fun u ↦ waking (c.pcs u)) = 0 := by
    refine tally_eq_zero_iff.2 fun u ↦ ?_
    rcases hrest u with hu | hu
    · rw [hu]
      rfl
    · rw [hI.asleep u hu]
      rfl
  have hpark : tally (fun u ↦ parking (c.pcs u)) = c.shared.tokens.waiters.card := by
    have hin : ∀ u ∈ c.shared.tokens.waiters, parking (c.pcs u) = 1 := by
      intro u hu
      rw [hI.asleep u hu]
      rfl
    have hout : ∀ u ∈ Finset.univ, u ∉ c.shared.tokens.waiters → parking (c.pcs u) = 0 := by
      intro u _ hu
      rw [(hrest u).resolve_right hu]
      rfl
    rw [tally, ← Finset.sum_subset (Finset.subset_univ _) hout, Finset.sum_congr rfl hin,
      Finset.card_eq_sum_ones]
  omega

/-- A run in which thread `0` sleeps, and thread `1` has added a token and still owes the wake. -/
theorem no_parker_stranded_before_wake :
    ∃ c : Config (Fin 2) (Store (Fin 2)) Pc, Reach threadParker Always init c ∧
      0 ∈ c.shared.tokens.waiters ∧
      0 < c.shared.tokens.value ∧ ¬ Stranded c := by
  obtain ⟨c, hc, ht⟩ :=
    Reach.exists_of_replay threadParker Always (init : Config (Fin 2) (Store (Fin 2)) Pc)
    [.call 0 .park, .exec 0 .go, .exec 0 .go, .call 0 .park, .exec 0 .go, .exec 0 .go, .exec 0 .go,
      .call 1 .unpark, .exec 1 .go, .exec 1 .go]
    (fun c ↦ decide (0 ∈ c.shared.tokens.waiters ∧ 0 < c.shared.tokens.value)) (by decide)
  obtain ⟨hsleep, hpos⟩ := of_decide_eq_true ht
  exact ⟨c, hc, hsleep, hpos, (no_parker_stranded hc).2⟩

end Runs

end Parker

end Crossync
