import Crossync.Atomic.ArrayTickets

/-!
# The slots of `AtomicArray`

What every thread may rely on about the slots, and that every step keeps it.

`tail` counts reservations and `len` counts writes, in whatever order they finish, so `len` says
nothing about a particular slot. What carries the argument is the ledger: its length is `tail`
(`Settled`), a slot below `tail` that is not written yet has a push in flight (`flying`), and a push
in flight finds its own entry there (`InFlight`). A reader that has seen `len` only knows that
`tail` is at least as large, which is enough, since `tail` never falls within a generation.

All of this belongs to one generation. While a reset exchanges the storage and the counters one
after the other they do not belong together, so `Books` states the relation between them for the
configurations in which no reset is between its first and its last exchange (`Calm`); a thread in a
shared section only ever sees those (`Locks.calm`).

## From the books to the results

`Books` is the invariant; nothing outside this module unfolds its clauses but `Atomic.ArraySlots`,
which reads the account of the slots off it, and `Atomic.ArrayReset`, which needs that a new
generation starts in order. The step lemma goes through the program points once and sends each to
one of the step rules, so a change to one access of the source changes one case.
-/

open Interleave

namespace Crossync

namespace AtomicArray

variable {ι α : Type*} [DecidableEq ι] [Fintype ι]

/-! ### Replacements

A reset builds its storage before it takes the coordination lock, so the storage is private until
the exchange. What is known about it (`Full`) is a matter of its own steps alone. -/

omit [Fintype ι] [DecidableEq ι] in
/-- The pushes of `init_with` fill the slots from the tail on, in order. -/
theorem initLoop_spec {n : ℕ} {vs : List α} {a b : Private ι α} (h : initLoop n vs a = some b)
    (hcap : a.tail + n ≤ a.storage.capacity) :
    n ≤ vs.length ∧ b.storage.capacity = a.storage.capacity ∧
      (∀ i, i < n → (b.storage.slots (a.tail + i)).state = .write ∧
        (b.storage.slots (a.tail + i)).value = vs[i]?) ∧
      ∀ i, i < a.tail ∨ a.tail + n ≤ i → b.storage.slots i = a.storage.slots i := by
  induction n, vs, a using initLoop.induct with
  | case1 vs a =>
    cases h
    exact ⟨Nat.zero_le _, rfl, fun i hi ↦ absurd hi (Nat.not_lt_zero i), fun _ _ ↦ rfl⟩
  | case2 n a => cases h
  | case3 n v vs a ih =>
    have hlt : ¬ a.storage.capacity ≤ a.tail := by omega
    have hpush : a.push v = ⟨⟨a.storage.capacity, Function.update a.storage.slots a.tail
        { a.storage.slots a.tail with value := some v, state := .write }⟩, a.tail + 1, a.len + 1⟩ :=
      if_neg hlt
    have htail : (a.push v).tail = a.tail + 1 := by rw [hpush]
    have hcap' : (a.push v).storage.capacity = a.storage.capacity := by rw [hpush]
    obtain ⟨hle, hbc, hin, hout⟩ := ih h (by rw [htail, hcap']; omega)
    rw [htail] at hin hout
    refine ⟨Nat.succ_le_succ hle, hbc.trans hcap', fun i hi ↦ ?_, fun i hi ↦ ?_⟩
    · cases i with
      | zero =>
        rw [hout _ (Or.inl (by omega)), hpush]
        simp
      | succ i =>
        obtain ⟨h₁, h₂⟩ := hin i (by omega)
        rw [show a.tail + (i + 1) = a.tail + 1 + i by omega, List.getElem?_cons_succ]
        exact ⟨h₁, h₂⟩
    · rw [hout i (by omega), hpush]
      exact Function.update_of_ne (by omega) _ _

omit [Fintype ι] [DecidableEq ι] in
/-- **A replacement is complete**: as many slots as were asked for, all written, with the values of
the initializer in order. -/
theorem initWith_spec {cap : ℕ} {vs : List α} {a : Private ι α} (h : initWith cap vs = .ok a) :
    cap ≠ 0 ∧ cap ≤ vs.length ∧ a.storage.capacity = cap ∧
      (∀ i, i < cap → (a.storage.slots i).state = .write ∧ (a.storage.slots i).value = vs[i]?) ∧
      ∀ i, cap ≤ i → (a.storage.slots i).state = .empty := by
  unfold initWith at h
  split_ifs at h with hcap
  split at h
  · rename_i b hb
    cases h
    obtain ⟨hle, hbc, hin, hout⟩ := initLoop_spec hb (le_of_eq (Nat.zero_add cap))
    refine ⟨hcap, hle, hbc, fun i hi ↦ ?_, fun i hi ↦ ?_⟩
    · have := hin i hi
      rwa [Nat.zero_add] at this
    · rw [hout i (Or.inr (by simpa using hi))]
      rfl
  · cases h

/-! ### What the program points say

What a call may rely on at each of its points, in terms of the slots, the counters and the ledger. A
push relies on its own slot and its entry, a visit on `len` being at most `tail`. -/

/-- The slot a push has reserved and not published yet. -/
def Pc.flight : Pc ι α → Option ℕ
  | .pushWrite _ _ i | .pushLen _ _ i | .pushState _ _ i => some i
  | _ => none

/-- A reservation that `len` does not count yet. -/
def Pc.uncounted : Pc ι α → ℕ
  | .pushWrite _ _ _ | .pushLen _ _ _ => 1
  | _ => 0

/-- A reset between its first and its last exchange. -/
def Pc.exchanging : Pc ι α → Bool
  | .resetHead _ _ | .resetTail _ _ | .resetLen _ _ => true
  | _ => false

/-- A push that has reserved slot `i`. -/
structure InFlight (t : ι) (s : Store ι α) (v : α) (a i : ℕ) : Prop where
  storage : a = s.storage
  empty : (s.slot a i).state = .empty
  entry : (s.ledger a)[i]? = some ⟨some (ticket s t), v, []⟩

/-- A call at a slot. -/
structure Visiting (s : Store ι α) (v : Visit α) : Prop where
  slots : v.slots = s.storage
  head : v.head = 0
  lt : v.i < v.len
  le : v.len ≤ s.tail

/-- A slot of the current generation that is reserved and written. -/
structure Written (s : Store ι α) (a i : ℕ) : Prop where
  storage : a = s.storage
  lt : i < s.tail
  state : (s.slot a i).state = .write

/-- The replacement of a reset of `t`: as large as asked for, and filled with the values of the
initializer in order. -/
structure Full (t : ι) (s : Store ι α) (r : Reset) : Prop where
  asked : (s.asked t).1 = r.newCap
  enough : r.newCap ≤ (s.asked t).2.length
  cap : (s.heap r.fresh).capacity = r.newCap
  ledger : s.ledger r.fresh = ((s.asked t).2.take r.newCap).map fun v ↦ ⟨none, v, []⟩
  written : ∀ i, i < r.newCap → (s.slot r.fresh i).state = .write ∧
    (s.slot r.fresh i).value = (s.asked t).2[i]?
  empty : ∀ i, r.newCap ≤ i → (s.slot r.fresh i).state = .empty

/-- The index a job asks for is below the length it has loaded. -/
def Job.Within (len : ℕ) : Job α → Prop
  | .get index | .getMut index => index < len
  | _ => True

/-- What a thread inside the coordination lock relies on. -/
def After.Holds (t : ι) (s : Store ι α) (ph : RawMutex.Phase) : After ι α → Prop
  | .attempt r | .inspect r | .retry r | .unwind r => Full t s r
  | .commit r _ => ph = .releaseExclusive →
      Full t s r ∧ s.storage = r.fresh ∧ s.tail = r.newCap ∧ s.len = r.newCap
  | .finish (.full _) => ph = .releaseShared → s.tail = s.capacity
  | .finish .pushed => ph = .releaseShared → ∃ i r, (s.ledger s.storage)[i]? = some r ∧
      r.pusher = some (ticket s t) ∧ (s.slot s.storage i).state = .write
  | _ => True

/-- **What a thread relies on** at a program point. -/
def Pc.Holds (t : ι) (s : Store ι α) : Pc ι α → Prop
  | .coord p k => k.Holds t s (RawMutex.phase p)
  | .pushCas _ _ tail => tail < s.capacity
  | .pushWrite v a i => InFlight t s v a i
  | .pushLen v a i | .pushState v a i => InFlight t s v a i ∧ (s.slot a i).value = some v
  | .loadHead j len => len ≤ s.tail ∧ j.Within len
  | .waitWrite v => Visiting s v
  | .lock _ v | .access v | .unlock _ v =>
    Visiting s v ∧ (s.slot v.slots v.target).state = .write
  | .dropSlot _ g => Written s g.storage g.index
  | .resetTry r | .resetShared r | .inspect r _ | .resetStorage r => Full t s r
  | .resetHead r _ => Full t s r ∧ s.storage = r.fresh
  | .resetTail r _ => Full t s r ∧ s.storage = r.fresh ∧ s.head = 0 ∧ s.headGen = r.fresh
  | .resetLen r _ => Full t s r ∧ s.storage = r.fresh ∧ s.head = 0 ∧ s.headGen = r.fresh ∧
      s.tail = r.newCap ∧ s.tailGen = r.fresh
  | _ => True

/-- The counters and the slots belong to one generation. -/
structure Settled (s : Store ι α) : Prop where
  headGen : s.headGen = s.storage
  tailGen : s.tailGen = s.storage
  lenGen : s.lenGen = s.storage
  head : s.head = 0
  length : (s.ledger s.storage).length = s.tail
  tail_le : s.tail ≤ s.capacity
  empty : ∀ i, s.tail ≤ i → (s.slot s.storage i).state = .empty
  content : ∀ i r, (s.ledger s.storage)[i]? = some r → (s.slot s.storage i).state = .write →
    (s.slot s.storage i).value = some r.content

/-- No reset is in the middle of its exchange. -/
def Calm (c : Config ι (Store ι α) (Pc ι α)) : Prop :=
  ∀ t p, c.pcs t = some p → p.exchanging = false

/-- Reservations that `len` does not count yet. -/
def uncounted (c : Config ι (Store ι α) (Pc ι α)) : ℕ :=
  tally fun t ↦ (c.pcs t).elim 0 Pc.uncounted

/-- **The books of the array.** -/
structure Books (c : Config ι (Store ι α) (Pc ι α)) : Prop where
  settled : Calm c → Settled c.shared
  count : Calm c → c.shared.len + uncounted c = c.shared.tail
  flying : Calm c → ∀ i, i < c.shared.tail →
    (c.shared.slot c.shared.storage i).state = .empty → ∃ t, (c.pcs t).bind Pc.flight = some i
  holds : ∀ t p, c.pcs t = some p → p.Holds t c.shared
  apart : ∀ t u i, t ≠ u → (c.pcs t).bind Pc.flight = some i → (c.pcs u).bind Pc.flight ≠ some i
  guards : ∀ t, ∀ g ∈ c.shared.guards t, Written c.shared g.storage g.index
  defined : c.shared.undefined = false

/-! ### Steps that touch no slot and no counter

These keep every statement about the data, so they are settled by congruence. -/

/-- The counters are as before, and so are the storages that were allocated. -/
structure SameBelow (s s' : Store ι α) : Prop where
  value : ∀ a i, a < s.next → (s'.slot a i).value = (s.slot a i).value
  state : ∀ a i, a < s.next → (s'.slot a i).state = (s.slot a i).state
  cap : ∀ a, a < s.next → (s'.heap a).capacity = (s.heap a).capacity
  ledger : ∀ a, a < s.next → s'.ledger a = s.ledger a
  storage : s'.storage = s.storage
  head : s'.head = s.head
  tail : s'.tail = s.tail
  len : s'.len = s.len
  headGen : s'.headGen = s.headGen
  tailGen : s'.tailGen = s.tailGen
  lenGen : s'.lenGen = s.lenGen

omit [DecidableEq ι] [Fintype ι] in
/-- A step that leaves all data alone leaves alone the storages that exist. -/
theorem SameData.below {s s' : Store ι α} (h : SameData s s') : SameBelow s s' :=
  ⟨fun a i _ ↦ h.value a i, fun a i _ ↦ h.state a i, fun a _ ↦ h.cap a,
    fun a _ ↦ by rw [h.ledger], h.storage, h.head, h.tail, h.len, h.headGen, h.tailGen, h.lenGen⟩

section Below

variable {s s' : Store ι α} {u : ι}

omit [DecidableEq ι] [Fintype ι] in
theorem Full.congr {r : Reset} (h : Full u s r) (hb : SameBelow s s')
    (hask : s'.asked u = s.asked u) (hr : r.fresh < s.next) : Full u s' r where
  asked := by rw [hask, h.asked]
  enough := by rw [hask]; exact h.enough
  cap := by rw [hb.cap _ hr, h.cap]
  ledger := by rw [hb.ledger _ hr, hask, h.ledger]
  written := fun i hi ↦ by rw [hb.state _ _ hr, hb.value _ _ hr, hask]; exact h.written i hi
  empty := fun i hi ↦ by rw [hb.state _ _ hr]; exact h.empty i hi

omit [DecidableEq ι] [Fintype ι] in
theorem InFlight.congr {v : α} {a i : ℕ} (h : InFlight u s v a i) (hb : SameBelow s s')
    (hoff : s'.offered u = s.offered u) (hst : s.storage < s.next) : InFlight u s' v a i := by
  have ha : a < s.next := h.storage ▸ hst
  refine ⟨by rw [hb.storage, h.storage], by rw [hb.state _ _ ha, h.empty], ?_⟩
  rw [hb.ledger _ ha, h.entry]
  unfold ticket
  rw [hoff]

omit [DecidableEq ι] [Fintype ι] in
theorem Visiting.congr {v : Visit α} (h : Visiting s v) (hb : SameBelow s s') : Visiting s' v :=
  ⟨by rw [hb.storage, h.slots], h.head, h.lt, by rw [hb.tail]; exact h.le⟩

omit [DecidableEq ι] [Fintype ι] in
theorem Written.congr {a i : ℕ} (h : Written s a i) (hb : SameBelow s s')
    (hst : s.storage < s.next) : Written s' a i :=
  ⟨by rw [hb.storage, h.storage], by rw [hb.tail]; exact h.lt,
    by rw [hb.state _ _ (h.storage ▸ hst)]; exact h.state⟩

omit [DecidableEq ι] [Fintype ι] in
/-- The capacity is the one of the array's storage, so it is the same. -/
theorem SameBelow.capacity (hb : SameBelow s s') (hst : s.storage < s.next) :
    s'.capacity = s.capacity := by
  unfold Store.capacity
  rw [hb.storage, hb.cap _ hst]

omit [DecidableEq ι] [Fintype ι] in
theorem Settled.congr (h : Settled s) (hb : SameBelow s s') (hst : s.storage < s.next) :
    Settled s' where
  headGen := by rw [hb.headGen, hb.storage, h.headGen]
  tailGen := by rw [hb.tailGen, hb.storage, h.tailGen]
  lenGen := by rw [hb.lenGen, hb.storage, h.lenGen]
  head := by rw [hb.head, h.head]
  length := by rw [hb.storage, hb.ledger _ hst, hb.tail, h.length]
  tail_le := by rw [hb.tail, hb.capacity hst]; exact h.tail_le
  empty := fun i hi ↦ by
    rw [hb.storage, hb.state _ _ hst]
    exact h.empty i (hb.tail ▸ hi)
  content := fun i r hr hw ↦ by
    rw [hb.storage] at hr hw ⊢
    rw [hb.ledger _ hst] at hr
    rw [hb.state _ _ hst] at hw
    rw [hb.value _ _ hst]
    exact h.content i r hr hw

omit [DecidableEq ι] [Fintype ι] in
/-- What a thread relies on does not depend on storages that were not allocated. -/
theorem Pc.Holds.congr {q : Pc ι α} (h : q.Holds u s) (hb : SameBelow s s')
    (hoff : s'.offered u = s.offered u) (hask : s'.asked u = s.asked u)
    (hst : s.storage < s.next) (hn : q.Known s.next) : q.Holds u s' := by
  cases q with
  | coord p k =>
    cases k with
    | attempt r | inspect r | retry r | unwind r => exact Full.congr h hb hask hn
    | commit r old =>
      intro hp
      obtain ⟨h₁, h₂, h₃, h₄⟩ := h hp
      exact ⟨h₁.congr hb hask hn, by rw [hb.storage, h₂], by rw [hb.tail, h₃], by rw [hb.len, h₄]⟩
    | finish r =>
      cases r with
      | full v =>
        intro hp
        rw [hb.tail, hb.capacity hst]
        exact h hp
      | pushed =>
        intro hp
        obtain ⟨i, r, hr, hk, hw⟩ := h hp
        refine ⟨i, r, ?_, ?_, ?_⟩
        · rw [hb.storage, hb.ledger _ hst, hr]
        · rw [hk]
          unfold ticket
          rw [hoff]
        · rw [hb.storage, hb.state _ _ hst, hw]
      | _ => trivial
    | _ => trivial
  | pushCas slow v tail =>
    show tail < s'.capacity
    rw [hb.capacity hst]
    exact h
  | pushWrite v a i => exact InFlight.congr h hb hoff hst
  | pushLen v a i | pushState v a i =>
    refine ⟨h.1.congr hb hoff hst, ?_⟩
    rw [hb.value _ _ (h.1.storage ▸ hst)]
    exact h.2
  | loadHead j len =>
    refine ⟨?_, h.2⟩
    rw [hb.tail]
    exact h.1
  | waitWrite v => exact Visiting.congr h hb
  | lock p v | access v | unlock p v =>
    refine ⟨h.1.congr hb, ?_⟩
    rw [hb.state _ _ (h.1.slots ▸ hst)]
    exact h.2
  | dropSlot p g => exact Written.congr h hb hst
  | resetTry r | resetShared r | inspect r i | resetStorage r => exact Full.congr h hb hask hn
  | resetHead r old => exact ⟨h.1.congr hb hask hn, by rw [hb.storage, h.2]⟩
  | resetTail r old =>
    obtain ⟨h₁, h₂, h₃, h₄⟩ := h
    exact ⟨h₁.congr hb hask hn, by rw [hb.storage, h₂], by rw [hb.head, h₃], by rw [hb.headGen, h₄]⟩
  | resetLen r old =>
    obtain ⟨h₁, h₂, h₃, h₄, h₅, h₆⟩ := h
    exact ⟨h₁.congr hb hask hn, by rw [hb.storage, h₂], by rw [hb.head, h₃], by rw [hb.headGen, h₄],
      by rw [hb.tail, h₅], by rw [hb.tailGen, h₆]⟩
  | _ => trivial

end Below

/-! ### The step rules

One rule for each way in which a step can change the data: not at all, one slot of the array's
storage, the counter `tail` together with the ledger, the counter `len`, and the exchanges of a
reset. -/

section Rules

variable {c : Config ι (Store ι α) (Pc ι α)} {t : ι} {s' : Store ι α}
  {o : Outcome (Pc ι α) (Ret ι α)}

variable (c t s' o) in
/-- How the pending reservations move with the thread that moves. -/
theorem uncounted_put :
    uncounted (c.put t (s', o)) + (c.pcs t).elim 0 Pc.uncounted =
      uncounted c + o.pc.elim 0 Pc.uncounted := by
  unfold uncounted
  rw [Config.comp_put_pcs (fun q ↦ q.elim 0 Pc.uncounted) c t (s', o)]
  exact tally_update (fun u ↦ (c.pcs u).elim 0 Pc.uncounted) t _

omit [Fintype ι] in
/-- A step of a thread that is in no exchange before or after it changes nothing about calmness. -/
theorem Calm.put_iff (hp : ∀ p, c.pcs t = some p → p.exchanging = false)
    (ho : ∀ q, o.pc = some q → q.exchanging = false) : Calm (c.put t (s', o)) ↔ Calm c := by
  constructor
  · intro h u q hq
    by_cases hut : u = t
    · subst hut
      exact hp q hq
    · exact h u q (by rwa [Config.put_pcs_of_ne _ _ hut])
  · intro h u q hq
    by_cases hut : u = t
    · subst hut
      exact ho q (by simpa using hq)
    · exact h u q (by rwa [Config.put_pcs_of_ne _ _ hut] at hq)

omit [Fintype ι] in
/-- The flights of the others are untouched, and the flight of `t` is `x`. -/
theorem flight_put {x : Option ℕ} (hx : o.pc.bind Pc.flight = x) (u : ι) :
    ((c.put t (s', o)).pcs u).bind Pc.flight =
      if u = t then x else (c.pcs u).bind Pc.flight := by
  split_ifs with hut
  · subst hut
    rw [Config.put_pcs_self, hx]
  · rw [Config.put_pcs_of_ne _ _ hut]

/-- **A step that touches no slot and no counter**: the thread goes on to a program point whose
assertion it establishes. -/
theorem Books.same (h : Books c) (hb : SameBelow c.shared s')
    (hst : c.shared.storage < c.shared.next)
    (hknown : ∀ u q, c.pcs u = some q → q.Known c.shared.next)
    (hoff : ∀ u, u ≠ t → s'.offered u = c.shared.offered u)
    (hask : ∀ u, u ≠ t → s'.asked u = c.shared.asked u)
    (hp : ∀ p, c.pcs t = some p → p.exchanging = false)
    (ho : ∀ q, o.pc = some q → q.exchanging = false ∧ q.Holds t s')
    (hflight : o.pc.bind Pc.flight = (c.pcs t).bind Pc.flight)
    (huncounted : o.pc.elim 0 Pc.uncounted = (c.pcs t).elim 0 Pc.uncounted)
    (hguards : ∀ u, ∀ g ∈ s'.guards u, Written c.shared g.storage g.index)
    (hdef : s'.undefined = c.shared.undefined) : Books (c.put t (s', o)) := by
  have hcalm : Calm (c.put t (s', o)) ↔ Calm c := Calm.put_iff hp fun q hq ↦ (ho q hq).1
  have hcount : uncounted (c.put t (s', o)) = uncounted c := by
    have := uncounted_put c t s' o
    omega
  have hfl : ∀ u, ((c.put t (s', o)).pcs u).bind Pc.flight = (c.pcs u).bind Pc.flight := by
    intro u
    rw [flight_put hflight]
    split_ifs with hut
    · rw [hut]
    · rfl
  refine ⟨fun hc ↦ ?_, fun hc ↦ ?_, fun hc i hi he ↦ ?_, fun u q hq ↦ ?_, fun u v i huv ↦ ?_,
    fun u g hg ↦ ?_, hdef.trans h.defined⟩
  · exact (h.settled (hcalm.1 hc)).congr hb hst
  · rw [hcount]
    show s'.len + _ = s'.tail
    rw [hb.len, hb.tail]
    exact h.count (hcalm.1 hc)
  · have hi' : i < c.shared.tail := hb.tail ▸ hi
    have he' : (c.shared.slot c.shared.storage i).state = .empty := by
      rw [← hb.state _ _ hst, ← hb.storage]
      exact he
    obtain ⟨u, hu⟩ := h.flying (hcalm.1 hc) i hi' he'
    exact ⟨u, (hfl u).trans hu⟩
  · by_cases hut : u = t
    · subst hut
      exact (ho q (by simpa using hq)).2
    · rw [Config.put_pcs_of_ne _ _ hut] at hq
      exact (h.holds u q hq).congr hb (hoff u hut) (hask u hut) hst (hknown u q hq)
  · rw [hfl, hfl]
    exact h.apart u v i huv
  · exact (hguards u g hg).congr hb hst

end Rules

/-! ### Steps inside a shared section

A push that writes its slot changes one slot of the array's storage, and everything else grows or
stays. That nobody is in the middle of an exchange follows from the shared section the thread is in.
-/

/-- One slot `j` of the current generation is reserved, filled, published or stored to, or `len` is
moved: every other slot is as it was, `tail` does not fall, and nothing written is unwritten. -/
structure Grows (j : ℕ) (s s' : Store ι α) : Prop where
  storage : s'.storage = s.storage
  head : s'.head = s.head
  gens : s'.headGen = s.headGen ∧ s'.tailGen = s.tailGen ∧ s'.lenGen = s.lenGen
  cap : ∀ a, (s'.heap a).capacity = (s.heap a).capacity
  value : ∀ a i, a ≠ s.storage ∨ i ≠ j → (s'.slot a i).value = (s.slot a i).value
  state : ∀ a i, a ≠ s.storage ∨ i ≠ j → (s'.slot a i).state = (s.slot a i).state
  ledger : ∀ a, a ≠ s.storage → s'.ledger a = s.ledger a
  entry : ∀ i : ℕ, i ≠ j → i < s.tail → (s'.ledger s.storage)[i]? = (s.ledger s.storage)[i]?
  kept : ∀ (i : ℕ) r, (s.ledger s.storage)[i]? = some r →
    ∃ r', (s'.ledger s.storage)[i]? = some r' ∧ r'.pusher = r.pusher
  tail_le : s.tail ≤ s'.tail
  bound : s'.tail ≤ s.capacity
  written : (s.slot s.storage j).state = .write → (s'.slot s.storage j).state = .write
  offered : s'.offered = s.offered
  asked : s'.asked = s.asked
  guards : s'.guards = s.guards
  undefined : s'.undefined = s.undefined

namespace Grows

variable {j : ℕ} {s s' : Store ι α} {u : ι}

omit [DecidableEq ι] [Fintype ι] in
/-- A write of one slot leaves the capacity alone. -/
theorem capacity (hg : Grows j s s') : s'.capacity = s.capacity := by
  unfold Store.capacity
  rw [hg.storage, hg.cap]

omit [DecidableEq ι] [Fintype ι] in
/-- What is written stays written. -/
theorem stays (hg : Grows j s s') {i : ℕ} (h : (s.slot s.storage i).state = .write) :
    (s'.slot s.storage i).state = .write := by
  by_cases hi : i = j
  · subst hi
    exact hg.written h
  · rw [hg.state _ _ (Or.inr hi)]
    exact h

omit [DecidableEq ι] [Fintype ι] in
/-- A write of one slot of the array leaves the replacements alone. -/
theorem full (hg : Grows j s s') {r : Reset} (h : Full u s r) (hr : r.fresh ≠ s.storage) :
    Full u s' r where
  asked := by rw [hg.asked, h.asked]
  enough := by rw [hg.asked]; exact h.enough
  cap := by rw [hg.cap, h.cap]
  ledger := by rw [hg.ledger _ hr, hg.asked, h.ledger]
  written := fun i hi ↦ by
    rw [hg.state _ _ (Or.inl hr), hg.value _ _ (Or.inl hr), hg.asked]
    exact h.written i hi
  empty := fun i hi ↦ by rw [hg.state _ _ (Or.inl hr)]; exact h.empty i hi

omit [DecidableEq ι] [Fintype ι] in
/-- A write of one slot leaves the pushes into the other slots in flight. -/
theorem inFlight (hg : Grows j s s') {v : α} {a i : ℕ} (h : InFlight u s v a i) (hi : i ≠ j)
    (hlen : (s.ledger s.storage).length = s.tail) : InFlight u s' v a i := by
  obtain ⟨rfl, hempty, hentry⟩ := h
  have hlt : i < s.tail := hlen ▸ (List.getElem?_eq_some_iff.1 hentry).1
  refine ⟨hg.storage.symm, by rw [hg.state _ _ (Or.inr hi), hempty], ?_⟩
  rw [hg.entry i hi hlt, hentry]
  unfold ticket
  rw [hg.offered]

omit [DecidableEq ι] [Fintype ι] in
/-- A write of a slot leaves the visits in bounds. -/
theorem visiting (hg : Grows j s s') {v : Visit α} (h : Visiting s v) : Visiting s' v :=
  ⟨by rw [hg.storage, h.slots], h.head, h.lt, h.le.trans hg.tail_le⟩

omit [DecidableEq ι] [Fintype ι] in
/-- A write of a slot leaves the written slots written. -/
theorem written_mono (hg : Grows j s s') {a i : ℕ} (h : Written s a i) : Written s' a i := by
  obtain ⟨rfl, hlt, hw⟩ := h
  exact ⟨hg.storage.symm, lt_of_lt_of_le hlt hg.tail_le, hg.stays hw⟩

omit [DecidableEq ι] [Fintype ι] in
/-- **A step in a shared section does not disturb the other threads**: neither the pushes in flight
at other slots, nor those who wait for or look at slots, nor the private replacements. -/
theorem holds (hg : Grows j s s') {q : Pc ι α} (h : q.Holds u s)
    (hlen : (s.ledger s.storage).length = s.tail) (hfl : q.flight ≠ some j)
    (hown : ∀ a, q.own = some a → a ≠ s.storage) (hseal : q.sealed = 0) : q.Holds u s' := by
  have hne : ∀ {i}, q.flight = some i → i ≠ j := by
    rintro i hi rfl
    exact hfl hi
  cases q with
  | coord p k =>
    cases k with
    | attempt r | inspect r | retry r | unwind r => exact hg.full h (hown _ rfl)
    | commit r old =>
      intro hp
      have : (RawMutex.phase p).seals = 0 := hseal
      rw [hp] at this
      cases this
    | finish r =>
      cases r with
      | full v =>
        intro hp
        have h₁ : s.tail = s.capacity := h hp
        have h₂ := hg.tail_le
        have h₃ := hg.bound
        rw [hg.capacity]
        omega
      | pushed =>
        intro hp
        obtain ⟨i, r, hr, hk, hw⟩ := h hp
        obtain ⟨r', hr', hk'⟩ := hg.kept i r hr
        refine ⟨i, r', by rw [hg.storage]; exact hr', ?_, by rw [hg.storage]; exact hg.stays hw⟩
        rw [hk', hk]
        unfold ticket
        rw [hg.offered]
      | _ => trivial
    | _ => trivial
  | pushCas slow v tail =>
    show tail < s'.capacity
    rw [hg.capacity]
    exact h
  | pushWrite v a i => exact hg.inFlight h (hne rfl) hlen
  | pushLen v a i | pushState v a i =>
    refine ⟨hg.inFlight h.1 (hne rfl) hlen, ?_⟩
    rw [hg.value _ _ (Or.inr (hne rfl))]
    exact h.2
  | loadHead k len => exact ⟨h.1.trans hg.tail_le, h.2⟩
  | waitWrite v => exact hg.visiting h
  | lock p v | access v | unlock p v =>
    obtain ⟨hv, hw⟩ := h
    refine ⟨hg.visiting hv, ?_⟩
    rw [hv.slots] at hw ⊢
    exact hg.stays hw
  | dropSlot p g => exact hg.written_mono h
  | resetTry r | resetShared r | inspect r i | resetStorage r => exact hg.full h (hown _ rfl)
  | resetHead | resetTail | resetLen => cases hseal
  | _ => trivial

omit [DecidableEq ι] [Fintype ι] in
/-- The counters and the slots still belong together if `tail` did not move and slot `j` holds what
its entry says. -/
theorem settled (hg : Grows j s s') (h : Settled s) (hj : j < s.tail) (htail : s'.tail = s.tail)
    (hlen : (s'.ledger s.storage).length = (s.ledger s.storage).length)
    (hcontent : ∀ r, (s'.ledger s.storage)[j]? = some r → (s'.slot s.storage j).state = .write →
      (s'.slot s.storage j).value = some r.content) : Settled s' where
  headGen := by rw [hg.gens.1, hg.storage, h.headGen]
  tailGen := by rw [hg.gens.2.1, hg.storage, h.tailGen]
  lenGen := by rw [hg.gens.2.2, hg.storage, h.lenGen]
  head := by rw [hg.head, h.head]
  length := by rw [hg.storage, hlen, htail, h.length]
  tail_le := by rw [hg.capacity]; exact hg.bound
  empty := fun i hi ↦ by
    rw [hg.storage, hg.state _ _ (Or.inr (by omega))]
    exact h.empty i (htail ▸ hi)
  content := fun i r hr hw ↦ by
    rw [hg.storage] at hr hw ⊢
    by_cases hi : i = j
    · subst hi
      exact hcontent r hr hw
    · have hlt : i < s.tail := by
        rw [← h.length, ← hlen]
        exact (List.getElem?_eq_some_iff.1 hr).1
      rw [hg.entry i hi hlt] at hr
      rw [hg.state _ _ (Or.inr hi)] at hw
      rw [hg.value _ _ (Or.inr hi)]
      exact h.content i r hr hw

end Grows

omit [Fintype ι] [DecidableEq ι] in
/-- No store into a slot changes a capacity. -/
@[simp] theorem cap_setSlot (s : Store ι α) (a i : ℕ) (x : Slot ι α) (b : ℕ) :
    ((s.setSlot a i x).heap b).capacity = (s.heap b).capacity := by
  unfold Store.setSlot
  by_cases hb : b = a
  · subst hb
    simp
  · simp [hb]

omit [DecidableEq ι] [Fintype ι] in
/-- A slot `i` of the current generation is stored, with the ledger as it was. -/
theorem grows_setSlot {s : Store ι α} {i : ℕ} {x : Slot ι α} (hle : s.tail ≤ s.capacity)
    (hw : (s.slot s.storage i).state = .write → x.state = .write) :
    Grows i s (s.setSlot s.storage i x) := by
  refine ⟨rfl, rfl, ⟨rfl, rfl, rfl⟩, fun b ↦ cap_setSlot .., fun b k hbk ↦ ?_, fun b k hbk ↦ ?_,
    fun _ _ ↦ rfl, fun _ _ _ ↦ rfl, fun k r hr ↦ ⟨r, hr, rfl⟩, le_rfl, hle, fun h ↦ ?_,
    rfl, rfl, rfl,
    rfl⟩
  · rw [slot_setSlot, if_neg (by tauto)]
  · rw [slot_setSlot, if_neg (by tauto)]
  · rw [slot_setSlot_self]
    exact hw h

section Section

variable {c : Config ι (Store ι α) (Pc ι α)} {t : ι} {s' : Store ι α}
  {o : Outcome (Pc ι α) (Ret ι α)} {j : ℕ}

/-- **A step at slot `j` inside a shared section.** -/
theorem Books.grow (h : Books c) (hcalm : Calm c) (hg : Grows j c.shared s')
    (howns : ∀ u p a, c.pcs u = some p → p.own = some a → a ≠ c.shared.storage)
    (hseal : ∀ u p, c.pcs u = some p → p.sealed = 0)
    (hj : ∀ u, u ≠ t → (c.pcs u).bind Pc.flight ≠ some j)
    (hold : ∀ i, (c.pcs t).bind Pc.flight = some i → i = j)
    (hnew : ∀ i, o.pc.bind Pc.flight = some i → i = j)
    (hself : (s'.slot c.shared.storage j).state = .empty → j < s'.tail →
      o.pc.bind Pc.flight = some j)
    (htail : ∀ i, i < s'.tail → i ≠ j → i < c.shared.tail) (hset : Settled s')
    (hcount : s'.len + (uncounted c + o.pc.elim 0 Pc.uncounted) =
      s'.tail + (c.pcs t).elim 0 Pc.uncounted)
    (hholds : ∀ q, o.pc = some q → q.Holds t s') : Books (c.put t (s', o)) := by
  have hput : ∀ u, ((c.put t (s', o)).pcs u).bind Pc.flight =
      if u = t then o.pc.bind Pc.flight else (c.pcs u).bind Pc.flight := fun u ↦ flight_put rfl u
  have hlen := (h.settled hcalm).length
  refine ⟨fun _ ↦ hset, fun _ ↦ ?_, fun _ i hi he ↦ ?_, fun u p hp ↦ ?_, fun u v i huv ↦ ?_,
    fun u g hgd ↦ ?_, hg.undefined.trans h.defined⟩
  · have := uncounted_put c t s' o
    show s'.len + _ = s'.tail
    omega
  · by_cases hij : i = j
    · subst hij
      refine ⟨t, ?_⟩
      rw [hput, if_pos rfl]
      exact hself (hg.storage ▸ he) hi
    · have he' : (c.shared.slot c.shared.storage i).state = .empty := by
        rw [← hg.state _ _ (Or.inr hij), ← hg.storage]
        exact he
      obtain ⟨u, hu⟩ := h.flying hcalm i (htail i hi hij) he'
      refine ⟨u, ?_⟩
      rw [hput, if_neg]
      · exact hu
      · rintro rfl
        exact hij (hold i hu)
  · by_cases hut : u = t
    · subst hut
      exact hholds p (by simpa using hp)
    · rw [Config.put_pcs_of_ne _ _ hut] at hp
      refine hg.holds (h.holds u p hp) hlen ?_ (howns u p · hp) (hseal u p hp)
      have := hj u hut
      rwa [hp] at this
  · rw [hput, hput]
    split_ifs with hu hv hv
    · exact absurd (hu.trans hv.symm) huv
    · intro hqi
      rw [hnew i hqi]
      exact hj v hv
    · intro hui hqi
      rw [hnew i hqi] at hui
      exact hj u hu hui
    · exact h.apart u v i huv
  · rw [Config.put_shared, hg.guards] at hgd
    exact hg.written_mono (h.guards u g hgd)

variable {ids : SerialMutex.OwnerIds ι}

/-- **A shared acquisition keeps resets out**: nobody is in an exclusive section, so the counters
and the storage belong together. -/
theorem Locks.calm (h : Locks ids c) (ht : 0 < c.shared.coordLock.shared t) :
    (∀ u p, c.pcs u = some p → p.sealed = 0) ∧ Calm c := by
  have hseal : ∀ u p, c.pcs u = some p → p.sealed = 0 := by
    intro u p hp
    have hle := le_tally c.shared.coordLock.shared t
    have hx : c.shared.coordLock.exclusive u = p.sealed := by
      rw [(h.mine u).exclusive, hp]
      rfl
    have hxle := le_tally c.shared.coordLock.exclusive u
    rcases h.sound.accounts with hacc | hacc
    · omega
    · omega
  refine ⟨hseal, fun u p hp ↦ ?_⟩
  have := hseal u p hp
  cases p <;> first | rfl | cases this

/-- A call in a shared section. -/
theorem Locks.calm_of_pinned (h : Locks ids c) {p : Pc ι α} (hpc : c.pcs t = some p)
    (hp : p.pinned = 1) : (∀ u p, c.pcs u = some p → p.sealed = 0) ∧ Calm c := by
  refine h.calm (t := t) ?_
  rw [(h.mine t).shared, hpc]
  show 0 < (c.shared.guards t).length + p.pinned
  omega

/-- A thread with a returned guard. -/
theorem Locks.calm_of_guard (h : Locks ids c) {g : Guard ι} (hg : g ∈ c.shared.guards t) :
    (∀ u p, c.pcs u = some p → p.sealed = 0) ∧ Calm c := by
  refine h.calm (t := t) ?_
  rw [(h.mine t).shared]
  have := List.length_pos_of_mem hg
  omega

omit [DecidableEq ι] [Fintype ι] in
/-- The storage of a reset is not the array's. -/
theorem Owns.ne_storage (h : Owns c) (u : ι) (p : Pc ι α) (a : ℕ) (hp : c.pcs u = some p)
    (ha : p.own = some a) : a ≠ c.shared.storage :=
  (h.mine u p a hp ha).2.1

omit [Fintype ι] in
/-- A reservation. -/
theorem grows_reserve {s : Store ι α} (v : α) (gens : List ℕ)
    (hlen : (s.ledger s.storage).length = s.tail) (hlt : s.tail < s.capacity) :
    Grows s.tail s ((s.use t gens).reserve t v (s.tail + 1)) := by
  have hl : ((s.use t gens).reserve t v (s.tail + 1)).ledger s.storage =
      s.ledger s.storage ++ [⟨some (ticket s t), v, []⟩] := by
    show Function.update s.ledger s.storage _ s.storage = _
    rw [Function.update_self]
    rfl
  refine ⟨rfl, rfl, ⟨rfl, rfl, rfl⟩, fun _ ↦ rfl, fun _ _ _ ↦ rfl, fun _ _ _ ↦ rfl,
    fun a ha ↦ Function.update_of_ne ha _ _,
    fun i hi hlt ↦ ?_, fun i r hr ↦ ⟨r, ?_, rfl⟩, Nat.le_succ _, hlt, id, rfl, rfl, rfl, rfl⟩
  · rw [hl, List.getElem?_append_left (hlen ▸ hlt)]
  · rw [hl, List.getElem?_append_left (List.getElem?_eq_some_iff.1 hr).1]
    exact hr

omit [DecidableEq ι] in
/-- A push in flight has an entry in the ledger and an unpublished slot. -/
theorem Books.of_flight (h : Books c) {i : ℕ} (hfl : (c.pcs t).bind Pc.flight = some i) :
    (c.shared.slot c.shared.storage i).state = .empty ∧
      ∃ r, (c.shared.ledger c.shared.storage)[i]? = some r ∧
        r.pusher = some (ticket c.shared t) := by
  obtain ⟨p, hp, hpf⟩ := Option.bind_eq_some_iff.1 hfl
  have hholds := h.holds t p hp
  cases p <;> simp only [Pc.flight, reduceCtorEq, Option.some.injEq] at hpf
  · subst hpf
    exact ⟨hholds.storage ▸ hholds.empty, _, hholds.storage ▸ hholds.entry, rfl⟩
  · subst hpf
    exact ⟨hholds.1.storage ▸ hholds.1.empty, _, hholds.1.storage ▸ hholds.1.entry, rfl⟩
  · subst hpf
    exact ⟨hholds.1.storage ▸ hholds.1.empty, _, hholds.1.storage ▸ hholds.1.entry, rfl⟩

/-- **A slot is reserved**: the exchange of `tail` succeeded. -/
theorem Books.reserve {slow : Bool} {v : α} (h : Books c) (hl : Locks ids c) (how : Owns c)
    (hpc : c.pcs t = some (.pushCas slow v c.shared.tail)) (gens : List ℕ) :
    Books (c.put (R := Ret ι α) t ((c.shared.use t gens).reserve t v (c.shared.tail + 1),
      .goto (.pushWrite v c.shared.storage c.shared.tail))) := by
  obtain ⟨hseal, hcalm⟩ := hl.calm_of_pinned hpc rfl
  have hset := h.settled hcalm
  have hlt : c.shared.tail < c.shared.capacity := h.holds t _ hpc
  have hled : ((c.shared.use t gens).reserve t v (c.shared.tail + 1)).ledger c.shared.storage =
      c.shared.ledger c.shared.storage ++ [⟨some (ticket c.shared t), v, []⟩] := by
    show Function.update c.shared.ledger c.shared.storage _ c.shared.storage = _
    rw [Function.update_self]
    rfl
  refine h.grow hcalm (grows_reserve v gens hset.length hlt) how.ne_storage hseal
    (fun u hu hfl ↦ ?_) ?_ ?_ (fun _ _ ↦ rfl) ?_ ?_ ?_ ?_
  · -- a push in flight elsewhere has an entry, and there is none at `tail` yet
    obtain ⟨-, r, hr, -⟩ := h.of_flight hfl
    have := (List.getElem?_eq_some_iff.1 hr).1
    rw [hset.length] at this
    exact absurd this (Nat.lt_irrefl _)
  · rw [hpc]
    simp [Pc.flight]
  · simp [Pc.flight]
  · intro i hi hne
    have : i < c.shared.tail + 1 := hi
    omega
  · refine ⟨hset.headGen, hset.tailGen, hset.lenGen, hset.head, ?_, hlt, fun i hi ↦ ?_,
      fun i r hr hw ↦ ?_⟩
    · show (Store.ledger _ c.shared.storage).length = c.shared.tail + 1
      rw [hled, List.length_append, hset.length]
      rfl
    · exact hset.empty i (Nat.le_of_succ_le hi)
    · have hr' : (Store.ledger ((c.shared.use t gens).reserve t v (c.shared.tail + 1))
          c.shared.storage)[i]? = some r := hr
      rw [hled] at hr'
      by_cases hi : i < c.shared.tail
      · rw [List.getElem?_append_left (by rw [hset.length]; exact hi)] at hr'
        exact hset.content i r hr' hw
      · exact absurd ((hset.empty i (Nat.not_lt.1 hi)).symm.trans hw) (by simp)
  · rw [hpc]
    have := h.count hcalm
    simp only [Outcome.pc_goto, Option.elim_some, Pc.uncounted]
    show c.shared.len + _ = c.shared.tail + 1 + 0
    omega
  · rintro _ ⟨⟩
    refine ⟨rfl, hset.empty _ le_rfl, ?_⟩
    show (Store.ledger _ c.shared.storage)[c.shared.tail]? = _
    rw [hled, List.getElem?_append_right hset.length.le, hset.length, Nat.sub_self]
    rfl

/-- **The value is written** into the reserved slot. -/
theorem Books.write {v : α} {a i : ℕ} (h : Books c) (hl : Locks ids c) (how : Owns c)
    (hpc : c.pcs t = some (.pushWrite v a i)) :
    Books (c.put (R := Ret ι α) t
      (c.shared.setSlot a i { c.shared.slot a i with value := some v },
        .goto (.pushLen v a i))) := by
  obtain ⟨hseal, hcalm⟩ := hl.calm_of_pinned hpc rfl
  have hset := h.settled hcalm
  have hfl : (c.pcs t).bind Pc.flight = some i := by
    rw [hpc]
    rfl
  obtain ⟨rfl, hempty, hentry⟩ : InFlight t c.shared v a i := h.holds t _ hpc
  have hlt : i < c.shared.tail := by
    rw [← hset.length]
    exact (List.getElem?_eq_some_iff.1 hentry).1
  have hg := grows_setSlot (i := i) (x := { c.shared.slot c.shared.storage i with value := some v })
    hset.tail_le id
  refine h.grow hcalm hg how.ne_storage hseal (fun u hu ↦ h.apart t u i hu.symm hfl) ?_ ?_
    (fun _ _ ↦ rfl) (fun _ hk _ ↦ hk) ?_ ?_ ?_
  · intro k hk
    exact Option.some.inj (hk.symm.trans hfl)
  · intro k hk
    exact (Option.some.inj hk).symm
  · refine hg.settled hset hlt rfl rfl fun r _ hw ↦ ?_
    rw [slot_setSlot_self] at hw
    exact absurd (hempty.symm.trans hw) (by simp)
  · rw [hpc]
    exact congrArg (· + 1) (h.count hcalm)
  · rintro _ ⟨⟩
    refine ⟨⟨rfl, ?_, hentry⟩, ?_⟩
    · rw [slot_setSlot_self]
      exact hempty
    · rw [slot_setSlot_self]

/-- **A reservation is counted.** -/
theorem Books.countLen {v : α} {a i : ℕ} (h : Books c) (hl : Locks ids c) (how : Owns c)
    (hpc : c.pcs t = some (.pushLen v a i)) (gens : List ℕ) :
    Books (c.put (R := Ret ι α) t ({ c.shared.use t gens with len := c.shared.len + 1 },
      .goto (.pushState v a i))) := by
  obtain ⟨hseal, hcalm⟩ := hl.calm_of_pinned hpc rfl
  have hset := h.settled hcalm
  have hfl : (c.pcs t).bind Pc.flight = some i := by
    rw [hpc]
    rfl
  obtain ⟨⟨rfl, hempty, hentry⟩, hvalue⟩ :
      InFlight t c.shared v a i ∧ (c.shared.slot a i).value = some v := h.holds t _ hpc
  have hlt : i < c.shared.tail := by
    rw [← hset.length]
    exact (List.getElem?_eq_some_iff.1 hentry).1
  have hg : Grows i c.shared { c.shared.use t gens with len := c.shared.len + 1 } :=
    ⟨rfl, rfl, ⟨rfl, rfl, rfl⟩, fun _ ↦ rfl, fun _ _ _ ↦ rfl, fun _ _ _ ↦ rfl, fun _ _ ↦ rfl,
      fun _ _ _ ↦ rfl, fun _ r hr ↦ ⟨r, hr, rfl⟩, le_rfl, hset.tail_le, id, rfl, rfl, rfl, rfl⟩
  refine h.grow hcalm hg how.ne_storage hseal (fun u hu ↦ h.apart t u i hu.symm hfl) ?_ ?_
    (fun _ _ ↦ rfl) (fun _ hk _ ↦ hk) ?_ ?_ ?_
  · intro k hk
    exact Option.some.inj (hk.symm.trans hfl)
  · intro k hk
    exact (Option.some.inj hk).symm
  · refine hg.settled hset hlt rfl rfl fun r hr hw ↦ ?_
    exact absurd (hempty.symm.trans hw) (by simp)
  · have := h.count hcalm
    rw [hpc]
    show c.shared.len + 1 + (uncounted c + 0) = c.shared.tail + 1
    omega
  · rintro _ ⟨⟩
    exact ⟨⟨rfl, hempty, hentry⟩, hvalue⟩

/-- **The slot is published.** -/
theorem Books.publish {v : α} {a i : ℕ} (h : Books c) (hl : Locks ids c) (how : Owns c)
    (hpc : c.pcs t = some (.pushState v a i)) :
    Books (c.put (R := Ret ι α) t
      (c.shared.setSlot a i { c.shared.slot a i with state := .write },
        .goto (leave .pushed))) := by
  obtain ⟨hseal, hcalm⟩ := hl.calm_of_pinned hpc rfl
  have hset := h.settled hcalm
  have hfl : (c.pcs t).bind Pc.flight = some i := by
    rw [hpc]
    rfl
  obtain ⟨⟨rfl, hempty, hentry⟩, hvalue⟩ :
      InFlight t c.shared v a i ∧ (c.shared.slot a i).value = some v := h.holds t _ hpc
  have hlt : i < c.shared.tail := by
    rw [← hset.length]
    exact (List.getElem?_eq_some_iff.1 hentry).1
  have hg := grows_setSlot (i := i)
    (x := { c.shared.slot c.shared.storage i with state := .write }) hset.tail_le fun _ ↦ rfl
  refine h.grow hcalm hg how.ne_storage hseal (fun u hu ↦ h.apart t u i hu.symm hfl) ?_ ?_ ?_
    (fun _ hk _ ↦ hk) ?_ ?_ ?_
  · intro k hk
    exact Option.some.inj (hk.symm.trans hfl)
  · intro k hk
    cases hk
  · intro he
    rw [slot_setSlot_self] at he
    cases he
  · refine hg.settled hset hlt rfl rfl fun r hr _ ↦ ?_
    rw [slot_setSlot_self]
    cases hentry.symm.trans hr
    exact hvalue
  · rw [hpc]
    exact h.count hcalm
  · rintro _ ⟨⟩ -
    exact ⟨i, _, hentry, rfl, congrArg Slot.state (slot_setSlot_self ..)⟩

omit [DecidableEq ι] [Fintype ι] in
/-- A value is stored into a published slot. -/
theorem grows_store {s : Store ι α} {i : ℕ} (v : α) (hle : s.tail ≤ s.capacity) :
    Grows i s (s.store s.storage i v) := by
  have hslot : ∀ b k, (s.store s.storage i v).slot b k =
      (s.setSlot s.storage i { s.slot s.storage i with value := some v }).slot b k := fun _ _ ↦ rfl
  have hled : (s.store s.storage i v).ledger s.storage =
      (s.ledger s.storage).modify i fun r ↦ { r with stores := r.stores ++ [v] } := by
    show Function.update s.ledger s.storage _ s.storage = _
    rw [Function.update_self]
  refine ⟨rfl, rfl, ⟨rfl, rfl, rfl⟩, fun b ↦ cap_setSlot .., fun b k hbk ↦ ?_, fun b k hbk ↦ ?_,
    fun b hb ↦ Function.update_of_ne hb _ _, fun k hk _ ↦ ?_, fun k r hr ↦ ?_, le_rfl, hle,
    fun h ↦ ?_, rfl, rfl, rfl, rfl⟩
  · rw [hslot, slot_setSlot, if_neg (by tauto)]
  · rw [hslot, slot_setSlot, if_neg (by tauto)]
  · rw [hled, List.getElem?_modify_ne _ _ hk.symm]
  · rw [hled, List.getElem?_modify, hr]
    split_ifs
    · exact ⟨_, rfl, rfl⟩
    · exact ⟨_, rfl, rfl⟩
  · rw [hslot, slot_setSlot_self]
    exact h

/-- **A value is stored through a write guard**, or by `for_each_mut`. -/
theorem Books.store {i : ℕ} (h : Books c) (how : Owns c) (hcalm : Calm c)
    (hseal : ∀ u p, c.pcs u = some p → p.sealed = 0)
    (hw : Written c.shared c.shared.storage i) (v : α)
    (hfl : (c.pcs t).bind Pc.flight = none) (hun : (c.pcs t).elim 0 Pc.uncounted = 0)
    (hofl : o.pc.bind Pc.flight = none) (houn : o.pc.elim 0 Pc.uncounted = 0)
    (ho : ∀ q, o.pc = some q → q.Holds t (c.shared.store c.shared.storage i v)) :
    Books (c.put t (c.shared.store c.shared.storage i v, o)) := by
  have hset := h.settled hcalm
  have hg := grows_store (i := i) v hset.tail_le
  have hslot : ((c.shared.store c.shared.storage i v).slot c.shared.storage i) =
      { c.shared.slot c.shared.storage i with value := some v } :=
    slot_setSlot_self ..
  have hled : (c.shared.store c.shared.storage i v).ledger c.shared.storage =
      (c.shared.ledger c.shared.storage).modify i fun r ↦ { r with stores := r.stores ++ [v] } := by
    show Function.update c.shared.ledger c.shared.storage _ c.shared.storage = _
    rw [Function.update_self]
  refine h.grow hcalm hg how.ne_storage hseal (fun u _ hu ↦ ?_) ?_ ?_ ?_ (fun _ hk _ ↦ hk) ?_ ?_ ho
  · exact absurd ((h.of_flight hu).1.symm.trans hw.state) (by simp)
  · intro k hk
    rw [hfl] at hk
    cases hk
  · intro k hk
    rw [hofl] at hk
    cases hk
  · intro he
    rw [hslot] at he
    exact absurd (he.symm.trans hw.state) (by simp)
  · refine hg.settled hset hw.lt rfl (by rw [hled, List.length_modify]) fun r hr _ ↦ ?_
    rw [hslot]
    rw [hled, List.getElem?_modify_eq] at hr
    obtain ⟨r', -, rfl⟩ := Option.map_eq_some_iff.1 hr
    simp [Reservation.content]
  · rw [hun, houn]
    exact h.count hcalm

end Section

/-! ### The exchange

Storage, head, tail and len are replaced by four accesses. Between them the books are not in order,
and `Calm` fails; the exclusive lock keeps every other thread out until they are. -/

section Exchange

variable {c : Config ι (Store ι α) (Pc ι α)} {t : ι} {s' : Store ι α}
  {ids : SerialMutex.OwnerIds ι}

omit [DecidableEq ι] [Fintype ι] in
theorem Full.of_eq {r : Reset} {s : Store ι α} (h : Full t s r) (hheap : s'.heap = s.heap)
    (hledger : s'.ledger = s.ledger) (hask : s'.asked = s.asked) : Full t s' r :=
  ⟨by rw [hask, h.asked], by rw [hask]; exact h.enough, by rw [hheap, h.cap],
    by rw [hledger, hask, h.ledger],
    fun i hi ↦ by unfold Store.slot; rw [hheap, hask]; exact h.written i hi,
    fun i hi ↦ by unfold Store.slot; rw [hheap]; exact h.empty i hi⟩

omit [DecidableEq ι] [Fintype ι] in
/-- What a thread outside all sections relies on has nothing to do with the counters. -/
theorem Pc.Holds.outside {u : ι} {s : Store ι α} {q : Pc ι α} (h : q.Holds u s)
    (hpin : q.pinned = 0) (hseal : q.sealed = 0) (hheap : s'.heap = s.heap)
    (hledger : s'.ledger = s.ledger) (hask : s'.asked = s.asked) : q.Holds u s' := by
  have hfull : ∀ {r}, Full u s r → Full u s' r := fun hf ↦ hf.of_eq hheap hledger hask
  cases q with
  | coord p k =>
    have hp₁ : (RawMutex.phase p).pins = 0 := hpin
    have hp₂ : (RawMutex.phase p).seals = 0 := hseal
    cases k with
    | attempt r | inspect r | retry r | unwind r => exact hfull h
    | commit r old =>
      intro hp
      rw [hp] at hp₂
      cases hp₂
    | finish r =>
      cases r with
      | full v | pushed =>
        intro hp
        rw [hp] at hp₁
        cases hp₁
      | _ => trivial
    | _ => trivial
  | resetTry r | resetShared r => exact hfull h
  | resetDrop => trivial
  | resetStorage | resetHead | resetTail | resetLen => cases hseal
  | _ => cases hpin

/-- **A step of the exchange**: the reset is alone, and while it goes on nothing is said about the
counters. -/
theorem Books.exchange {p : Pc ι α} {o : Outcome (Pc ι α) (Ret ι α)} (h : Books c)
    (hl : Locks ids c) (hpc : c.pcs t = some p) (hp : p.sealed = 1)
    (hheap : s'.heap = c.shared.heap) (hledger : s'.ledger = c.shared.ledger)
    (hask : s'.asked = c.shared.asked) (hguards : s'.guards = c.shared.guards)
    (hdef : s'.undefined = c.shared.undefined) (hofl : o.pc.bind Pc.flight = none)
    (hholds : ∀ q, o.pc = some q → q.Holds t s')
    (hset : Calm (c.put t (s', o)) → Settled s' ∧ s'.len = s'.tail ∧
      ∀ i, i < s'.tail → (s'.slot s'.storage i).state = .write)
    (houn : o.pc.elim 0 Pc.uncounted = 0) : Books (c.put t (s', o)) := by
  have hidle : ∀ u, u ≠ t → ∀ q, c.pcs u = some q → q.pinned = 0 ∧ q.sealed = 0 := fun u hu q hq ↦
    ⟨((hl.alone hpc hp u).2 q hq).1, ((hl.alone hpc hp u).2 q hq).2 hu⟩
  have hflight : ∀ u, ((c.put t (s', o)).pcs u).bind Pc.flight = none := by
    intro u
    rw [flight_put hofl]
    split_ifs with hut
    · rfl
    · cases hq : c.pcs u with
      | none => rfl
      | some q =>
        have := (hidle u hut q hq).1
        cases q <;> first | rfl | cases this
  have huncounted : uncounted (c.put t (s', o)) = 0 := by
    unfold uncounted
    rw [tally_eq_zero_iff]
    intro u
    by_cases hut : u = t
    · subst hut
      rw [Config.put_pcs_self]
      exact houn
    · rw [Config.put_pcs_of_ne _ _ hut]
      cases hq : c.pcs u with
      | none => rfl
      | some q =>
        have := (hidle u hut q hq).1
        cases q <;> first | rfl | cases this
  refine ⟨fun hc ↦ (hset hc).1, fun hc ↦ ?_, fun hc i hi he ↦ ?_, fun u q hq ↦ ?_,
    fun u v i _ hu ↦ ?_, fun u g hg ↦ ?_, hdef.trans h.defined⟩
  · rw [huncounted]
    exact (hset hc).2.1
  · exact absurd (he.symm.trans ((hset hc).2.2 i hi)) (by simp)
  · by_cases hut : u = t
    · subst hut
      exact hholds q (by simpa using hq)
    · rw [Config.put_pcs_of_ne _ _ hut] at hq
      exact (h.holds u q hq).outside (hidle u hut q hq).1 (hidle u hut q hq).2 hheap hledger hask
  · rw [hflight] at hu
    cases hu
  · rw [Config.put_shared, hguards, (hl.alone hpc hp u).1] at hg
    cases hg

omit [DecidableEq ι] [Fintype ι] in
/-- **The last exchange settles the new generation.** -/
theorem Full.settled {r : Reset} {s : Store ι α} (h : Full t s r) (hst : s.storage = r.fresh)
    (hhead : s.head = 0) (hhg : s.headGen = r.fresh) (htail : s.tail = r.newCap)
    (htg : s.tailGen = r.fresh) (hlg : s.lenGen = r.fresh) :
    Settled s ∧ ∀ i, i < s.tail → (s.slot s.storage i).state = .write := by
  have hlen : (s.ledger r.fresh).length = r.newCap := by
    rw [h.ledger, List.length_map, List.length_take]
    exact Nat.min_eq_left h.enough
  refine ⟨⟨hhg.trans hst.symm, htg.trans hst.symm, hlg.trans hst.symm, hhead, ?_, ?_, fun i hi ↦ ?_,
    fun i x hx _ ↦ ?_⟩, fun i hi ↦ ?_⟩
  · rw [hst, hlen, htail]
  · rw [htail, Store.capacity, hst, h.cap]
  · rw [hst]
    exact h.empty i (htail ▸ hi)
  · rw [hst] at hx ⊢
    have hi : i < r.newCap := hlen ▸ (List.getElem?_eq_some_iff.1 hx).1
    rw [(h.written i hi).2]
    rw [h.ledger, List.getElem?_map, List.getElem?_take_of_lt hi] at hx
    obtain ⟨y, hy, rfl⟩ := Option.map_eq_some_iff.1 hx
    rw [hy]
    rfl
  · rw [hst]
    exact (h.written i (htail ▸ hi)).1

end Exchange

/-! ### Runs

Every access of the code, sorted into the step rules. -/

section Runs

variable {c : Config ι (Store ι α) (Pc ι α)} {t : ι} {s' : Store ι α}
  {o : Outcome (Pc ι α) (Ret ι α)} {ids : SerialMutex.OwnerIds ι} {adaptive : ℕ}

/-- A program point that has no slot reserved and exchanges nothing. -/
def Pc.Plain (p : Pc ι α) : Prop := p.exchanging = false ∧ p.flight = none ∧ p.uncounted = 0

/-- **A step that only moves locks and locals.** -/
theorem Books.go {p : Pc ι α} (h : Books c) (hl : Locks ids c) (hpc : c.pcs t = some p)
    (hp : p.Plain) (hd : SameData c.shared s')
    (hguards : ∀ u, ∀ g ∈ s'.guards u, Written c.shared g.storage g.index)
    (ho : ∀ q, o.pc = some q → q.Plain ∧ q.Known c.shared.next ∧ q.Holds t c.shared) :
    Books (c.put t (s', o)) := by
  have hbind : ∀ {β : Type} (f : Pc ι α → β) (b : β), (∀ q, o.pc = some q → f q = b) →
      o.pc.elim b f = b := by
    intro β f b hf
    cases hq : o.pc with
    | none => rfl
    | some q => exact hf q hq
  refine h.same hd.below hl.sound.storage (fun u q hq ↦ (hl.mine u).known q hq)
    (fun u _ ↦ by rw [hd.offered]) (fun u _ ↦ by rw [hd.asked]) ?_ (fun q hq ↦ ?_) ?_ ?_ hguards
    hd.undefined
  · rintro q hq
    cases hpc.symm.trans hq
    exact hp.1
  · obtain ⟨hplain, hkn, hholds⟩ := ho q hq
    exact ⟨hplain.1, hholds.congr hd.below (by rw [hd.offered]) (by rw [hd.asked]) hl.sound.storage
      hkn⟩
  · rw [hpc]
    show _ = p.flight
    rw [hp.2.1]
    cases hq : o.pc with
    | none => rfl
    | some q => exact (ho q hq).1.2.1
  · rw [hpc]
    show _ = p.uncounted
    rw [hp.2.2]
    exact hbind _ _ fun q hq ↦ (ho q hq).1.2.2

/-- A step that leaves the data alone, between two points that are neither pushes nor resets, keeps
the books. -/
theorem Books.goto {p q : Pc ι α} (h : Books c) (hl : Locks ids c) (hpc : c.pcs t = some p)
    (hp : p.Plain) (hd : SameData c.shared s') (hguards : s'.guards = c.shared.guards)
    (hq : q.Plain) (hkn : q.Known c.shared.next) (hholds : q.Holds t c.shared) :
    Books (c.put (R := Ret ι α) t (s', .goto q)) := by
  refine h.go hl hpc hp hd (fun u g hg ↦ h.guards u g (hguards ▸ hg)) ?_
  rintro _ ⟨⟩
  exact ⟨hq, hkn, hholds⟩

omit [Fintype ι] [DecidableEq ι] in
/-- Only the release of a section ends what a continuation relies on. -/
theorem After.Holds.mono {k : After ι α} {s : Store ι α} {ph ph' : RawMutex.Phase}
    (h : k.Holds t s ph) (hph : ph' = ph ∨ ph' = .wake) : k.Holds t s ph' := by
  rcases hph with rfl | rfl
  · exact h
  · cases k with
    | commit r old =>
      intro hw
      cases hw
    | finish r =>
      cases r with
      | full v | pushed =>
        intro hw
        cases hw
      | _ => trivial
    | _ => exact h

omit [Fintype ι] [DecidableEq ι] in
theorem plain_coord (p : RawMutex.Pc) (k : After ι α) : (Pc.coord p k).Plain := ⟨rfl, rfl, rfl⟩

omit [Fintype ι] [DecidableEq ι] in
/-- What a call goes on with after an operation of the coordination lock. -/
theorem resume_holds {s : Store ι α} {k : After ι α} {ph : RawMutex.Phase} {n : ℕ}
    (h : k.Holds t s ph) (hn : k.Known n) (e : RawMutex.Ret) (l : RawMutex.Store ι) (q : Pc ι α)
    (hq : (resume { s with coordLock := l } k e).2.pc = some q) :
    q.Plain ∧ q.Known n ∧ q.Holds t s := by
  cases k with
  | push v | job j =>
    cases hq
    exact ⟨⟨rfl, rfl, rfl⟩, trivial, trivial⟩
  | attempt r =>
    cases e with
    | unit =>
      cases hq
      exact ⟨⟨rfl, rfl, rfl⟩, hn, h⟩
    | bool b => cases b <;> cases hq <;> exact ⟨⟨rfl, rfl, rfl⟩, hn, h⟩
  | inspect r =>
    cases hq
    unfold inspectNext
    split_ifs
    · exact ⟨⟨rfl, rfl, rfl⟩, hn, h⟩
    · exact ⟨⟨rfl, rfl, rfl⟩, hn, h⟩
  | retry r =>
    cases hq
    exact ⟨⟨rfl, rfl, rfl⟩, hn, h⟩
  | commit r old =>
    cases hq
    exact ⟨⟨rfl, rfl, rfl⟩, hn, trivial⟩
  | unwind r | finish r => cases hq

omit [Fintype ι] [DecidableEq ι] in
theorem plain_leave (r : Ret ι α) : (leave r).Plain := ⟨rfl, rfl, rfl⟩

omit [Fintype ι] [DecidableEq ι] in
/-- A push that finds the array full relies on that. -/
theorem pushCheck_holds {s : Store ι α} (slow : Bool) (v : α) (n : ℕ) (hle : s.tail ≤ s.capacity) :
    (pushCheck slow v s.tail s.capacity : Pc ι α).Plain ∧
      (pushCheck slow v s.tail s.capacity : Pc ι α).Known n ∧
      (pushCheck slow v s.tail s.capacity : Pc ι α).Holds t s := by
  unfold pushCheck
  split_ifs with hfull
  · exact ⟨plain_leave _, trivial, fun _ ↦ Nat.le_antisymm hle hfull⟩
  · exact ⟨⟨rfl, rfl, rfl⟩, trivial, Nat.not_le.1 hfull⟩

omit [Fintype ι] [DecidableEq ι] in
/-- A call that has loaded `len`. -/
theorem lenCheck_holds {s : Store ι α} (j : Job α) (len n : ℕ) (hle : len ≤ s.tail) :
    (lenCheck j len : Pc ι α).Plain ∧ (lenCheck j len : Pc ι α).Known n ∧
      (lenCheck j len : Pc ι α).Holds t s := by
  unfold lenCheck
  split
  · split_ifs with hi
    · exact ⟨plain_leave _, trivial, trivial⟩
    · exact ⟨⟨rfl, rfl, rfl⟩, trivial, hle, Nat.not_le.1 hi⟩
  · split_ifs with hi
    · exact ⟨plain_leave _, trivial, trivial⟩
    · exact ⟨⟨rfl, rfl, rfl⟩, trivial, hle, Nat.not_le.1 hi⟩
  · split_ifs with hi
    · exact ⟨plain_leave _, trivial, trivial⟩
    · exact ⟨⟨rfl, rfl, rfl⟩, trivial, hle, trivial⟩
  · rename_i h₁ h₂ _
    refine ⟨⟨rfl, rfl, rfl⟩, trivial, hle, ?_⟩
    cases j with
    | get index => exact absurd rfl (h₁ index)
    | getMut index => exact absurd rfl (h₂ index)
    | _ => trivial

omit [Fintype ι] [DecidableEq ι] in
/-- A call at its next slot. -/
theorem visitNext_holds {s : Store ι α} {n : ℕ} {v : Visit α} (capacity : ℕ)
    (hslots : v.slots = s.storage) (hhead : v.head = 0) (hle : v.len ≤ s.tail)
    (hn : s.storage < n) :
    (visitNext v capacity : Pc ι α).Plain ∧ (visitNext v capacity : Pc ι α).Known n ∧
      (visitNext v capacity : Pc ι α).Holds t s := by
  have hlt : v.slots < n := hslots ▸ hn
  unfold visitNext
  split <;> split_ifs with hi
  · exact ⟨⟨rfl, rfl, rfl⟩, hlt, hslots, hhead, hi.1, hle⟩
  · exact ⟨plain_leave _, trivial, trivial⟩
  · exact ⟨⟨rfl, rfl, rfl⟩, hlt, hslots, hhead, hi, hle⟩
  · exact ⟨plain_leave _, trivial, trivial⟩

omit [Fintype ι] [DecidableEq ι] in
/-- A call that has loaded `head` too. -/
theorem visitFirst_holds {s : Store ι α} {n len : ℕ} (j : Job α) (capacity : ℕ)
    (hhead : s.head = 0) (hle : len ≤ s.tail) (hj : j.Within len) (hn : s.storage < n) :
    (visitFirst j s.head len s.storage capacity : Pc ι α).Plain ∧
      (visitFirst j s.head len s.storage capacity : Pc ι α).Known n ∧
      (visitFirst j s.head len s.storage capacity : Pc ι α).Holds t s := by
  unfold visitFirst
  split
  · split_ifs
    · exact ⟨plain_leave _, trivial, trivial⟩
    · exact ⟨⟨rfl, rfl, rfl⟩, hn, rfl, hhead, hj, hle⟩
  · split_ifs
    · exact ⟨plain_leave _, trivial, trivial⟩
    · exact ⟨⟨rfl, rfl, rfl⟩, hn, rfl, hhead, hj, hle⟩
  · exact visitNext_holds _ rfl hhead hle hn

omit [Fintype ι] [DecidableEq ι] in
/-- A published slot below `tail` holds a value. -/
theorem Settled.value {s : Store ι α} (h : Settled s) {i : ℕ} (hi : i < s.tail)
    (hw : (s.slot s.storage i).state = .write) :
    ∃ r, (s.ledger s.storage)[i]? = some r ∧ (s.slot s.storage i).value = some r.content := by
  have hr := List.getElem?_eq_getElem (h.length ▸ hi : i < (s.ledger s.storage).length)
  exact ⟨_, hr, h.content i _ hr hw⟩

omit [Fintype ι] [DecidableEq ι] in
/-- The slot of a visit is below `tail`, so it has an entry in the ledger. -/
theorem Visiting.target_lt {s : Store ι α} {v : Visit α} (h : Visiting s v) :
    v.target < s.tail := by
  have h₁ := h.head
  have h₂ := h.lt
  have h₃ := h.le
  unfold Visit.target
  omega

/-- An element is cloned or shown to the closure. -/
theorem exec_books_access {ch : Choice ι} {v : Visit α} (h : Books c) (hl : Locks ids c)
    (how : Owns c) (hpc : c.pcs t = some (.access v))
    (he : exec ids adaptive t ch c.shared (.access v) = some (s', o)) :
    Books (c.put t (s', o)) := by
  obtain ⟨hseal, hcalm⟩ := hl.calm_of_pinned hpc rfl
  have hset := h.settled hcalm
  obtain ⟨hv, hw⟩ : Visiting c.shared v ∧ (c.shared.slot v.slots v.target).state = .write :=
    h.holds t _ hpc
  have hkn : v.slots < c.shared.next := (hl.mine t).known _ hpc
  rw [hv.slots] at hw
  obtain ⟨r, hr, hvalue⟩ := hset.value hv.target_lt hw
  simp only [exec, hv.slots, hvalue] at he
  cases he
  unfold shown
  split
  · rename_i f hjob
    rw [hv.slots]
    refine h.store how hcalm hseal ⟨rfl, hv.target_lt, hw⟩ _ (by rw [hpc]; rfl)
      (by rw [hpc]; rfl) rfl
      rfl ?_
    rintro _ ⟨⟩
    exact ⟨⟨rfl, hv.head, hv.lt, hv.le⟩, (grows_store _ hset.tail_le).stays hw⟩
  · exact h.goto hl hpc ⟨rfl, rfl, rfl⟩ (.refl _) rfl ⟨rfl, rfl, rfl⟩ hl.sound.storage
      ⟨⟨rfl, hv.head, hv.lt, hv.le⟩, hw⟩

/-- **Every access keeps the books.** -/
theorem exec_books {ch : Choice ι} {p : Pc ι α} (h : Books c) (hl : Locks ids c) (how : Owns c)
    (hpc : c.pcs t = some p) (he : exec ids adaptive t ch c.shared p = some (s', o)) :
    Books (c.put t (s', o)) := by
  have hholds := h.holds t p hpc
  have hkn : p.Known c.shared.next := (hl.mine t).known p hpc
  cases p with
  | coord p k =>
    have hexp : k.Expects (RawMutex.phase p) := (hl.mine t).phased _ hpc
    obtain ⟨l, ⟨p', hr, rfl, rfl⟩ | ⟨e, hr, heq⟩⟩ := coord_cases he
    · refine h.goto hl hpc (plain_coord p k) (.coord _ l) rfl (plain_coord p' k) hkn ?_
      obtain ⟨-, -, hph⟩ :=
        (RawMutex.exec_holds hexp.ne_other hr).of_goto ((hl.mine t).knows _ hpc)
      exact After.Holds.mono hholds (hph.imp_right And.right)
    · obtain ⟨rfl, rfl⟩ := Prod.mk.inj heq
      refine h.go hl hpc (plain_coord p k) ((SameData.coord _ l).trans (sameData_resume _ k e))
        (fun u g hg ↦ h.guards u g ?_) fun q hq ↦ resume_holds hholds hkn e l q hq
      have hsame := (sameLocks_resume { c.shared with coordLock := l } k e).guards
      exact (congrArg (g ∈ · u) hsame).mp hg
  | pushLoad slow v =>
    obtain ⟨-, hcalm⟩ := hl.calm_of_pinned hpc rfl
    cases he
    obtain ⟨h₁, h₂, h₃⟩ := pushCheck_holds (t := t) slow v c.shared.next (h.settled hcalm).tail_le
    exact h.goto hl hpc ⟨rfl, rfl, rfl⟩ (.use ..) rfl h₁ h₂ h₃
  | pushCas slow v tail =>
    obtain ⟨-, hcalm⟩ := hl.calm_of_pinned hpc rfl
    simp only [exec] at he
    split at he
    · rename_i w hw
      obtain ⟨rfl, rfl⟩ := cas_eq_ok.1 hw
      cases he
      exact h.reserve hl how hpc _
    · rename_i w hw
      obtain ⟨-, rfl⟩ := cas_eq_error.1 hw
      cases he
      cases slow with
      | false =>
        exact h.goto hl hpc ⟨rfl, rfl, rfl⟩ (.use ..) rfl ⟨rfl, rfl, rfl⟩ trivial trivial
      | true =>
        obtain ⟨h₁, h₂, h₃⟩ :=
          pushCheck_holds (t := t) true v c.shared.next (h.settled hcalm).tail_le
        exact h.goto hl hpc ⟨rfl, rfl, rfl⟩ (.use ..) rfl h₁ h₂ h₃
  | pushWrite v a i =>
    cases he
    exact h.write hl how hpc
  | pushLen v a i =>
    cases he
    exact h.countLen hl how hpc _
  | pushState v a i =>
    cases he
    exact h.publish hl how hpc
  | loadLen j =>
    obtain ⟨-, hcalm⟩ := hl.calm_of_pinned hpc rfl
    have hle : c.shared.len ≤ c.shared.tail := Nat.le.intro (h.count hcalm)
    cases he
    obtain ⟨h₁, h₂, h₃⟩ := lenCheck_holds (t := t) (s := c.shared) j _ c.shared.next hle
    exact h.goto hl hpc ⟨rfl, rfl, rfl⟩ (.use ..) rfl h₁ h₂ h₃
  | loadHead j len =>
    obtain ⟨-, hcalm⟩ := hl.calm_of_pinned hpc rfl
    cases he
    obtain ⟨h₁, h₂, h₃⟩ := visitFirst_holds (t := t) j c.shared.capacity (h.settled hcalm).head
      hholds.1 hholds.2 hl.sound.storage
    exact h.goto hl hpc ⟨rfl, rfl, rfl⟩ (.use ..) rfl h₁ h₂ h₃
  | waitWrite v =>
    simp only [exec] at he
    split at he
    · rename_i hw
      cases he
      exact h.goto hl hpc ⟨rfl, rfl, rfl⟩ (.refl _) rfl ⟨rfl, rfl, rfl⟩ hkn ⟨hholds, hw⟩
    · cases he
      exact h.goto hl hpc ⟨rfl, rfl, rfl⟩ (.refl _) rfl ⟨rfl, rfl, rfl⟩ hkn hholds
  | lock p v =>
    obtain ⟨hv, hw⟩ := hholds
    simp only [exec] at he
    obtain ⟨l, ⟨p', -, rfl, rfl⟩ | ⟨e, -, hr⟩⟩ := slotStep_cases he
    · exact h.goto hl hpc ⟨rfl, rfl, rfl⟩ (.setLock ..) rfl ⟨rfl, rfl, rfl⟩ hkn ⟨hv, hw⟩
    · split at hr
      · obtain hlk | hlk := locked_cases t (c.shared.setLock v.slots v.target l) v
        · -- the guard points at a slot that is reserved and written
          cases hr.trans hlk
          refine h.go hl hpc ⟨rfl, rfl, rfl⟩ ((SameData.setLock ..).trans (.guards _ _))
            (fun u g hg ↦ ?_) (by simp)
          have hg' : g ∈ Function.update c.shared.guards t (c.shared.guards t ++ [v.guard t]) u :=
            hg
          by_cases hut : u = t
          · subst hut
            rw [Function.update_self, List.mem_append, List.mem_singleton] at hg'
            obtain hg' | rfl := hg'
            · exact h.guards u g hg'
            · exact ⟨hv.slots, hv.target_lt, hw⟩
          · rw [Function.update_of_ne hut] at hg'
            exact h.guards u g hg'
        · cases hr.trans hlk
          exact h.goto hl hpc ⟨rfl, rfl, rfl⟩ (.setLock ..) rfl ⟨rfl, rfl, rfl⟩ hkn ⟨hv, hw⟩
      · cases hr
        exact h.goto hl hpc ⟨rfl, rfl, rfl⟩ (.setLock ..) rfl (plain_leave _) trivial trivial
  | access v => exact exec_books_access h hl how hpc he
  | unlock p v =>
    obtain ⟨hv, hw⟩ := hholds
    simp only [exec] at he
    obtain ⟨l, ⟨p', -, rfl, rfl⟩ | ⟨e, -, hr⟩⟩ := slotStep_cases he
    · exact h.goto hl hpc ⟨rfl, rfl, rfl⟩ (.setLock ..) rfl ⟨rfl, rfl, rfl⟩ hkn ⟨hv, hw⟩
    · split at hr
      · cases hr
        obtain ⟨h₁, h₂, h₃⟩ := visitNext_holds (t := t)
          (v := { v with i := v.i + 1, slots := c.shared.storage }) c.shared.capacity rfl hv.head
          hv.le hl.sound.storage
        exact h.goto hl hpc ⟨rfl, rfl, rfl⟩ ((SameData.setLock ..).trans (.use ..)) rfl h₁ h₂ h₃
      · cases hr
        exact h.goto hl hpc ⟨rfl, rfl, rfl⟩ (.setLock ..) rfl (plain_leave _) trivial trivial
  | dropSlot p g =>
    simp only [exec] at he
    obtain ⟨l, ⟨p', -, rfl, rfl⟩ | ⟨e, -, hr⟩⟩ := slotStep_cases he
    · exact h.goto hl hpc ⟨rfl, rfl, rfl⟩ (.setLock ..) rfl ⟨rfl, rfl, rfl⟩ hkn hholds
    · split at hr
      · cases hr
        exact h.goto hl hpc ⟨rfl, rfl, rfl⟩ (.setLock ..) rfl (plain_leave _) trivial trivial
      · cases hr
        exact h.go hl hpc ⟨rfl, rfl, rfl⟩ (.setLock ..) h.guards (by simp)
  | resetTry r | resetShared r =>
    cases he
    exact h.goto hl hpc ⟨rfl, rfl, rfl⟩ (.refl _) rfl (plain_coord _ _) hkn hholds
  | inspect r i =>
    simp only [exec] at he
    split at he
    · cases he
      exact h.goto hl hpc ⟨rfl, rfl, rfl⟩ (.refl _) rfl (plain_coord _ _) hkn hholds
    · cases he
      refine h.goto hl hpc ⟨rfl, rfl, rfl⟩ (.refl _) rfl ?_ ?_ ?_ <;>
        unfold inspectNext <;> split_ifs
      · exact ⟨rfl, rfl, rfl⟩
      · exact ⟨rfl, rfl, rfl⟩
      · exact hkn
      · exact hkn
      · exact hholds
      · exact hholds
  | resetStorage r =>
    cases he
    refine h.exchange hl hpc rfl rfl rfl rfl rfl rfl rfl ?_ (fun hc ↦ ?_) rfl
    · rintro _ ⟨⟩
      exact ⟨Full.of_eq hholds rfl rfl rfl, rfl⟩
    · exact absurd (hc t _ (Config.put_pcs_self ..)) (by simp [Pc.exchanging])
  | resetHead r old =>
    cases he
    refine h.exchange hl hpc rfl rfl rfl rfl rfl rfl rfl ?_ (fun hc ↦ ?_) rfl
    · rintro _ ⟨⟩
      exact ⟨hholds.1.of_eq rfl rfl rfl, hholds.2, rfl, rfl⟩
    · exact absurd (hc t _ (Config.put_pcs_self ..)) (by simp [Pc.exchanging])
  | resetTail r old =>
    obtain ⟨h₁, h₂, h₃, h₄⟩ := hholds
    cases he
    refine h.exchange hl hpc rfl rfl rfl rfl rfl rfl rfl ?_ (fun hc ↦ ?_) rfl
    · rintro _ ⟨⟩
      exact ⟨h₁.of_eq rfl rfl rfl, h₂, h₃, h₄, rfl, rfl⟩
    · exact absurd (hc t _ (Config.put_pcs_self ..)) (by simp [Pc.exchanging])
  | resetLen r old =>
    obtain ⟨h₁, h₂, h₃, h₄, h₅, h₆⟩ := hholds
    cases he
    have hfull : Full t { c.shared with len := r.newCap, lenGen := r.fresh } r :=
      h₁.of_eq rfl rfl rfl
    refine h.exchange hl hpc rfl rfl rfl rfl rfl rfl rfl ?_ (fun _ ↦ ?_) rfl
    · rintro _ ⟨⟩ -
      exact ⟨hfull, h₂, h₅, rfl⟩
    · obtain ⟨hs, hw⟩ := hfull.settled h₂ h₃ h₄ h₅ h₆ rfl
      exact ⟨hs, h₅.symm, hw⟩
  | resetDrop r old =>
    cases he
    exact h.go hl hpc ⟨rfl, rfl, rfl⟩ (.free ..) h.guards (by simp)

/-- A start that only moves locks, guards in hand or the caller's own records. -/
theorem Books.start (h : Books c) (hl : Locks ids c) (hpc : c.pcs t = none)
    (hb : SameBelow c.shared s') (hoff : ∀ u, u ≠ t → s'.offered u = c.shared.offered u)
    (hask : ∀ u, u ≠ t → s'.asked u = c.shared.asked u)
    (hguards : ∀ u, ∀ g ∈ s'.guards u, Written c.shared g.storage g.index)
    (hdef : s'.undefined = c.shared.undefined)
    (ho : ∀ q, o.pc = some q → q.Plain ∧ q.Holds t s') : Books (c.put t (s', o)) := by
  refine h.same hb hl.sound.storage (fun u q hq ↦ (hl.mine u).known q hq) hoff hask ?_
    (fun q hq ↦ ?_)
    ?_ ?_ hguards hdef
  · intro p hp
    rw [hpc] at hp
    cases hp
  · exact ⟨(ho q hq).1.1, (ho q hq).2⟩
  · rw [hpc]
    cases hq : o.pc with
    | none => rfl
    | some q => exact (ho q hq).1.2.1
  · rw [hpc]
    cases hq : o.pc with
    | none => rfl
    | some q => exact (ho q hq).1.2.2

/-- A call that takes the coordination lock starts. -/
theorem Books.startShared (h : Books c) (hl : Locks ids c) (hpc : c.pcs t = none)
    (hb : SameBelow c.shared s') (hoff : ∀ u, u ≠ t → s'.offered u = c.shared.offered u)
    (hask : s'.asked = c.shared.asked) (hguards : s'.guards = c.shared.guards)
    (hdef : s'.undefined = c.shared.undefined) (k : After ι α)
    (hk : k.Holds t s' .acquire) :
    Books (c.put (R := Ret ι α) t (s', .goto (shared k))) := by
  refine h.start hl hpc hb hoff (fun u _ ↦ by rw [hask])
    (fun u g hg ↦ h.guards u g (hguards ▸ hg)) hdef ?_
  rintro _ ⟨⟩
  exact ⟨plain_coord _ _, hk⟩

/-- A private replacement becomes known. -/
theorem books_resetWith {newCap : ℕ} {inits : List α} {a : Private ι α} (h : Books c)
    (hl : Locks ids c) (hpc : c.pcs t = none) (ha : initWith newCap inits = .ok a) :
    Books (c.put (R := Ret ι α) t
      ({ (c.shared.start t).adopt a (inits.take newCap) with
        asked := Function.update c.shared.asked t (newCap, inits) },
        .goto (.resetTry ⟨c.shared.next, newCap⟩))) := by
  obtain ⟨-, hlen, hcap, hw, hempty⟩ := initWith_spec ha
  have hheap : ∀ b, b < c.shared.next →
      Function.update c.shared.heap c.shared.next a.storage b = c.shared.heap b :=
    fun b hb ↦ Function.update_of_ne hb.ne _ _
  refine h.start hl hpc ⟨fun b i hb ↦ ?_, fun b i hb ↦ ?_, fun b hb ↦ ?_, fun b hb ↦ ?_,
    rfl, rfl, rfl,
    rfl, rfl, rfl, rfl⟩ (fun _ _ ↦ rfl) (fun u hu ↦ Function.update_of_ne hu _ _) h.guards rfl ?_
  · show ((Function.update c.shared.heap c.shared.next a.storage b).slots i).value = _
    rw [hheap b hb]
    rfl
  · show ((Function.update c.shared.heap c.shared.next a.storage b).slots i).state = _
    rw [hheap b hb]
    rfl
  · exact congrArg Storage.capacity (hheap b hb)
  · exact Function.update_of_ne hb.ne _ _
  · rintro _ ⟨⟩
    have hself : Function.update c.shared.asked t (newCap, inits) t = (newCap, inits) :=
      Function.update_self ..
    have hst : Function.update c.shared.heap c.shared.next a.storage c.shared.next = a.storage :=
      Function.update_self ..
    refine ⟨⟨rfl, rfl, rfl⟩, ⟨congrArg Prod.fst hself, ?_, ?_, ?_, fun i hi ↦ ?_, fun i hi ↦ ?_⟩⟩
    · exact (congrArg (newCap ≤ ·.2.length) hself).mpr hlen
    · exact (congrArg Storage.capacity hst).trans hcap
    · show Function.update c.shared.ledger c.shared.next _ c.shared.next =
        ((Function.update c.shared.asked t (newCap, inits) t).2.take newCap).map _
      rw [Function.update_self, hself]
    · show ((Function.update c.shared.heap c.shared.next a.storage c.shared.next).slots i).state =
        _ ∧
        ((Function.update c.shared.heap c.shared.next a.storage c.shared.next).slots i).value =
          (Function.update c.shared.asked t (newCap, inits) t).2[i]?
      rw [hst, hself]
      exact hw i hi
    · show ((Function.update c.shared.heap c.shared.next a.storage c.shared.next).slots i).state = _
      rw [hst]
      exact hempty i hi

/-- **Every start of a call keeps the books.** -/
theorem enter_books {op : Op ι α} (h : Books c) (hl : Locks ids c) (how : Owns c)
    (hpc : c.pcs t = none) (he : enter t op c.shared = some (s', o)) : Books (c.put t (s', o)) := by
  have hstart : SameData c.shared (c.shared.start t) :=
    .of_heap rfl rfl rfl rfl rfl rfl rfl rfl rfl rfl rfl rfl rfl
  cases op with
  | push v =>
    cases he
    have hb : SameBelow c.shared { c.shared.start t with
        offered := Function.update c.shared.offered t (c.shared.offered t ++ [v]) } :=
      ⟨fun _ _ _ ↦ rfl, fun _ _ _ ↦ rfl, fun _ _ ↦ rfl, fun _ _ ↦ rfl, rfl, rfl, rfl, rfl, rfl, rfl,
        rfl⟩
    exact h.startShared hl hpc hb (fun u hu ↦ Function.update_of_ne hu _ _) rfl rfl rfl _ trivial
  | get index | getMut index =>
    cases he
    exact h.startShared hl hpc hstart.below (fun _ _ ↦ rfl) rfl rfl rfl _ trivial
  | asVec | forEach =>
    cases he
    exact h.startShared hl hpc hstart.below (fun _ _ ↦ rfl) rfl rfl rfl _ trivial
  | forEachMut f =>
    cases he
    exact h.startShared hl hpc hstart.below (fun _ _ ↦ rfl) rfl rfl rfl _ trivial
  | resetWith newCap inits =>
    simp only [enter] at he
    split at he
    · cases he
      exact h.start hl hpc (SameData.refl _).below (fun _ _ ↦ rfl) (fun _ _ ↦ rfl) h.guards rfl
        (by simp)
    · rename_i a ha
      cases he
      exact books_resetWith h hl hpc ha
  | deref g =>
    simp only [enter] at he
    split_ifs at he with hg
    obtain ⟨-, hcalm⟩ := hl.calm_of_guard hg
    obtain ⟨hst, hlt, hw⟩ := h.guards t g hg
    rw [hst] at hw
    obtain ⟨r, -, hvalue⟩ := (h.settled hcalm).value hlt hw
    simp only [hst, hvalue] at he
    cases he
    exact h.start hl hpc (SameData.refl _).below (fun _ _ ↦ rfl) (fun _ _ ↦ rfl) h.guards rfl
      (by simp)
  | write g v =>
    simp only [enter] at he
    split_ifs at he with hg
    obtain ⟨hseal, hcalm⟩ := hl.calm_of_guard hg.1
    have hw := h.guards t g hg.1
    cases he
    have hst := hw.storage
    rw [hst] at hw ⊢
    exact h.store how hcalm hseal hw v (by rw [hpc]; rfl) (by rw [hpc]; rfl) rfl rfl (by simp)
  | dropGuard g =>
    simp only [enter] at he
    split_ifs at he with hg
    cases he
    have hd : SameData c.shared ((c.shared.giveUp t g).start t) :=
      .of_heap rfl rfl rfl rfl rfl rfl rfl rfl rfl rfl rfl rfl rfl
    have hb := hd.below
    refine h.start hl hpc hb (fun _ _ ↦ rfl) (fun _ _ ↦ rfl) (fun u x hx ↦ ?_) rfl ?_
    · refine h.guards u x ?_
      have hx' : x ∈ Function.update c.shared.guards t ((c.shared.guards t).erase g) u := hx
      by_cases hut : u = t
      · subst hut
        rw [Function.update_self] at hx'
        exact List.mem_of_mem_erase hx'
      · rwa [Function.update_of_ne hut] at hx'
    · rintro _ ⟨⟩
      exact ⟨⟨rfl, rfl, rfl⟩, (h.guards t g hg).congr hb hl.sound.storage⟩
  | sendGuard g u =>
    by_cases hg : g ∈ c.shared.guards t
    · simp only [enter, if_pos hg] at he
      split at he
      · rename_i l o₁ m o₂ _ _
        cases he
        have hd : SameData c.shared { (c.shared.giveUp t g).setLock g.storage g.index m with
            coordLock := l
            guards := Function.update (c.shared.giveUp t g).guards u
              ((c.shared.giveUp t g).guards u ++ [g]) } :=
          (SameData.guards c.shared _).trans ((SameData.setLock (c.shared.giveUp t g) _ _ m).trans
            (.of_heap rfl rfl rfl rfl rfl rfl rfl rfl rfl rfl rfl rfl rfl))
        refine h.start hl hpc hd.below (fun _ _ ↦ rfl) (fun _ _ ↦ rfl) (fun v x hx ↦ ?_)
          rfl (by simp)
        have hgive : ∀ v, x ∈ (c.shared.giveUp t g).guards v →
            Written c.shared x.storage x.index := by
          intro v hx
          refine h.guards v x ?_
          have hx' : x ∈ Function.update c.shared.guards t ((c.shared.guards t).erase g) v := hx
          by_cases hvt : v = t
          · subst hvt
            rw [Function.update_self] at hx'
            exact List.mem_of_mem_erase hx'
          · rwa [Function.update_of_ne hvt] at hx'
        have hx' : x ∈ Function.update (c.shared.giveUp t g).guards u
          ((c.shared.giveUp t g).guards u ++ [g]) v := hx
        by_cases hvu : v = u
        · subst hvu
          rw [Function.update_self, List.mem_append, List.mem_singleton] at hx'
          obtain hx' | rfl := hx'
          · exact hgive v hx'
          · exact h.guards t x hg
        · rw [Function.update_of_ne hvu] at hx'
          exact hgive v hx'
      · cases he
    · simp only [enter, if_neg hg] at he
      cases he

variable {ok : Config ι (Store ι α) (Pc ι α) → Label ι (Op ι α) → Prop} {capacity : ℕ}

omit [DecidableEq ι] in
/-- An empty array has its books in order. -/
theorem books_init : Books (init capacity : Config ι (Store ι α) (Pc ι α)) := by
  refine ⟨fun _ ↦ ⟨rfl, rfl, rfl, rfl, rfl, Nat.zero_le _, fun i _ ↦ rfl, fun i r hr ↦ ?_⟩,
    fun _ ↦ ?_,
    fun _ i hi ↦ absurd hi (Nat.not_lt_zero i), fun t p hp ↦ (by cases hp),
    fun t u i _ hi ↦ (by cases hi),
    fun t g hg ↦ (by cases hg), rfl⟩
  · simp [init, Store.new] at hr
  · show 0 + tally (fun _ ↦ 0) = 0
    rw [tally_zero]

/-- **The books hold along every run.** -/
theorem reach_books (h : Reach (atomicArray ids adaptive) ok (init capacity) c) : Books c :=
  h.invariant (I := Books) books_init
    (fun _ _ _ _ hr hb _ hpc he ↦ enter_books hb (reach_locks hr) (reach_owns hr) hpc he)
    fun _ _ _ _ _ hr hb _ hpc he ↦ exec_books hb (reach_locks hr) (reach_owns hr) hpc he

end Runs

end AtomicArray

end Crossync
