import Crossync.Atomic.CellGuards

/-!
# The calls of `AtomicCell`

What the guards guarantee for the value, and what a call returns: the history is legal for a plain
value, and a call that accesses the value has entered it once, with the result it returns. A guard
keeps the value in place; a failed exchange still has it.

## Where a call takes effect

At the access to the value, which a call makes once: an exchange reads, compares and writes under
one write guard, and its entry in the history is made at the write, or at the comparison that fails.
A call that only takes or drops a guard enters nothing.
-/

open Interleave

namespace Crossync

namespace AtomicCell

variable {ι α : Type*} [DecidableEq ι]

/-- The call behind a job. -/
def Job.op : Job α → Op ι α
  | get => .get
  | getMut => .getMut
  | swap x => .swap x
  | store x => .store x
  | compareExchange current new => .compareExchange current new

/-- The call that a program point belongs to, before the drop of its guard. -/
def Pc.call : Pc ι α → Option (Op ι α)
  | .lock job _ => some job.op
  | .unlock _ _ => none
  | .isLocked ref a => some (.isLocked ref a)
  | .deref ref a => some (.deref ref a)
  | .read ref a => some (.read ref a)
  | .write a x => some (.write a x)
  | .swapDeref quiet x | .swapTake quiet x | .swapPut quiet x _ =>
    some (if quiet then .store x else .swap x)
  | .casDeref current new | .casCompare current new | .casDerefMut current new
  | .casTake current new
  | .casPut current new _ => some (.compareExchange current new)

/-- The calls that access the value. -/
def Op.logged : Op ι α → Bool
  | .read _ _ | .write _ _ | .swap _ | .store _ | .compareExchange _ _ => true
  | _ => false

/-- What a call that returns `e` has put into the history. -/
def Op.entries (op : Op ι α) (t : ι) (e : Ret α) : List (Occurrence ι (Op ι α) (Ret α)) :=
  if op.logged then [⟨t, op, e⟩] else []

variable [DecidableEq α]

/-- **A step of a call**: it goes on with the history as it is, or its access enters the history and
the call is about to return the result, or it returns. -/
inductive CallStep (t : ι) (op : Op ι α) (s s' : Store ι α) : Outcome (Pc ι α) (Ret α) → Prop where
  | goes {q} (hq : q.call = some op) (hlog : s'.log = s.log) : CallStep t op s s' (.goto q)
  | enters {e p} (he : e ≠ .panicked) (hlog : s'.log = s.log ++ op.entries t e) :
      CallStep t op s s' (.goto (.unlock e p))
  | returns {e} (he : e ≠ .panicked) (hlog : s'.log = s.log ++ op.entries t e) :
    CallStep t op s s' (.ret e)
  | panics (hlog : s'.log = s.log) : CallStep t op s s' (.ret .panicked)

section Calls

variable [Fintype ι] {ids : SerialMutex.OwnerIds ι} {adaptive : ℕ} {x₀ : α}
  {c : Config ι (Store ι α) (Pc ι α)} {t : ι} {p : Pc ι α} {op : Op ι α}

/-- A step before the drop of the guard. -/
theorem Guarded.callStep (h : Guarded ids adaptive x₀ c) {ch : Choice ι} {s' : Store ι α}
    {o : Outcome (Pc ι α) (Ret α)} (hpc : c.pcs t = some p) (hp : p.call = some op)
    (he : AtomicCell.exec ids adaptive t ch c.shared p = some (s', o)) :
    CallStep t op c.shared s' o := by
  have hlocked : ∀ ref a, p.guard t = some (ref, a) → guardLocked ref c.shared.state.state = true :=
    fun ref a hg ↦ h.locked (h.owns t p ref a hpc hg)
  have hassert : ∀ q, p.guard t = some (false, t) →
      asserting t false c.shared q = (.goto q : Outcome (Pc ι α) (Ret α)) := fun q hg ↦
    if_pos (hlocked false t hg)
  cases p with
  | unlock => cases hp
  | lock job q =>
    cases hp
    generalize hr : (s', o) = r at he
    cases h.moves hpc he with
    | locking =>
      cases hr
      exact .goes rfl rfl
    | locked =>
      cases hr
      cases job with
      | get | getMut => exact .returns (by simp) (List.append_nil _).symm
      | _ => exact .goes rfl rfl
    | refused =>
      cases hr
      exact .panics rfl
    | access hserial => cases hserial
  | isLocked ref a | deref ref a =>
    cases hp
    cases he
    refine .returns ?_ (List.append_nil _).symm
    try split_ifs
    all_goals simp
  | read ref a | write a x =>
    cases hp
    cases he
    exact .returns (by simp) rfl
  | swapDeref quiet x =>
    cases hp
    rw [AtomicCell.exec, hassert _ rfl] at he
    cases he
    exact .goes rfl rfl
  | swapTake quiet x | casTake current new =>
    cases hp
    cases he
    exact .goes rfl rfl
  | swapPut quiet x old =>
    cases hp
    cases he
    cases quiet <;> exact .enters (by simp) rfl
  | casDeref current new | casDerefMut current new =>
    cases hp
    rw [AtomicCell.exec, hassert _ rfl] at he
    cases he
    exact .goes rfl rfl
  | casCompare current new =>
    cases hp
    simp only [AtomicCell.exec] at he
    split_ifs at he
    · cases he
      exact .goes rfl rfl
    · cases he
      exact .returns (by simp) rfl
  | casPut current new old =>
    cases hp
    cases he
    exact .enters (by simp) rfl

/-- What `t` has put into the history since a call of `op` began after `n` entries. -/
structure Linearizing (t : ι) (op : Op ι α) (n : ℕ) (s : Store ι α) (p : Pc ι α) : Prop where
  le : n ≤ s.log.length
  during : p.call = some op ∧ ownSince t n s.log = [] ∨
    ∃ e q, p = .unlock e q ∧ e ≠ .panicked ∧ ownSince t n s.log = op.entries t e

/-- What `t` has put into the history by a call that returned `e`. -/
def Linearized (t : ι) (op : Op ι α) (n : ℕ) (s : Store ι α) (e : Ret α) : Prop :=
  ownSince t n s.log = if e = .panicked then [] else op.entries t e

omit [DecidableEq α] [Fintype ι] in
theorem ownSince_entries {n : ℕ} {es : List (Occurrence ι (Op ι α) (Ret α))} (hn : n ≤ es.length)
    (hown : ownSince t n es = []) (op : Op ι α) (e : Ret α) :
    n ≤ (es ++ op.entries t e).length ∧ ownSince t n (es ++ op.entries t e) = op.entries t e := by
  refine ⟨by rw [List.length_append]; omega, ?_⟩
  unfold Op.entries
  split_ifs
  · rw [ownSince_concat_self hn (e := ⟨t, op, e⟩) rfl, hown, List.nil_append]
  · rw [List.append_nil, hown]

/-- An access of the calling thread. -/
theorem Linearizing.access {n : ℕ} {s' : Store ι α} {o : Outcome (Pc ι α) (Ret α)}
    (h : Linearizing t op n c.shared p) (hG : Guarded ids adaptive x₀ c) {ch : Choice ι}
    (hpc : c.pcs t = some p) (he : AtomicCell.exec ids adaptive t ch c.shared p = some (s', o)) :
    (∀ q, o = .goto q → Linearizing t op n s' q) ∧ ∀ e, o = .ret e → Linearized t op n s' e := by
  obtain ⟨hle, ⟨hcall, hown⟩ | ⟨e, q, rfl, hne, hown⟩⟩ := h
  · cases hG.callStep hpc hcall he with
    | goes hq hlog =>
      refine ⟨?_, by rintro _ ⟨⟩⟩
      rintro _ ⟨⟩
      exact ⟨hlog ▸ hle, Or.inl ⟨hq, hlog ▸ hown⟩⟩
    | @enters e q hne hlog =>
      refine ⟨?_, by rintro _ ⟨⟩⟩
      rintro _ ⟨⟩
      obtain ⟨hle', hown'⟩ := ownSince_entries hle hown op e
      exact ⟨hlog ▸ hle', Or.inr ⟨e, q, rfl, hne, hlog ▸ hown'⟩⟩
    | @returns e hne hlog =>
      refine ⟨(by rintro _ ⟨⟩), ?_⟩
      rintro _ ⟨⟩
      rw [Linearized, if_neg hne, hlog]
      exact (ownSince_entries hle hown op e).2
    | panics hlog =>
      refine ⟨(by rintro _ ⟨⟩), ?_⟩
      rintro _ ⟨⟩
      rw [Linearized, if_pos rfl, hlog, hown]
  · generalize hr : (s', o) = r at he
    cases hG.moves hpc he with
    | @unlocking _ _ q' =>
      cases hr
      refine ⟨?_, by rintro _ ⟨⟩⟩
      rintro _ ⟨⟩
      exact ⟨hle, Or.inr ⟨e, q', rfl, hne, hown⟩⟩
    | unlocked =>
      cases hr
      refine ⟨(by rintro _ ⟨⟩), ?_⟩
      rintro _ ⟨⟩
      rw [Linearized, if_neg hne]
      exact hown
    | access hserial => cases hserial

/-- What an access does to the history: nothing, or one entry of its thread. -/
theorem Guarded.log_step (h : Guarded ids adaptive x₀ c) {ch : Choice ι} (hpc : c.pcs t = some p)
    {r : Store ι α × Outcome (Pc ι α) (Ret α)}
    (he : AtomicCell.exec ids adaptive t ch c.shared p = some r) :
    r.1.log = c.shared.log ∨ ∃ op e, r.1.log = c.shared.log ++ [⟨t, op, e⟩] := by
  cases h.moves hpc he with
  | access _ _ ha =>
    rcases ha.value with ⟨-, hlog⟩ | ⟨op, e, hlog, -⟩
    · exact Or.inl hlog
    · exact Or.inr ⟨op, e, hlog⟩
  | _ => exact Or.inl rfl

/-- The step of another thread. -/
theorem Linearizing.other {n : ℕ} (h : Linearizing t op n c.shared p)
    (hG : Guarded ids adaptive x₀ c) {l : Label ι (Op ι α)} (hl : l.thread ≠ t)
    {c' : Config ι (Store ι α) (Pc ι α)} (hn : (atomicCell ids adaptive).next c l = some c') :
    Linearizing t op n c'.shared p := by
  have hlog : c'.shared.log = c.shared.log ∨
      ∃ op e, c'.shared.log = c.shared.log ++ [⟨l.thread, op, e⟩] := by
    obtain ⟨u, op', r, rfl, -, he, rfl⟩ | ⟨u, ch, q, r, rfl, hq, he, rfl⟩ := Object.next_cases hn
    · left
      cases enter_starts he with
      | _ => rfl
    · exact hG.log_step hq he
  obtain ⟨hle, hduring⟩ := h
  rcases hlog with hlog | ⟨op', e, hlog⟩
  · exact ⟨hlog ▸ hle, by rwa [hlog]⟩
  · have hown : ownSince t n c'.shared.log = ownSince t n c.shared.log := by
      rw [hlog, ownSince_concat_of_ne hle (e := ⟨l.thread, op', e⟩) hl]
    refine ⟨?_, by rwa [hown]⟩
    rw [hlog, List.length_append]
    omega

omit [DecidableEq α] [Fintype ι] in
/-- Where a call starts. -/
theorem linearizing_enter {s s' : Store ι α} {o : Outcome (Pc ι α) (Ret α)}
    (h : AtomicCell.enter t op s = some (s', o)) :
    ∀ q, o.pc = some q → Linearizing t op s.log.length s' q := by
  intro q hq
  cases op with
  | get | getMut | swap x | store x | compareExchange current new =>
    cases h
    cases hq
    exact ⟨le_rfl, Or.inl ⟨rfl, ownSince_length⟩⟩
  | isLocked ref a | deref ref a | read ref a | write a x =>
    simp only [AtomicCell.enter] at h
    split_ifs at h
    cases h
    cases hq
    exact ⟨le_rfl, Or.inl ⟨rfl, ownSince_length⟩⟩
  | drop ref a =>
    by_cases hpos : 0 < s.guards ref a t
    · rw [AtomicCell.enter, if_pos hpos] at h
      cases h
      cases hq
      exact ⟨le_rfl, Or.inr ⟨.unit, _, rfl, by simp, ownSince_length⟩⟩
    · rw [AtomicCell.enter, if_neg hpos] at h
      cases h
  | send ref a u =>
    obtain ⟨x, -, hx⟩ := Option.map_eq_some_iff.1 h
    cases hx
    cases hq

/-- **Along a call** its thread puts nothing into the history but the access of the call. -/
theorem calls_linearizing {ss : List (Store ι α × Store ι α)}
    (h : Calls (atomicCell ids adaptive) Always (init x₀) t op ss c) :
    ∀ p, c.pcs t = some p → ∃ s, ss.head?.map Prod.fst = some s ∧
      Linearizing t op s.log.length c.shared p := by
  refine h.invariant (I := fun ss s' p ↦
    ∃ s, ss.head?.map Prod.fst = some s ∧ Linearizing t op s.log.length s' p) ?_ ?_ ?_
  · exact fun c s' o _ he p hp ↦ ⟨c.shared, rfl, linearizing_enter he p hp⟩
  · rintro ss c ch p s' o hc ⟨s, hs, hI⟩ - hpc he q hq
    refine ⟨s, ?_, (hI.access (reach_guarded hc) hpc he).1 q ?_⟩
    · cases ss with
      | nil => cases hs
      | cons x ss => exact hs
    · cases o with
      | goto q' => exact congrArg _ (Option.some.inj hq)
      | ret e => cases hq
  · rintro ss c c' l p hc ⟨s, hs, hI⟩ hpc - hl hn
    exact ⟨s, hs, hI.other (reach_guarded hc) hl hn⟩

/-- **Linearizability.** The history of a cell, with the reads and writes through guards and with
the exchanges, is legal for a plain value, and the value is the one it leaves. A call that returns
has entered the history once since it began, with the result it returns, if it accesses the value
and does not panic; else it has not. -/
theorem accesses_linearizable (h : Reach (atomicCell ids adaptive) Always (init x₀) c) :
    Legal run x₀ c.shared.log ∧ c.shared.val = final run x₀ c.shared.log ∧
      ∀ t op ss ch p s' e, Calls (atomicCell ids adaptive) Always (init x₀) t op ss c →
        c.pcs t = some p →
        exec ids adaptive t ch c.shared p = some (s', .ret e) →
        ∃ s, ss.head?.map Prod.fst = some s ∧
          ownSince t s.log.length s'.log = if op.logged = true ∧
            e ≠ .panicked then [⟨t, op, e⟩] else [] := by
  have hG := reach_guarded h
  refine ⟨hG.legal, hG.value, fun t op ss ch p s' e hcalls hpc he ↦ ?_⟩
  obtain ⟨s, hs, hI⟩ := calls_linearizing hcalls p hpc
  refine ⟨s, hs, ?_⟩
  have hend := (hI.access hG hpc he).2 e rfl
  rw [Linearized, Op.entries] at hend
  rw [hend]
  by_cases hpanic : e = .panicked <;> by_cases hlogged : op.logged = true <;> simp [hpanic, hlogged]

end Calls

/-- Thread `0` has a read guard, and thread `1` is about to exchange. -/
theorem accesses_linearizable_reading :
    ∃ c, Reach (atomicCell SerialMutex.twoIds 4) Always
    (init 7 : Config (Fin 2) (Store (Fin 2) ℕ) _) c ∧
      c.shared.log.length = 1 ∧ (c.pcs 1).isSome ∧ c.shared.val = final run 7 c.shared.log := by
  obtain ⟨c, hc, ht⟩ := Reach.exists_of_replay (atomicCell SerialMutex.twoIds 4) Always
    (init 7 : Config (Fin 2) (Store (Fin 2) ℕ) _)
    [.call 0 .get, .exec 0 .go, .call 1 (.compareExchange 7 8), .exec 1 .go, .call 0 (.read true 0),
      .exec 0 .go]
    (fun c ↦ c.shared.log.length == 1 && (c.pcs 1).isSome) (by decide)
  obtain ⟨hlen, hsome⟩ := Bool.and_eq_true_iff.1 ht
  exact ⟨c, hc, eq_of_beq hlen, hsome, (accesses_linearizable hc).2.1⟩

/-! ### What the guards guarantee

For the value between two steps of a thread that keeps a guard, and for the verdicts of calls. -/

section Guards

variable [Fintype ι] {ids : SerialMutex.OwnerIds ι} {adaptive : ℕ} {x₀ : α}
  {c : Config ι (Store ι α) (Pc ι α)} {t : ι} {p : Pc ι α}

/-- A write guard is the only guard. -/
theorem Guarded.sole (h : Guarded ids adaptive x₀ c) {a : ι}
    (hpos : 0 < c.shared.guards false a t) :
    c.shared.guards false a t = 1 ∧ ∀ ref b u, 0 < c.shared.guards ref b u → ref = false ∧ b = a ∧
      u = t := by
  obtain ⟨-, -, hreads, -, -⟩ := h.exact.of_writes hpos
  refine ⟨(h.exact.unique_writer hpos hpos).2.2, fun ref b u hb ↦ ?_⟩
  cases ref with
  | true =>
    have hle : c.shared.guards true b u ≤ tally (c.shared.state.reads b) := le_tally _ u
    have hzero := hreads b
    omega
  | false =>
    obtain ⟨hba, hut, -⟩ := h.exact.unique_writer hb hpos
    exact ⟨rfl, hba, hut⟩

/-- What a call that returns says, with the stores before and after its last access: a guard
conflicts with no other live guard and is one of the thread; a failed exchange has found another
value, which is still there, and has its write guard; the lock panics only on a thread that has
itself acquired a live guard; a guard sees itself locked; no assertion fails. -/
def Verdict (t : ι) (p : Pc ι α) (s s' : Store ι α) : Ret α → Prop
  | .ref => s'.guards true t t = s.guards true t t + 1 ∧ ∀ a u, s'.guards false a u = 0
  | .mut => s'.guards false t t = 1 ∧ ∀ ref a u, 0 < s'.guards ref a u → ref = false ∧ a = t ∧ u = t
  | .failed => ∃ current new, p = .casCompare current new ∧ s'.val ≠ current ∧
    s'.guards false t t = 1
  | .panicked => ∃ ref u, 0 < s.guards ref t u
  | .bool b => b = true
  | .assertFailed => False
  | .unit | .value _ | .ok _ => True

/-- **What a call returns.** -/
theorem guard_verdicts (h : Reach (atomicCell ids adaptive) Always (init x₀) c) {ch : Choice ι}
    {s' : Store ι α} {e : Ret α} (hpc : c.pcs t = some p)
    (he : exec ids adaptive t ch c.shared p = some (s', .ret e)) : Verdict t p c.shared s' e := by
  have hG := reach_guarded h
  have hG' : Guarded ids adaptive x₀ (c.put t (s', .ret e)) := hG.exec hpc he
  have hlocked : ∀ ref a, p.guard t = some (ref, a) → guardLocked ref c.shared.state.state = true :=
    fun ref a hg ↦ hG.locked (hG.owns t p ref a hpc hg)
  have hstage := hG.stage t p hpc
  cases p with
  | lock job q =>
    generalize hr : (s', Outcome.ret e) = r at he
    cases hG.moves hpc he with
    | locking => cases hr
    | @locked _ _ m hx hm =>
      have hself : m.record job.read t t = c.shared.state.record job.read t t + 1 := by
        rw [hm.record_eq]
        exact if_pos ⟨rfl, rfl, rfl⟩
      have hpos : 0 < m.record job.read t t := hself ▸ Nat.succ_pos _
      cases job with
      | get =>
        cases hr
        obtain ⟨-, -, -, -, -, hwrites⟩ := hG'.exact.of_reads hpos
        exact ⟨hself, fun a u ↦ Nat.eq_zero_of_le_zero ((le_tally _ u).trans_eq (hwrites a))⟩
      | getMut =>
        cases hr
        exact hG'.sole hpos
      | swap | store | compareExchange => cases hr
    | refused hx hrefused =>
      cases hr
      obtain ⟨-, hown, -⟩ := SerialMutex.exec_refused hstage hrefused hx
      have hlive := hG.exact.guards_of_own hown
      by_contra hnone
      have hzero : ∀ ref u, c.shared.guards ref t u = 0 := fun ref u ↦
        Nat.eq_zero_of_not_pos fun hpos ↦ hnone ⟨ref, u, hpos⟩
      have hr := tally_eq_zero_iff.2 (hzero true)
      have hx := tally_eq_zero_iff.2 (hzero false)
      simp only [Store.guards, SerialMutex.Store.record, if_true, Bool.false_eq_true,
        if_false] at hr hx
      omega
    | access hserial => cases hserial
  | unlock e' q =>
    generalize hr : (s', Outcome.ret e) = r at he
    cases hG.moves hpc he with
    | unlocking => cases hr
    | unlocked =>
      cases hr
      cases e with
      | unit | value | ok => trivial
      | _ => cases hstage.1
    | access hserial => cases hserial
  | isLocked ref a =>
    cases he
    exact hlocked ref a rfl
  | deref ref a =>
    cases he
    rw [hlocked ref a rfl]
    trivial
  | read ref a | write a x =>
    cases he
    trivial
  | swapDeref quiet x =>
    rw [exec, asserting, if_pos (hlocked false t rfl)] at he
    cases he
  | casDeref current new | casDerefMut current new =>
    rw [exec, asserting, if_pos (hlocked false t rfl)] at he
    cases he
  | casCompare current new =>
    simp only [exec] at he
    split_ifs at he with heq
    · cases he
    · cases he
      exact ⟨current, new, rfl, heq, (hG.sole (hG.owns t _ false t hpc rfl)).1⟩
  | swapTake | swapPut | casTake | casPut => cases he

/-- The thread is about to write the value. -/
def writing : Option (Pc ι α) → Bool
  | some (.write _ _) | some (.swapPut _ _ _) | some (.casPut _ _ _) => true
  | _ => false

/-- `t` has a guard before the step, and the step is not a write of its own. -/
def Holds (t : ι) (c : Config ι (Store ι α) (Pc ι α)) (l : Label ι (Op ι α)) : Prop :=
  (∃ ref a, 0 < c.shared.guards ref a t) ∧ ¬ (l.thread = t ∧ writing (c.pcs t) = true)

instance (t : ι) (c : Config ι (Store ι α) (Pc ι α)) (l : Label ι (Op ι α)) :
    Decidable (Holds t c l) :=
  inferInstanceAs (Decidable (_ ∧ _))

omit [Fintype ι] in
theorem exec_val {ch : Choice ι} {s s' : Store ι α} {o : Outcome (Pc ι α) (Ret α)}
    (hp : p.serial = none) (h : exec ids adaptive t ch s p = some (s', o)) :
    s'.val = s.val ∨ writing (some p) = true := by
  cases p with
  | lock | unlock => cases hp
  | write | swapPut | casPut => exact Or.inr rfl
  | casCompare current new =>
    left
    simp only [exec] at h
    split_ifs at h <;> cases h <;> rfl
  | _ =>
    left
    cases h
    rfl

/-- Only a write changes the value, and it has a write guard. -/
theorem Guarded.val_step (h : Guarded ids adaptive x₀ c) {l : Label ι (Op ι α)}
    {c' : Config ι (Store ι α) (Pc ι α)} (hn : (atomicCell ids adaptive).next c l = some c') :
    c'.shared.val = c.shared.val ∨
      writing (c.pcs l.thread) = true ∧ ∃ a, 0 < c.shared.guards false a l.thread := by
  obtain ⟨t, op, r, rfl, -, he, rfl⟩ | ⟨t, ch, p, r, rfl, hpc, he, rfl⟩ := Object.next_cases hn
  · left
    cases enter_starts he with
    | _ => rfl
  · cases h.moves hpc he with
    | @access _ s' o hserial he' ha =>
      by_cases hval : s'.val = c.shared.val
      · exact Or.inl hval
      · right
        obtain ⟨a, hguard⟩ := ha.writes hval
        refine ⟨?_, a, h.owns t p false a hpc hguard⟩
        rw [Label.thread, hpc]
        exact (exec_val hserial he').resolve_left hval
    | _ => exact Or.inl rfl

/-- **A guard keeps the value in place.** As long as a thread has a guard, of either kind and
whoever acquired it, the value does not change but by the writes of that thread. -/
theorem value_stable (h : Reach (atomicCell ids adaptive) Always (init x₀) c) (t : ι)
    {c' : Config ι (Store ι α) (Pc ι α)} (h' : Reach (atomicCell ids adaptive) (Holds t) c c') :
    c'.shared.val = c.shared.val := by
  induction h' with
  | refl => rfl
  | @tail d d' l hd hok hn ih =>
    rw [← ih]
    have hG := reach_guarded (h.trans (hd.mono fun _ _ _ ↦ trivial))
    rcases hG.val_step hn with hsame | ⟨hwrites, a, hpos⟩
    · exact hsame
    · -- the writing thread has the only guard, so it is `t`
      obtain ⟨⟨ref, b, hb⟩, hnot⟩ := hok
      obtain rfl := ((hG.sole hpos).2 ref b t hb).2.2
      exact absurd ⟨rfl, hwrites⟩ hnot

end Guards

/-- Thread `1` keeps a read guard that thread `0` has sent it, and thread `0` fails to get a write
guard. -/
theorem value_stable_sent :
    ∃ c c', Reach (atomicCell SerialMutex.twoIds 4) (Holds 1)
        (c : Config (Fin 2) (Store (Fin 2) ℕ) (Pc (Fin 2) ℕ)) c' ∧
      c.shared.guards true 0 1 = 1 ∧ (c'.pcs 0).isNone ∧ c'.shared.val = c.shared.val := by
  obtain ⟨c, hc, ht⟩ := Reach.exists_of_replay (atomicCell SerialMutex.twoIds 4) Always
    (init 7 : Config (Fin 2) (Store (Fin 2) ℕ) (Pc (Fin 2) ℕ))
    [.call 0 .get, .exec 0 .go, .call 0 (.send true 0 1)]
    (fun c ↦ (c.shared.guards true 0 1 == 1) &&
      ((atomicCell SerialMutex.twoIds 4).replay (Holds 1) c
      (.call 0 .getMut :: List.replicate 3 (.exec 0 .go))).any fun c' ↦ (c'.pcs 0).isNone)
        (by decide)
  obtain ⟨hone, ht⟩ := Bool.and_eq_true_iff.1 ht
  obtain ⟨c', hc', hnone⟩ := Reach.exists_of_replay (atomicCell SerialMutex.twoIds 4) (Holds 1) c
    (.call 0 .getMut :: List.replicate 3 (.exec 0 .go)) (fun c' ↦ (c'.pcs 0).isNone) ht
  exact ⟨c, c', hc', eq_of_beq hone, hnone, value_stable hc 1 hc'⟩

/-- A `compare_exchange` of thread `0` that expects `5` finds `7` and returns its guard. -/
theorem guard_verdicts_failed :
    ∃ c s', Reach (atomicCell SerialMutex.twoIds 4) Always
        (init 7 : Config (Fin 2) (Store (Fin 2) ℕ) (Pc (Fin 2) ℕ)) c ∧
      exec SerialMutex.twoIds 4 0 .go c.shared (.casCompare 5 8) = some (s', .ret .failed) ∧
      s'.guards false 0 0 = 1 := by
  obtain ⟨c, hc, ht⟩ := Reach.exists_of_replay (atomicCell SerialMutex.twoIds 4) Always
    (init 7 : Config (Fin 2) (Store (Fin 2) ℕ) (Pc (Fin 2) ℕ))
    [.call 0 (.compareExchange 5 8), .exec 0 .go, .exec 0 .go]
    (fun c ↦ decide (c.pcs 0 = some (.casCompare 5 8)) && decide (c.shared.val ≠ 5)) (by decide)
  obtain ⟨hpc, hval⟩ := Bool.and_eq_true_iff.1 ht
  have he : exec SerialMutex.twoIds 4 0 .go c.shared (.casCompare 5 8) =
      some (c.shared.record 0 (.compareExchange 5 8) .failed, .ret .failed) := by
    simp only [exec, if_neg (of_decide_eq_true hval)]
  obtain ⟨-, -, -, -, hguard⟩ := guard_verdicts hc (of_decide_eq_true hpc) he
  exact ⟨c, _, hc, he, hguard⟩

end AtomicCell

end Crossync
