import Crossync.Interleave.Call
import Crossync.Core.SerialParking
import Crossync.Atomic.Cell

/-!
# The guards of `AtomicCell`

Seen from the lock a run of the cell is a run of `SerialMutex`, so its word accounts for the guards.
A thread at an access of the value has a guard of the right kind; a write guard is the only one, so
that what an exchange has read is still there when it writes, and the history is one of a plain
value.

## What an exchange has seen

A `compare_exchange` reads in one access and writes in another. That the value has not changed in
between is a fact about the guard, kept as an assertion of the program point: the value it holds in
hand is the value of the cell. Every access that could make it false needs a write guard, and there
is no second one.
-/

open Interleave

namespace Crossync

namespace AtomicCell

variable {ι α : Type*} [DecidableEq ι]

/-- The lock operation inside a program point. -/
def Pc.serial : Pc ι α → Option (SerialMutex.Pc ι)
  | .lock _ p | .unlock _ p => some p
  | _ => none

/-- The guard that a program point of `t` relies on: its kind and its acquirer. -/
def Pc.guard (t : ι) : Pc ι α → Option (Bool × ι)
  | .lock _ _ | .unlock _ _ => none
  | .isLocked ref a | .deref ref a | .read ref a => some (ref, a)
  | .write a _ => some (false, a)
  | _ => some (false, t)

/-- What an exchange has read and not yet replaced. -/
def Pc.saw : Pc ι α → α → Prop
  | .swapPut _ _ old, x => x = old
  | .casDerefMut current _, x | .casTake current _, x => x = current
  | .casPut current _ old, x => x = old ∧ x = current
  | _, _ => True

/-- What a call may return after the drop of a guard. -/
def Ret.plain : Ret α → Bool
  | .unit | .value _ | .ok _ => true
  | _ => false

/-- The place of a lock operation inside its method. -/
def Pc.Stage : Pc ι α → Prop
  | .lock job p => SerialMutex.phase p = .acquire job.read
  | .unlock e p => e.plain = true ∧
    ((∃ ref a, SerialMutex.phase p = .release ref a) ∨ SerialMutex.phase p = .wake)
  | _ => True

/-- What a call does to the value that stands for the cell. -/
def run [DecidableEq α] (op : Op ι α) (x : α) : Ret α × α :=
  match op with
  | .read _ _ => (.value x, x)
  | .write _ y => (.unit, y)
  | .swap y => (.value x, y)
  | .store y => (.unit, y)
  | .compareExchange current new => if x = current then (.ok x, new) else (.failed, x)
  | _ => (.unit, x)

/-! ### What an access can do

Either an access of the lock, or an access of the value by a thread with a guard for it. -/

variable [DecidableEq α]

/-- **An access outside of the lock**, with the guard it relies on there: the value moves by one
operation of the history or not at all, and the call goes on with its own write guard. -/
structure Access (t : ι) (s : Store ι α) (p : Pc ι α) (s' : Store ι α)
    (o : Outcome (Pc ι α) (Ret α)) : Prop where
  state : s'.state = s.state
  next : ∀ q, o.pc = some q → p.guard t = some (false, t) ∧
    (q.guard t = some (false, t) ∧ q.serial = none ∨ ∃ e : Ret α, e.plain = true ∧
      q = .unlock e (.unlockWrite t))
  saw : ∀ q, o.pc = some q → q.saw s'.val
  value : (s'.val = s.val ∧ s'.log = s.log) ∨
    ∃ op e, s'.log = s.log ++ [⟨t, op, e⟩] ∧ run op s.val = (e, s'.val)
  writes : s'.val ≠ s.val → ∃ a, p.guard t = some (false, a)

/-- **What an access can do**, with what the lock made of it. -/
inductive Moves (ids : SerialMutex.OwnerIds ι) (adaptive : ℕ) (t : ι) (ch : Choice ι)
    (s : Store ι α) :
    Pc ι α → Store ι α × Outcome (Pc ι α) (Ret α) → Prop where
  | locking {job p p' m} (he : SerialMutex.exec ids adaptive t ch s.state p = some (m, .goto p'))
      (hp' : SerialMutex.phase p' = .acquire job.read) :
      Moves ids adaptive t ch s (.lock job p) ({ s with state := m }, .goto (.lock job p'))
  | locked {job p m}
    (he : SerialMutex.exec ids adaptive t ch s.state p = some (m, .ret (.token (ids.id t))))
      (hm : SerialMutex.Moves s.state m job.read t t (s.state.record job.read t t + 1)) :
      Moves ids adaptive t ch s (.lock job p) ({ s with state := m }, job.begin)
  | refused {job p e} (he : SerialMutex.exec ids adaptive t ch s.state p = some (s.state, .ret e))
      (hrefused : e = .conflict ∨ e = .overflow) :
      Moves ids adaptive t ch s (.lock job p) (s, .ret .panicked)
  | unlocking {e p p' m} (he : SerialMutex.exec ids adaptive t ch s.state p = some (m, .goto p'))
      (hp' : (Pc.unlock e p' : Pc ι α).Stage) :
      Moves ids adaptive t ch s (.unlock e p) ({ s with state := m }, .goto (.unlock e p'))
  | unlocked {e p m} (he : SerialMutex.exec ids adaptive t ch s.state p = some (m, .ret .unit)) :
      Moves ids adaptive t ch s (.unlock e p) ({ s with state := m }, .ret e)
  | access {p s' o} (hp : p.serial = none) (he : exec ids adaptive t ch s p = some (s', o))
      (ha : Access t s p s' o) : Moves ids adaptive t ch s p (s', o)

section Exec

variable [Fintype ι] {ids : SerialMutex.OwnerIds ι} {adaptive : ℕ} {t : ι} {ch : Choice ι}
  {s s' : Store ι α}
  {p : Pc ι α} {o : Outcome (Pc ι α) (Ret α)}

omit [Fintype ι] in
theorem exec_access (hp : p.serial = none) (hsaw : p.saw s.val)
    (hlocked : ∀ ref a, p.guard t = some (ref, a) → guardLocked ref s.state.state = true)
    (h : exec ids adaptive t ch s p = some (s', o)) : Access t s p s' o := by
  -- nothing happens to the value, and the method goes on with its guard
  have hgo : ∀ {q : Pc ι α}, p.guard t = some (false, t) → q.guard t = some (false, t) →
    q.serial = none →
      q.saw s.val → Access t s p s (.goto q) := fun hp hq hserial hsaw ↦ by
    refine ⟨rfl, ?_, ?_, Or.inl ⟨rfl, rfl⟩, fun hne ↦ absurd rfl hne⟩
    · rintro _ ⟨⟩
      exact ⟨hp, Or.inl ⟨hq, hserial⟩⟩
    · rintro _ ⟨⟩
      exact hsaw
  have hret : ∀ {e : Ret α}, Access t s p s (.ret e) := fun {e} ↦ by
    refine ⟨rfl, ?_, ?_, Or.inl ⟨rfl, rfl⟩, fun hne ↦ absurd rfl hne⟩
    · rintro _ ⟨⟩
    · rintro _ ⟨⟩
  cases p with
  | lock | unlock => cases hp
  | isLocked ref a | deref ref a =>
    cases h
    exact hret
  | read ref a =>
    cases h
    refine ⟨rfl, ?_, ?_, Or.inr ⟨.read ref a, .value s.val, rfl, rfl⟩, fun hne ↦ absurd rfl hne⟩
    · rintro _ ⟨⟩
    · rintro _ ⟨⟩
  | write a x =>
    cases h
    refine ⟨rfl, ?_, ?_, Or.inr ⟨.write a x, .unit, rfl, rfl⟩, fun _ ↦ ⟨a, rfl⟩⟩
    · rintro _ ⟨⟩
    · rintro _ ⟨⟩
  | swapDeref quiet x =>
    simp only [exec, asserting, hlocked false t rfl, if_true] at h
    cases h
    exact hgo rfl rfl rfl trivial
  | swapTake quiet x =>
    cases h
    exact hgo rfl rfl rfl rfl
  | swapPut quiet x old =>
    obtain rfl : s.val = old := hsaw
    cases h
    refine ⟨rfl, ?_, ?_, Or.inr ⟨_, _, rfl, ?_⟩, fun _ ↦ ⟨t, rfl⟩⟩
    · rintro _ ⟨⟩
      exact ⟨rfl, Or.inr ⟨_, by cases quiet <;> rfl, rfl⟩⟩
    · rintro _ ⟨⟩
      trivial
    · cases quiet <;> rfl
  | casDeref current new =>
    simp only [exec, asserting, hlocked false t rfl, if_true] at h
    cases h
    exact hgo rfl rfl rfl trivial
  | casCompare current new =>
    simp only [exec] at h
    split_ifs at h with heq
    · cases h
      exact hgo rfl rfl rfl heq
    · cases h
      refine ⟨rfl, ?_, ?_, Or.inr ⟨.compareExchange current new, .failed, rfl, if_neg heq⟩,
        fun hne ↦ absurd rfl hne⟩
      · rintro _ ⟨⟩
      · rintro _ ⟨⟩
  | casDerefMut current new =>
    simp only [exec, asserting, hlocked false t rfl, if_true] at h
    cases h
    exact hgo rfl rfl rfl hsaw
  | casTake current new =>
    cases h
    exact hgo rfl rfl rfl ⟨rfl, hsaw⟩
  | casPut current new old =>
    obtain ⟨rfl, heq⟩ : s.val = old ∧ s.val = current := hsaw
    cases h
    refine ⟨rfl, ?_, ?_, Or.inr ⟨.compareExchange current new, .ok s.val, rfl, if_pos heq⟩,
      fun _ ↦ ⟨t, rfl⟩⟩
    · rintro _ ⟨⟩
      exact ⟨rfl, Or.inr ⟨_, rfl, rfl⟩⟩
    · rintro _ ⟨⟩
      trivial

theorem exec_moves {r : Store ι α × Outcome (Pc ι α) (Ret α)} (hE : SerialMutex.Exact ids s.state)
    (hk : ∀ q, p.serial = some q → SerialMutex.Knows ids t s.state q) (hstage : p.Stage)
    (hsaw : p.saw s.val)
    (hlocked : ∀ ref a, p.guard t = some (ref, a) → guardLocked ref s.state.state = true)
    (h : exec ids adaptive t ch s p = some r) : Moves ids adaptive t ch s p r := by
  cases p with
  | lock job q =>
    simp only [exec] at h
    cases he : SerialMutex.exec ids adaptive t ch s.state q with
    | none =>
      rw [he] at h
      cases h
    | some x =>
      obtain ⟨m, o⟩ := x
      rw [he] at h
      cases SerialMutex.exec_holds he with
      | stay q' ho hp' hkeeps =>
        subst ho
        cases h
        exact .locking he (hp'.trans hstage)
      | gain read hp ho hm =>
        obtain rfl : job.read = read := SerialMutex.Phase.acquire.inj (Eq.trans hstage.symm hp)
        subst ho
        cases h
        exact .locked he hm
      | refused read hp ho hsame =>
        subst hsame
        rcases ho with rfl | rfl
        · cases h
          exact .refused he (Or.inl rfl)
        · cases h
          exact .refused he (Or.inr rfl)
      | won hp | lost hp | drop _ _ hp | broken _ _ hp | woke hp => cases Eq.trans hstage.symm hp
  | unlock e q =>
    simp only [exec] at h
    cases he : SerialMutex.exec ids adaptive t ch s.state q with
    | none =>
      rw [he] at h
      cases h
    | some x =>
      obtain ⟨m, o⟩ := x
      rw [he] at h
      cases SerialMutex.exec_holds he with
      | stay q' ho hp' hkeeps =>
        subst ho
        cases h
        exact .unlocking he ⟨hstage.1, by rw [hp']; exact hstage.2⟩
      | drop read a hp ho hm =>
        rcases ho with rfl | ⟨q', rfl, hp'⟩
        · cases h
          exact .unlocked he
        · cases h
          exact .unlocking he ⟨hstage.1, Or.inr hp'⟩
      | broken read a hp ho =>
        subst ho
        exact absurd he (SerialMutex.exec_consistent hE (hk q rfl))
      | woke hp ho hkeeps =>
        subst ho
        cases h
        exact .unlocked he
      | gain _ hp | refused _ hp | won hp | lost hp =>
        rcases hstage.2 with ⟨_, _, hstage⟩ | hstage <;> cases Eq.trans hstage.symm hp
  | _ => exact .access rfl h (exec_access rfl hsaw hlocked h)

end Exec

/-! ### Runs

The guards of the program points and the record of the lock, together along a run. -/

/-- **What holds along every run**: the run of the lock, a guard for every access that takes one,
what exchanges have seen, and the history. -/
structure Guarded (ids : SerialMutex.OwnerIds ι) (adaptive : ℕ) (x₀ : α)
    (c : Config ι (Store ι α) (Pc ι α)) :
    Prop where
  view : Reach (SerialMutex.serialMutex ids adaptive) Always SerialMutex.init
    (c.view Store.state Pc.serial)
  owns : ∀ t p ref a, c.pcs t = some p → p.guard t = some (ref, a) → 0 < c.shared.guards ref a t
  stage : ∀ t p, c.pcs t = some p → p.Stage
  saw : ∀ t p, c.pcs t = some p → p.saw c.shared.val
  legal : Legal run x₀ c.shared.log
  value : c.shared.val = final run x₀ c.shared.log

omit [DecidableEq ι] [DecidableEq α] in
theorem stage_of_serial {p : Pc ι α} (h : p.serial = none) : p.Stage := by
  cases p with
  | lock | unlock => cases h
  | _ => trivial

omit [DecidableEq ι] [DecidableEq α] in
/-- Only a method with its own write guard has seen anything. -/
theorem saw_of_guard_ne {t : ι} {p : Pc ι α} (h : p.guard t ≠ some (false, t)) (x : α) :
    p.saw x := by
  cases p with
  | swapPut | casDerefMut | casTake | casPut => exact absurd rfl h
  | _ => trivial

section Runs

variable [Fintype ι] {ids : SerialMutex.OwnerIds ι} {adaptive : ℕ} {x₀ : α}
  {c : Config ι (Store ι α) (Pc ι α)} {t : ι} {p : Pc ι α}
    {r : Store ι α × Outcome (Pc ι α) (Ret α)}

/-- The word decodes to the live guards. -/
theorem Guarded.exact (h : Guarded ids adaptive x₀ c) : SerialMutex.Exact ids c.shared.state :=
  (SerialMutex.reach_exact h.view).1

theorem Guarded.knows (h : Guarded ids adaptive x₀ c) (hpc : c.pcs t = some p)
    {q : SerialMutex.Pc ι} (hq : p.serial = some q) : SerialMutex.Knows ids t c.shared.state q :=
  (SerialMutex.reach_exact h.view).2 t q (by rw [Config.view_pcs, hpc]; exact hq)

/-- A guard that is there is seen by its own test. -/
theorem Guarded.locked (h : Guarded ids adaptive x₀ c) {ref : Bool} {a : ι}
    (hpos : 0 < c.shared.guards ref a t) :
    guardLocked ref c.shared.state.state = true := by
  cases ref with
  | true =>
    obtain ⟨-, -, -, hcount, -⟩ := h.exact.of_reads hpos
    refine decide_eq_true fun hz ↦ ?_
    rw [SerialWord.and_countMask_eq_zero_iff] at hz
    omega
  | false =>
    obtain ⟨-, hw, -⟩ := h.exact.of_writes hpos
    refine decide_eq_true fun hz ↦ ?_
    rw [SerialWord.and_writeFlag_eq_zero_iff, hw] at hz
    cases hz

theorem Guarded.moves (h : Guarded ids adaptive x₀ c) {ch : Choice ι} (hpc : c.pcs t = some p)
    (he : exec ids adaptive t ch c.shared p = some r) : Moves ids adaptive t ch c.shared p r :=
  exec_moves h.exact (fun _ hq ↦ h.knows hpc hq) (h.stage t p hpc) (h.saw t p hpc)
    (fun ref a hg ↦ h.locked (h.owns t p ref a hpc hg)) he

/-- A step of the lock: nothing happens to the value, and no guard of another thread goes. -/
theorem Guarded.put_lock (h : Guarded ids adaptive x₀ c) {m : SerialMutex.Store ι}
    {o : Outcome (Pc ι α) (Ret α)} (hforeign : ∀ u, u ≠ t → SerialMutex.Foreign u c.shared.state m)
    (hview : Reach (SerialMutex.serialMutex ids adaptive) Always SerialMutex.init
      ((c.put t ({ c.shared with state := m }, o)).view Store.state Pc.serial))
    (hself : ∀ q, o.pc = some q →
      (∀ ref a, q.guard t = some (ref, a) → 0 < m.record ref a t) ∧ q.Stage ∧
      q.saw c.shared.val) :
    Guarded ids adaptive x₀ (c.put t ({ c.shared with state := m }, o)) := by
  refine ⟨hview, ?_, ?_, ?_, h.legal, h.value⟩
  · intro u q ref a hq hg
    by_cases hu : u = t
    · subst hu
      rw [Config.put_pcs_self] at hq
      exact (hself q hq).1 ref a hg
    · rw [Config.put_pcs_of_ne _ _ hu] at hq
      refine (h.owns u q ref a hq hg).trans_le ?_
      cases ref
      · exact (hforeign u hu).writes a
      · exact (hforeign u hu).reads a
  · exact Config.forall_put (L := fun u _ q ↦ q.Stage) (fun q hq ↦ (hself q hq).2.1) fun u q _ hq ↦
      h.stage u q hq
  · exact Config.forall_put (L := fun u s q ↦ q.saw c.shared.val) (fun q hq ↦ (hself q hq).2.2)
      fun u q _ hq ↦ h.saw u q hq

/-- An access outside of the lock. -/
theorem Guarded.put_access (h : Guarded ids adaptive x₀ c) (hpc : c.pcs t = some p)
    (hp : p.serial = none) {s' : Store ι α} {o : Outcome (Pc ι α) (Ret α)}
    (ha : Access t c.shared p s' o) :
    Guarded ids adaptive x₀ (c.put t (s', o)) := by
  have hnone : (c.pcs t).bind Pc.serial = none := by
    rw [hpc]
    exact hp
  have howns : ∀ ref a, p.guard t = some (ref, a) → 0 < s'.guards ref a t := fun ref a hg ↦ by
    rw [Store.guards, ha.state]
    exact h.owns t p ref a hpc hg
  refine ⟨?_, fun u q ref a hq hg ↦ ?_, fun u q hq ↦ ?_, fun u q hq ↦ ?_, ?_, ?_⟩
  · cases hq : o.pc with
    | none => exact h.view.view_same ha.state (by rw [hnone, hq, Option.bind_none])
    | some q =>
      obtain ⟨hguard, ⟨-, hserial⟩ | ⟨e, -, rfl⟩⟩ := ha.next q hq
      · exact h.view.view_same ha.state (by rw [hnone, hq]; exact hserial)
      · refine h.view.view_call (.unlockWrite t) (o := .goto (.unlockWrite t)) trivial hnone ?_
          (by rw [hq]; rfl)
        rw [ha.state]
        exact if_pos (h.owns t p false t hpc hguard)
  · by_cases hu : u = t
    · subst hu
      rw [Config.put_pcs_self] at hq
      obtain ⟨hguard, ⟨hg', -⟩ | ⟨e, -, rfl⟩⟩ := ha.next q hq
      · exact howns ref a (hguard.trans (hg'.symm.trans hg))
      · cases hg
    · rw [Config.put_pcs_of_ne _ _ hu] at hq
      rw [Config.put_shared, Store.guards, ha.state]
      exact h.owns u q ref a hq hg
  · by_cases hu : u = t
    · subst hu
      rw [Config.put_pcs_self] at hq
      obtain ⟨-, ⟨-, hserial⟩ | ⟨e, hplain, rfl⟩⟩ := ha.next q hq
      · exact stage_of_serial hserial
      · exact ⟨hplain, Or.inl ⟨false, u, rfl⟩⟩
    · rw [Config.put_pcs_of_ne _ _ hu] at hq
      exact h.stage u q hq
  · by_cases hu : u = t
    · subst hu
      rw [Config.put_pcs_self] at hq
      exact ha.saw q hq
    · rw [Config.put_pcs_of_ne _ _ hu] at hq
      by_cases hval : s'.val = c.shared.val
      · rw [Config.put_shared, hval]
        exact h.saw u q hq
      · -- the write guard of `t` is the only one
        obtain ⟨a, hguard⟩ := ha.writes hval
        refine saw_of_guard_ne (t := u) (fun hg ↦ hu ?_) _
        exact (h.exact.unique_writer (h.owns u q false u hq hg) (h.owns t p false a hpc hguard)).2.1
  · rcases ha.value with ⟨-, hlog⟩ | ⟨op, e, hlog, hrun⟩
    · rw [Config.put_shared, hlog]
      exact h.legal
    · rw [Config.put_shared, hlog]
      refine h.legal.concat ?_
      rw [← h.value, hrun]
  · rcases ha.value with ⟨hval, hlog⟩ | ⟨op, e, hlog, hrun⟩
    · rw [Config.put_shared, hval, hlog]
      exact h.value
    · rw [Config.put_shared, hlog, final_concat, ← h.value, hrun]

theorem Guarded.exec (h : Guarded ids adaptive x₀ c) {ch : Choice ι} (hpc : c.pcs t = some p)
    (he : AtomicCell.exec ids adaptive t ch c.shared p = some r) :
    Guarded ids adaptive x₀ (c.put t r) := by
  have hforeign : ∀ {q : SerialMutex.Pc ι} {m : SerialMutex.Store ι} {o},
      p.serial = some q → SerialMutex.exec ids adaptive t ch c.shared.state q = some (m, o) →
        ∀ u, u ≠ t → SerialMutex.Foreign u c.shared.state m := fun hq hx u hu ↦
    (SerialMutex.exec_word h.exact (h.knows hpc hq) hx).foreign hu
  cases h.moves hpc he with
  | locking hx hp' =>
    refine h.put_lock (hforeign rfl hx) (h.view.view_exec ch trivial hpc rfl hx rfl) ?_
    rintro _ ⟨⟩
    refine ⟨?_, hp', trivial⟩
    rintro _ _ ⟨⟩
  | @locked job q m hx hm =>
    have hpos : ∀ ref a, job.read = false → some (false, t) = some (ref, a) →
        0 < m.record ref a t := by
      rintro _ _ hread ⟨⟩
      rw [hm.record_eq, hread, if_pos ⟨rfl, rfl, rfl⟩]
      exact Nat.succ_pos _
    refine h.put_lock (hforeign rfl hx) (h.view.view_exec ch trivial hpc rfl hx ?_) ?_
    · cases job <;> rfl
    · cases job with
      | get | getMut => rintro _ ⟨⟩
      | swap x | store x | compareExchange current new =>
        rintro _ ⟨⟩
        exact ⟨fun ref a ↦ hpos ref a rfl, trivial, trivial⟩
  | refused hx =>
    refine h.put_lock (hforeign rfl hx) (h.view.view_exec ch trivial hpc rfl hx rfl) ?_
    rintro _ ⟨⟩
  | unlocking hx hp' =>
    refine h.put_lock (hforeign rfl hx) (h.view.view_exec ch trivial hpc rfl hx rfl) ?_
    rintro _ ⟨⟩
    refine ⟨?_, hp', trivial⟩
    rintro _ _ ⟨⟩
  | unlocked hx =>
    refine h.put_lock (hforeign rfl hx) (h.view.view_exec ch trivial hpc rfl hx rfl) ?_
    rintro _ ⟨⟩
  | access hp he ha => exact h.put_access hpc hp ha

/-- What the start of a call can do: enter the lock, be about to use or drop a guard, or hand one
over. -/
inductive Starts (t : ι) (s : Store ι α) : Store ι α × Outcome (Pc ι α) (Ret α) → Prop where
  | locks (job : Job α) : Starts t s (s, .goto (.lock job (.lockFast job.read)))
  | uses (q : Pc ι α) (hq : q.serial = none) (hsaw : ∀ x, q.saw x)
      (hg : ∀ ref a, q.guard t = some (ref, a) → 0 < s.guards ref a t) : Starts t s (s, .goto q)
  | drops (ref : Bool) (a : ι) (hpos : 0 < s.guards ref a t) :
      Starts t s (s, .goto (.unlock .unit (if ref then .unlockReadFast a else .unlockWrite a)))
  | sends (op : SerialMutex.Op ι) {m e} (he : SerialMutex.enter t op s.state = some (m, .ret e)) :
      Starts t s ({ s with state := m }, .ret .unit)

omit [DecidableEq α] [Fintype ι] in
theorem enter_starts {op : Op ι α} {s : Store ι α} (h : AtomicCell.enter t op s = some r) :
    Starts t s r := by
  cases op with
  | get | getMut | swap x | store x | compareExchange current new =>
    cases h
    first
      | exact .locks .get
      | exact .locks .getMut
      | exact .locks (.swap _)
      | exact .locks (.store _)
      | exact .locks (.compareExchange _ _)
  | isLocked ref a | deref ref a | read ref a | write a x =>
    simp only [AtomicCell.enter] at h
    split_ifs at h with hpos
    cases h
    refine .uses _ rfl (fun _ ↦ trivial) ?_
    rintro _ _ ⟨⟩
    exact hpos
  | drop ref a =>
    by_cases hpos : 0 < s.guards ref a t
    · rw [AtomicCell.enter, if_pos hpos] at h
      cases h
      exact .drops ref a hpos
    · rw [AtomicCell.enter, if_neg hpos] at h
      cases h
  | send ref a u =>
    obtain ⟨x, hx, rfl⟩ := Option.map_eq_some_iff.1 h
    obtain ⟨m, o⟩ := x
    refine .sends (if ref then .sendRead a u else .sendWrite a u) (e := .unit) ?_
    cases ref with
    | true | false =>
      simp only [if_true, Bool.false_eq_true, if_false, SerialMutex.enter] at hx ⊢
      split_ifs at hx ⊢
      cases hx
      rfl

theorem Guarded.enter (h : Guarded ids adaptive x₀ c) {op : Op ι α} (hpc : c.pcs t = none)
    (he : AtomicCell.enter t op c.shared = some r) : Guarded ids adaptive x₀ (c.put t r) := by
  have hnone : (c.pcs t).bind Pc.serial = none := by rw [hpc, Option.bind_none]
  have hrefl : ∀ u, u ≠ t → SerialMutex.Foreign u c.shared.state c.shared.state :=
    fun u _ ↦ .refl u _
  cases enter_starts he with
  | locks job =>
    refine h.put_lock hrefl ?_ ?_
    · cases job with
      | get => exact h.view.view_call .lockRead (o := .goto (.lockFast true)) trivial hnone rfl rfl
      | _ => exact h.view.view_call .lockWrite (o := .goto (.lockFast false)) trivial hnone rfl rfl
    · rintro _ ⟨⟩
      refine ⟨?_, rfl, trivial⟩
      rintro _ _ ⟨⟩
  | uses q hq hsaw hg =>
    refine h.put_lock hrefl (h.view.view_same rfl (hq.trans hnone.symm)) ?_
    rintro _ ⟨⟩
    exact ⟨hg, stage_of_serial hq, hsaw _⟩
  | drops ref a hpos =>
    refine h.put_lock hrefl ?_ ?_
    · cases ref with
      | true =>
        exact h.view.view_call (.unlockRead a) (o := .goto (.unlockReadFast a)) trivial hnone
          (if_pos hpos) rfl
      | false =>
        exact h.view.view_call (.unlockWrite a) (o := .goto (.unlockWrite a)) trivial hnone
          (if_pos hpos) rfl
    · rintro _ ⟨⟩
      refine ⟨?_, ⟨rfl, Or.inl ⟨ref, a, by cases ref <;> rfl⟩⟩, trivial⟩
      rintro _ _ ⟨⟩
  | @sends op m e hx =>
    obtain ⟨-, -, -, -, hforeign, -⟩ := SerialMutex.enter_spec ids hx
    refine h.put_lock hforeign (h.view.view_call op trivial hnone hx rfl) ?_
    rintro _ ⟨⟩

theorem reach_guarded {ok : Config ι (Store ι α) (Pc ι α) → Label ι (Op ι α) → Prop}
    (h : Reach (atomicCell ids adaptive) ok (init x₀) c) : Guarded ids adaptive x₀ c := by
  refine h.invariant ?_ ?_ ?_
  · refine ⟨.refl, ?_, ?_, ?_, trivial, rfl⟩
    · intro t p ref a hp
      cases hp
    · intro t p hp
      cases hp
    · intro t p hp
      cases hp
  · exact fun c t op r _ hI _ hpc he ↦ hI.enter hpc he
  · exact fun c t ch p r _ hI _ hpc he ↦ hI.exec hpc he

end Runs

end AtomicCell

end Crossync
