import Crossync.Core.SerialParking
import Crossync.Atomic.Atomic

/-!
# The guards of `Atomic`

Which guards a thread has at every program point of a method: those of the closures that wait for a
call back, and the one of the closure that runs (`Pc.guards`). They are exactly the live guards that
the lock records for the thread (`Locks`), so what the lock guarantees about its guards becomes a
statement about closures:

* only one thread has any guard at a time (`Locks.alone`);
* a call back takes effect only under shared references, and panics exactly when it is not admitted
  (`Locks.admitted`, `Locks.refused`).

## Two kinds of nesting

A call back under a read guard may ask for a read guard, and gets one as long as the count has room;
anything else panics in the lock before it waits. So the stack of a thread has shared frames only,
except for the innermost one, and `Nested` is the invariant. The panic of a refused call is
delivered to the closure that made it, which may catch it, and in either case every frame that is
left releases its own guard.
-/

open Interleave

namespace Crossync

namespace Atomic

universe u v

variable {ι : Type*} {α : Type u} {ρ : Type v} [DecidableEq ι]

/-- `COUNT`, the most read guards one thread can have. -/
def limit : ℕ := 2 ^ 30 - 1

/-! ### The guards of a program point

Each closure on the stack has the guard it was called under, and the method in progress may have one
more. -/

/-- The guards of one kind while a closure runs and those of `st` wait. -/
def running (read : Bool) (st : List (Frame α ρ)) (kind : Bool) : ℕ :=
  if kind = read then (if read then st.length + 1 else 1) else 0

/-- The guards of one kind while the closures of `st` wait. -/
def waiting : List (Frame α ρ) → Bool → ℕ
  | [], _ => 0
  | fr :: st, kind => running fr.read st kind

/-- The guards of one kind at a program point. -/
def Pc.guards (kind : Bool) : Pc ι α ρ → ℕ
  | .lock _ _ _ st => waiting st kind
  | .get read _ st => running read st kind
  | .set _ _ st => running false st kind
  | .unlock p read _ st => if SerialMutex.phase p = .wake then waiting st kind
    else running read st kind

/-- The guards of a thread, which has none outside. -/
def held (kind : Bool) (q : Option (Pc ι α ρ)) : ℕ := q.elim 0 (Pc.guards kind)

/-- The closures that wait are nested. -/
def Waits : List (Frame α ρ) → Prop
  | [] => True
  | fr :: st => Nested fr.read st

/-- Nested closures wait for the call back. -/
theorem Waits.of_nested {read : Bool} {st : List (Frame α ρ)} (h : Nested read st) : Waits st := by
  cases st with
  | nil => trivial
  | cons fr st =>
    exact ⟨fun fr' hfr ↦ h.1 fr' (List.mem_cons_of_mem _ hfr), fun _ ↦ h.1 fr List.mem_cons_self⟩

/-- A section with no closure inside is nested. -/
theorem nested_nil (read : Bool) : Nested read ([] : List (Frame α ρ)) :=
  ⟨fun _ h ↦ absurd h List.not_mem_nil, fun h ↦ absurd rfl h⟩

/-- A closure that runs has one guard more than those that wait for it. -/
theorem running_eq {read : Bool} {st : List (Frame α ρ)} (h : Nested read st) (kind : Bool) :
    running read st kind = waiting st kind + if kind = read then 1 else 0 := by
  cases st with
  | nil => cases read <;> simp [running, waiting]
  | cons fr st =>
    obtain rfl : read = true := h.2 (List.cons_ne_nil _ _)
    have hfr : fr.read = true := h.1 fr List.mem_cons_self
    cases kind <;> simp [running, waiting, hfr]

/-- What is known of a program point by its place in the code. -/
def Pc.Sound (t : ι) : Pc ι α ρ → Prop
  | .lock p read _ st => SerialMutex.phase p = .acquire read ∧ Waits st
  | .get read _ st => Nested read st
  | .set _ _ st => Nested false st
  | .unlock p read _ st => (SerialMutex.phase p = .release read t ∨ SerialMutex.phase p = .wake) ∧
    Nested read st

/-- The lock operation inside a program point. -/
def Pc.serial : Pc ι α ρ → Option (SerialMutex.Pc ι)
  | .lock p _ _ _ | .unlock p _ _ _ => some p
  | _ => none

omit [DecidableEq ι] in
/-- The drop of a closure's guard is a release from its first access. -/
theorem phase_dropGuard (t : ι) (read : Bool) :
    SerialMutex.phase (dropGuard t read) = .release read t := by
  cases read <;> rfl

/-- Running a closure needs its guard, besides those of the closures that wait. -/
theorem guards_next (t : ι) {read : Bool} (f : Closure α ρ read) (st : List (Frame α ρ))
    (kind : Bool) :
    (next t f st).guards kind = running read st kind := by
  cases f with
  | ret r | panic => simp [next, Pc.guards, phase_dropGuard]
  | get k | set x k | call inner g k => rfl

omit [DecidableEq ι] in
/-- A closure that runs has the guards that its place in the stack asks for. -/
theorem sound_next (t : ι) {read : Bool} (f : Closure α ρ read) {st : List (Frame α ρ)}
    (h : Nested read st) :
    (next t f st).Sound t := by
  cases f with
  | ret r | panic => exact ⟨Or.inl (phase_dropGuard t read), h⟩
  | get k | set x k => exact h
  | call inner g k => exact ⟨rfl, h⟩

/-- When a closure returns, the guards of the ones that wait are left. -/
theorem held_resume (t : ι) (r : Option ρ) (st : List (Frame α ρ)) (kind : Bool) :
    held kind (resume t r st).pc = waiting st kind := by
  cases st with
  | nil => rfl
  | cons fr st => exact guards_next t (fr.k r) st kind

omit [DecidableEq ι] in
/-- Going on with the closure that waited, the thread has the guards for it. -/
theorem sound_resume (t : ι) (r : Option ρ) {st : List (Frame α ρ)} (h : Waits st) :
    ∀ q, (resume t r st).pc = some q → q.Sound t := by
  intro q hq
  cases st with
  | nil => cases hq
  | cons fr st =>
    cases hq
    exact sound_next t (fr.k r) h

/-! ### Logging a section

The log and the record of calls are beside the lock and the value, so a step that only logs changes
nothing that the lock or a closure sees. -/

section Settle

variable (t : ι) (s : Store ι α ρ) (o : Outcome (Pc ι α ρ) (Option ρ))

omit [DecidableEq ι] in
@[simp] theorem commit_mutex (r : Option ρ) : (s.commit t r).mutex = s.mutex := by
  unfold Store.commit
  split <;> rfl

omit [DecidableEq ι] in
@[simp] theorem commit_value (r : Option ρ) : (s.commit t r).value = s.value := by
  unfold Store.commit
  split <;> rfl

omit [DecidableEq ι] in
@[simp] theorem commit_called (r : Option ρ) : (s.commit t r).called = s.called := by
  unfold Store.commit
  split <;> rfl

omit [DecidableEq ι] in
@[simp] theorem settle_snd : (settle t s o).2 = o := by
  unfold settle
  split <;> rfl

omit [DecidableEq ι] in
@[simp] theorem settle_mutex : (settle t s o).1.mutex = s.mutex := by
  unfold settle
  split <;> simp

omit [DecidableEq ι] in
@[simp] theorem settle_value : (settle t s o).1.value = s.value := by
  unfold settle
  split <;> simp

omit [DecidableEq ι] in
@[simp] theorem settle_called : (settle t s o).1.called = s.called := by
  unfold settle
  split <;> simp

end Settle

/-! ### What an access can do

The accesses of a method from the point of view of the lock. -/

/-- **What an access of a method can do**, with what the lock made of it. -/
inductive Moves (ids : SerialMutex.OwnerIds ι) (adaptive : ℕ) (t : ι) (ch : Choice ι)
    (s : Store ι α ρ) :
    Pc ι α ρ → Store ι α ρ × Outcome (Pc ι α ρ) (Option ρ) → Prop where
  | locking {p p' read f st m}
    (he : SerialMutex.exec ids adaptive t ch s.mutex p = some (m, .goto p'))
      (hp : SerialMutex.phase p = .acquire read) (hp' : SerialMutex.phase p' = .acquire read)
      (hk : SerialMutex.Keeps s.mutex m) :
      Moves ids adaptive t ch s (.lock p read f st)
        ({ s with mutex := m }, .goto (.lock p' read f st))
  | locked {p read f st m}
    (he : SerialMutex.exec ids adaptive t ch s.mutex p = some (m, .ret (.token (ids.id t))))
      (hp : SerialMutex.phase p = .acquire read)
      (hm : SerialMutex.Moves s.mutex m read t t (s.mutex.record read t t + 1)) :
      Moves ids adaptive t ch s (.lock p read f st)
        (settle t { s with mutex := m } (.goto (next t f st)))
  | refused {p read f st e}
    (he : SerialMutex.exec ids adaptive t ch s.mutex p = some (s.mutex, .ret e))
      (hp : SerialMutex.phase p = .acquire read) (hrefused : e = .conflict ∨ e = .overflow) :
      Moves ids adaptive t ch s (.lock p read f st) (settle t s (resume t none st))
  | reads {read k st} : Moves ids adaptive t ch s (.get read k st)
    (settle t s (.goto (next t (k s.value) st)))
  | writes {x k st} :
      Moves ids adaptive t ch s (.set x k st) (settle t { s with value := x } (.goto (next t k st)))
  | unlocking {p p' read r st m}
    (he : SerialMutex.exec ids adaptive t ch s.mutex p = some (m, .goto p'))
      (hp' : SerialMutex.phase p' = SerialMutex.phase p) (hk : SerialMutex.Keeps s.mutex m) :
      Moves ids adaptive t ch s (.unlock p read r st)
        ({ s with mutex := m }, .goto (.unlock p' read r st))
  | releases {p p' read r st m}
    (he : SerialMutex.exec ids adaptive t ch s.mutex p = some (m, .goto p'))
      (hp : SerialMutex.phase p = .release read t) (hp' : SerialMutex.phase p' = .wake)
      (hm : SerialMutex.Moves s.mutex m read t t (s.mutex.record read t t - 1)) :
      Moves ids adaptive t ch s (.unlock p read r st)
        ({ s with mutex := m }, .goto (.unlock p' read r st))
  | released {p read r st m}
    (he : SerialMutex.exec ids adaptive t ch s.mutex p = some (m, .ret .unit))
      (hp : SerialMutex.phase p = .release read t)
      (hm : SerialMutex.Moves s.mutex m read t t (s.mutex.record read t t - 1)) :
      Moves ids adaptive t ch s (.unlock p read r st)
        (settle t { s with mutex := m } (resume t r st))
  | woke {p read r st m} (he : SerialMutex.exec ids adaptive t ch s.mutex p = some (m, .ret .unit))
      (hp : SerialMutex.phase p = .wake) (hk : SerialMutex.Keeps s.mutex m) :
      Moves ids adaptive t ch s (.unlock p read r st)
        (settle t { s with mutex := m } (resume t r st))

section Access

variable [Fintype ι] {ids : SerialMutex.OwnerIds ι} {adaptive : ℕ} {t : ι} {ch : Choice ι}
  {s : Store ι α ρ}
  {p : Pc ι α ρ} {r : Store ι α ρ × Outcome (Pc ι α ρ) (Option ρ)}

/-- Every access is one of the moves. -/
theorem exec_moves (hE : SerialMutex.Exact ids s.mutex)
    (hk : ∀ q, p.serial = some q → SerialMutex.Knows ids t s.mutex q) (hs : p.Sound t)
    (h : exec ids adaptive t ch s p = some r) : Moves ids adaptive t ch s p r := by
  cases p with
  | lock q read f st =>
    obtain ⟨hphase, -⟩ := hs
    simp only [exec] at h
    cases he : SerialMutex.exec ids adaptive t ch s.mutex q with
    | none =>
      rw [he] at h
      cases h
    | some x =>
      obtain ⟨m, o⟩ := x
      rw [he] at h
      cases SerialMutex.exec_holds he with
      | stay q' ho hp' hkeeps =>
        subst ho
        cases h
        exact .locking he hphase (hp'.trans hphase) hkeeps
      | gain read' hp ho hm =>
        obtain rfl : read = read' := SerialMutex.Phase.acquire.inj (hphase.symm.trans hp)
        subst ho
        cases h
        exact .locked he hphase hm
      | refused read' hp ho hsame =>
        subst hsame
        rcases ho with rfl | rfl
        · cases h
          exact .refused he hphase (Or.inl rfl)
        · cases h
          exact .refused he hphase (Or.inr rfl)
      | won hp | lost hp | drop _ _ hp | broken _ _ hp | woke hp => cases hphase.symm.trans hp
  | get read k st =>
    cases h
    exact .reads
  | set x k st =>
    cases h
    exact .writes
  | unlock q read e st =>
    obtain ⟨hphase, -⟩ := hs
    simp only [exec] at h
    cases he : SerialMutex.exec ids adaptive t ch s.mutex q with
    | none =>
      rw [he] at h
      cases h
    | some x =>
      obtain ⟨m, o⟩ := x
      rw [he] at h
      cases SerialMutex.exec_holds he with
      | stay q' ho hp' hkeeps =>
        subst ho
        cases h
        exact .unlocking he hp' hkeeps
      | drop read' a hp ho hm =>
        have hrel : SerialMutex.phase q = .release read t :=
          hphase.resolve_right fun hw ↦ by cases hw.symm.trans hp
        cases hrel.symm.trans hp
        rcases ho with rfl | ⟨q', rfl, hp'⟩
        · cases h
          exact .released he hrel hm
        · cases h
          exact .releases he hrel hp' hm
      | broken read' a hp ho =>
        subst ho
        exact absurd he (SerialMutex.exec_consistent hE (hk q rfl))
      | woke hp ho hkeeps =>
        subst ho
        cases h
        exact .woke he hp hkeeps
      | gain _ hp | refused _ hp | won hp | lost hp =>
        rcases hphase with hphase | hphase <;> cases hphase.symm.trans hp

end Access

/-! ### The invariant

The lock's record of live guards is the sum of what the program points of the threads say. -/

/-- **The closures and the lock agree.** Seen from the lock, a run is a run of the lock; the guards
it records are those of the closures, each acquired by the thread that has it. -/
structure Locks (ids : SerialMutex.OwnerIds ι) (adaptive : ℕ)
    (c : Config ι (Store ι α ρ) (Pc ι α ρ)) :
    Prop where
  view : Reach (SerialMutex.serialMutex ids adaptive) Always SerialMutex.init
    (c.view Store.mutex Pc.serial)
  record : ∀ kind a t, c.shared.mutex.record kind a t = if a = t then held kind (c.pcs t) else 0
  sound : ∀ t q, c.pcs t = some q → q.Sound t

/-- The lock operation of `t` starts over, or there is none. -/
def Starts (t : ι) (m : SerialMutex.Store ι) (q : Option (SerialMutex.Pc ι)) : Prop :=
  q = none ∨ ∃ op p', q = some p' ∧ SerialMutex.enter t op m = some (m, .goto p')

/-- Running a closure starts from what the lock has on record. -/
theorem starts_next {t : ι} {m : SerialMutex.Store ι} {read : Bool} (f : Closure α ρ read)
    {st : List (Frame α ρ)} (hm : ∀ kind, m.record kind t t = running read st kind) :
    Starts t m (next t f st).serial := by
  have hpos : 0 < m.record read t t := by
    rw [hm, running, if_pos rfl]
    split_ifs <;> omega
  have hdrop : Starts t m (some (dropGuard t read)) := by
    refine Or.inr ?_
    cases read with
    | true => exact ⟨.unlockRead t, _, rfl, if_pos hpos⟩
    | false => exact ⟨.unlockWrite t, _, rfl, if_pos hpos⟩
  cases f with
  | ret r | panic => exact hdrop
  | get k | set x k => exact Or.inl rfl
  | call inner g k =>
    cases inner with
    | true => exact Or.inr ⟨.lockRead, _, rfl, rfl⟩
    | false => exact Or.inr ⟨.lockWrite, _, rfl, rfl⟩

/-- Going on with a closure that waited starts from what the lock has on record. -/
theorem starts_resume {t : ι} {m : SerialMutex.Store ι} (r : Option ρ) {st : List (Frame α ρ)}
    (hm : ∀ kind, m.record kind t t = waiting st kind) :
    Starts t m ((resume t r st).pc.bind Pc.serial) := by
  cases st with
  | nil => exact Or.inl rfl
  | cons fr st => exact starts_next (fr.k r) hm

section Invariant

variable [Fintype ι] {ids : SerialMutex.OwnerIds ι} {adaptive : ℕ}
  {c : Config ι (Store ι α ρ) (Pc ι α ρ)}
  {t : ι} {p : Pc ι α ρ} {r : Store ι α ρ × Outcome (Pc ι α ρ) (Option ρ)}

/-- The word decodes to the live guards, and every thread inside the lock knows what it has seen. -/
theorem Locks.exact (h : Locks ids adaptive c) :
    SerialMutex.Exact ids c.shared.mutex ∧
      ∀ t p q, c.pcs t = some p → p.serial = some q → SerialMutex.Knows ids t c.shared.mutex q := by
  obtain ⟨hE, hk⟩ := SerialMutex.reach_exact h.view
  exact ⟨hE, fun t p q hp hq ↦ hk t q (by rw [Config.view_pcs, hp]; exact hq)⟩

omit [Fintype ι] in
/-- The guards of a thread are those the lock has recorded for it. -/
theorem Locks.record_self (h : Locks ids adaptive c) (hpc : c.pcs t = some p) (kind : Bool) :
    c.shared.mutex.record kind t t = p.guards kind := by
  rw [h.record, if_pos rfl, hpc]
  rfl

omit [Fintype ι] in
/-- The record after a step of `t` that moves no guard of the others. -/
theorem Locks.record_put (h : Locks ids adaptive c)
    (hself : ∀ kind, r.1.mutex.record kind t t = held kind r.2.pc)
    (hother : ∀ kind a u, ¬ (a = t ∧ u = t) → r.1.mutex.record kind a u =
      c.shared.mutex.record kind a u)
    (kind : Bool) (a u : ι) :
    (c.put t r).shared.mutex.record kind a u = if a = u then held kind ((c.put t r).pcs u)
      else 0 := by
  by_cases hu : u = t
  · subst hu
    by_cases ha : a = u
    · subst ha
      rw [if_pos rfl, Config.put_pcs_self]
      exact hself kind
    · rw [if_neg ha, Config.put_shared, hother kind a u fun hau ↦ ha hau.1, h.record, if_neg ha]
  · rw [Config.put_pcs_of_ne _ _ hu, Config.put_shared,
      hother kind a u fun hau ↦ hu hau.2, h.record]

omit [Fintype ι] in
/-- After a step every thread still stands where its guards allow it. -/
theorem Locks.sound_put (h : Locks ids adaptive c)
    (hself : ∀ q, r.2.pc = some q → q.Sound t) (u : ι) (q : Pc ι α ρ)
    (hq : (c.put t r).pcs u = some q) : q.Sound u := by
  by_cases hu : u = t
  · subst hu
    exact hself q (by rwa [Config.put_pcs_self] at hq)
  · rw [Config.put_pcs_of_ne _ _ hu] at hq
    exact h.sound u q hq

omit [Fintype ι] in
/-- A step that ends an operation of the lock. -/
theorem Locks.view_end (h : Locks ids adaptive c) (hpc : c.pcs t = some p) {q : SerialMutex.Pc ι}
    (hq : p.serial = some q) {ch : Choice ι} {e : SerialMutex.Ret}
    (he : SerialMutex.exec ids adaptive t ch c.shared.mutex q = some (r.1.mutex, .ret e))
    (hnext : Starts t r.1.mutex (r.2.pc.bind Pc.serial)) :
    Reach (SerialMutex.serialMutex ids adaptive) Always SerialMutex.init
      ((c.put t r).view Store.mutex Pc.serial) := by
  rcases hnext with hnone | ⟨op, p', hp', henter⟩
  · exact h.view.view_exec ch trivial hpc hq he hnone.symm
  · exact h.view.view_exec_call ch op trivial trivial hpc hq he henter hp'.symm

omit [Fintype ι] in
/-- A step outside of the lock. -/
theorem Locks.view_access (h : Locks ids adaptive c) (hpc : c.pcs t = some p) (hp : p.serial = none)
    (hm : r.1.mutex = c.shared.mutex) (hnext : Starts t r.1.mutex (r.2.pc.bind Pc.serial)) :
    Reach (SerialMutex.serialMutex ids adaptive) Always SerialMutex.init
      ((c.put t r).view Store.mutex Pc.serial) := by
  have hnone : (c.pcs t).bind Pc.serial = none := by
    rw [hpc]
    exact hp
  rcases hnext with hnext | ⟨op, p', hp', henter⟩
  · exact h.view.view_same hm (hnext.trans hnone.symm)
  · refine h.view.view_call op (o := .goto p') trivial hnone ?_ hp'.symm
    rwa [hm] at henter ⊢

/-- **Nesting.** An acquisition takes effect only for a closure that is nested in those that wait,
and only if the lock has room for one more guard. -/
theorem Locks.admitted (h : Locks ids adaptive c) {q : SerialMutex.Pc ι} {read : Bool}
    {f : Closure α ρ read} {st : List (Frame α ρ)} (hpc : c.pcs t = some (.lock q read f st))
    {ch : Choice ι} {m : SerialMutex.Store ι}
    (he : SerialMutex.exec ids adaptive t ch c.shared.mutex q =
      some (m, .ret (.token (ids.id t)))) :
    Nested read st ∧ st.length < limit := by
  obtain ⟨hE, hk⟩ := h.exact
  obtain ⟨hphase, hwaits⟩ := h.sound t _ hpc
  have hrec := h.record_self hpc
  rcases SerialMutex.exec_token (hk t _ q hpc rfl) hphase he with hfree | ⟨rfl, hown, hwr, hmax⟩
  · -- no guard is live, so no closure waits
    obtain ⟨hr, hx⟩ := hE.guards_of_zero hfree
    cases st with
    | nil => exact ⟨nested_nil read, by norm_num [limit]⟩
    | cons fr st =>
      have hzero : c.shared.mutex.record fr.read t t = 0 := by
        cases fr.read with
        | true => exact Nat.eq_zero_of_le_zero ((le_tally _ t).trans_eq (hr t))
        | false => exact Nat.eq_zero_of_le_zero ((le_tally _ t).trans_eq (hx t))
      rw [hrec] at hzero
      simp only [Pc.guards, waiting, running, if_true] at hzero
      split_ifs at hzero
  · -- the live guards are read guards of the thread
    cases st with
    | nil => exact ⟨nested_nil true, by norm_num [limit]⟩
    | cons fr st =>
      have hpos : 0 < c.shared.mutex.record fr.read t t := by
        rw [hrec]
        simp only [Pc.guards, waiting, running, if_true]
        split_ifs <;> omega
      have hfr : fr.read = true := by
        by_contra hne
        rw [Bool.not_eq_true] at hne
        rw [hne] at hpos
        have := (hE.of_writes hpos).2.1
        rw [hwr] at this
        cases this
      rw [hfr] at hpos
      obtain ⟨-, -, hcount, -, -, -⟩ := hE.of_reads hpos
      have hle := (le_tally (c.shared.mutex.reads t) t).trans_eq hcount.symm
      have hlt := SerialWord.readers_lt c.shared.mutex.state
      have hself : c.shared.mutex.reads t t = (fr :: st).length := by
        refine (hrec true).trans ?_
        simp [Pc.guards, waiting, running, hfr]
      refine ⟨⟨fun fr' hmem ↦ ?_, fun _ ↦ rfl⟩, ?_⟩
      · rcases List.mem_cons.1 hmem with rfl | hmem
        · exact hfr
        · exact hwaits.1 fr' hmem
      · rw [limit]
        omega

/-- Every guard acquired by a thread is with that thread. -/
theorem Locks.tally_record (h : Locks ids adaptive c) (kind : Bool) (a : ι) :
    tally (c.shared.mutex.record kind a) = held kind (c.pcs a) := by
  rw [tally_eq_of_forall_ne fun u hu ↦ by rw [h.record, if_neg (Ne.symm hu)], h.record, if_pos rfl]

/-- **Refusal.** An acquisition panics only for a call back, and only for one that is not
admitted. -/
theorem Locks.refused (h : Locks ids adaptive c) {q : SerialMutex.Pc ι} {read : Bool}
    {f : Closure α ρ read} {st : List (Frame α ρ)} (hpc : c.pcs t = some (.lock q read f st))
    {ch : Choice ι} {m : SerialMutex.Store ι} {e : SerialMutex.Ret}
    (hrefused : e = .conflict ∨ e = .overflow)
    (he : SerialMutex.exec ids adaptive t ch c.shared.mutex q = some (m, .ret e)) :
    ∃ fr st', st = fr :: st' ∧ ¬ Closure.Admits limit st.length fr.read read := by
  obtain ⟨hE, -⟩ := h.exact
  obtain ⟨hphase, -⟩ := h.sound t _ hpc
  obtain ⟨-, hown, hnot⟩ := SerialMutex.exec_refused hphase hrefused he
  have hrec := h.record_self hpc
  cases st with
  | nil =>
    have hpos := hE.guards_of_own hown
    have hr := h.tally_record true t
    have hx := h.tally_record false t
    rw [hpc] at hr hx
    simp only [SerialMutex.Store.record, if_true, Bool.false_eq_true, if_false] at hr hx
    simp only [held, Option.elim_some, Pc.guards, waiting] at hr hx
    omega
  | cons fr st =>
    refine ⟨fr, st, rfl, fun hadmits ↦ ?_⟩
    obtain ⟨hfr, hread, hlt⟩ := hadmits
    refine hnot ⟨hread, ?_⟩
    have hself : c.shared.mutex.reads t t = (fr :: st).length := by
      refine (hrec true).trans ?_
      simp [Pc.guards, waiting, running, hfr]
    have hpos : 0 < c.shared.mutex.reads t t := by
      rw [hself]
      exact Nat.succ_pos _
    obtain ⟨-, hwr, hcount, -⟩ := hE.of_reads hpos
    refine ⟨hwr, ?_⟩
    have htally : tally (c.shared.mutex.reads t) = c.shared.mutex.reads t t := by
      have := (h.tally_record true t).trans ((h.record true t t).trans (if_pos rfl)).symm
      exact this
    rw [limit] at hlt
    omega

omit [Fintype ι] in
/-- After the release of its guard a closure has left those that wait for it. -/
theorem drop_record {m m' : SerialMutex.Store ι} {q : SerialMutex.Pc ι} {read : Bool} {e : Option ρ}
    {st : List (Frame α ρ)} (hn : Nested read st) (hp : SerialMutex.phase q = .release read t)
    (hrec : ∀ kind, m.record kind t t = (Pc.unlock q read e st : Pc ι α ρ).guards kind)
    (hm : SerialMutex.Moves m m' read t t (m.record read t t - 1)) (kind : Bool) :
    m'.record kind t t = waiting st kind := by
  have hrun : ∀ kind, m.record kind t t = running read st kind := by
    intro kind
    rw [hrec, Pc.guards, if_neg (by rw [hp]; intro hc; cases hc)]
  rw [hm.record_eq]
  have heq := running_eq hn
  by_cases hkind : kind = read
  · subst hkind
    rw [if_pos ⟨rfl, rfl, rfl⟩, hrun, heq, if_pos rfl, Nat.add_sub_cancel]
  · rw [if_neg fun hc ↦ hkind hc.1, hrun, heq, if_neg hkind, Nat.add_zero]

omit [Fintype ι] in
/-- A step that ends an operation of the lock keeps the agreement. -/
theorem Locks.ends (h : Locks ids adaptive c) (hpc : c.pcs t = some p) {q : SerialMutex.Pc ι}
    (hq : p.serial = some q) {ch : Choice ι} {e : SerialMutex.Ret} {s' : Store ι α ρ}
    {o : Outcome (Pc ι α ρ) (Option ρ)}
    (he : SerialMutex.exec ids adaptive t ch c.shared.mutex q = some (s'.mutex, .ret e))
    (hself : ∀ kind, s'.mutex.record kind t t = held kind o.pc)
    (hother : ∀ kind a u, ¬ (a = t ∧ u = t) → s'.mutex.record kind a u =
      c.shared.mutex.record kind a u)
    (hnext : Starts t s'.mutex (o.pc.bind Pc.serial)) (hsound : ∀ q, o.pc = some q → q.Sound t) :
    Locks ids adaptive (c.put t (settle t s' o)) := by
  refine ⟨h.view_end hpc hq (by rwa [settle_mutex]) ?_, h.record_put ?_ ?_, h.sound_put ?_⟩
  · rwa [settle_mutex, settle_snd]
  · rwa [settle_mutex, settle_snd]
  · rwa [settle_mutex]
  · rwa [settle_snd]

omit [Fintype ι] in
/-- A step of a closure on the value keeps the agreement. -/
theorem Locks.touches (h : Locks ids adaptive c) {read : Bool} {st : List (Frame α ρ)}
    (hpc : c.pcs t = some p) (hp : p.serial = none)
    (hrec : ∀ kind, c.shared.mutex.record kind t t = running read st kind)
    (hnested : Nested read st) (f : Closure α ρ read) {s' : Store ι α ρ}
    (hm : s'.mutex = c.shared.mutex) :
    Locks ids adaptive (c.put t (settle t s' (.goto (next t f st)))) := by
  have hm' : (settle t s' (.goto (next t f st))).1.mutex = c.shared.mutex := by
    rw [settle_mutex, hm]
  refine ⟨h.view_access hpc hp hm' ?_, h.record_put (fun kind ↦ ?_) ?_, h.sound_put fun q hq ↦ ?_⟩
  · rw [hm', settle_snd]
    exact starts_next f hrec
  · rw [hm', settle_snd]
    exact (hrec kind).trans (guards_next t f st kind).symm
  · rw [hm']
    exact fun _ _ _ _ ↦ rfl
  · rw [settle_snd] at hq
    cases hq
    exact sound_next t f hnested

/-- **An access keeps the agreement.** -/
theorem Locks.access (h : Locks ids adaptive c) {ch : Choice ι} (hpc : c.pcs t = some p)
    (he : exec ids adaptive t ch c.shared p = some r) : Locks ids adaptive (c.put t r) := by
  obtain ⟨hE, hk⟩ := h.exact
  have hrec := h.record_self hpc
  have hsound := h.sound t p hpc
  have hkeeps : ∀ {m : SerialMutex.Store ι}, SerialMutex.Keeps c.shared.mutex m → ∀ kind a u,
      ¬ (a = t ∧ u = t) → m.record kind a u = c.shared.mutex.record kind a u :=
    fun hm kind a u _ ↦ by rw [hm.record]
  have hmoves : ∀ {m : SerialMutex.Store ι} {read : Bool} {n : ℕ},
      SerialMutex.Moves c.shared.mutex m read t t n → ∀ kind a u, ¬ (a = t ∧ u = t) →
        m.record kind a u = c.shared.mutex.record kind a u :=
    fun hm kind a u hne ↦ by rw [hm.record_eq, if_neg fun hau ↦ hne hau.2]
  cases exec_moves hE (fun q hq ↦ hk t p q hpc hq) hsound he with
  | locking he' hp hp' hm =>
    refine ⟨h.view.view_exec ch trivial hpc rfl he' rfl, h.record_put (fun kind ↦ ?_) (hkeeps hm),
      h.sound_put fun q hq ↦ ?_⟩
    · rw [hm.record]
      exact hrec kind
    · cases hq
      exact ⟨hp', hsound.2⟩
  | @locked q read f st m he' hp hm =>
    have hnested := (h.admitted hpc he').1
    have hself : ∀ kind, m.record kind t t = running read st kind := by
      intro kind
      rw [hm.record_eq, running_eq hnested]
      by_cases hkind : kind = read
      · subst hkind
        simp only [and_self, if_true]
        exact congrArg (· + 1) (hrec kind)
      · simp only [hkind, false_and, if_false]
        exact hrec kind
    refine h.ends hpc rfl he' (fun kind ↦ ?_) (hmoves hm) (starts_next f hself) fun q hq ↦ ?_
    · exact (hself kind).trans (guards_next t f st kind).symm
    · cases hq
      exact sound_next t f hnested
  | @refused q read f st e he' hp hrefused =>
    exact h.ends hpc rfl he' (fun kind ↦ (hrec kind).trans (held_resume t none st kind).symm)
      (fun _ _ _ _ ↦ rfl) (starts_resume none hrec) (sound_resume t none hsound.2)
  | reads => exact h.touches hpc rfl hrec hsound _ rfl
  | writes => exact h.touches hpc rfl hrec hsound _ rfl
  | unlocking he' hp' hm =>
    refine ⟨h.view.view_exec ch trivial hpc rfl he' rfl, h.record_put (fun kind ↦ ?_) (hkeeps hm),
      h.sound_put fun q hq ↦ ?_⟩
    · rw [hm.record, hrec kind]
      simp [Pc.guards, held, hp']
    · cases hq
      exact ⟨hp' ▸ hsound.1, hsound.2⟩
  | releases he' hp hp' hm =>
    refine ⟨h.view.view_exec ch trivial hpc rfl he' rfl, h.record_put (fun kind ↦ ?_) (hmoves hm),
      h.sound_put fun q hq ↦ ?_⟩
    · exact (drop_record hsound.2 hp hrec hm kind).trans (if_pos hp').symm
    · cases hq
      exact ⟨Or.inr hp', hsound.2⟩
  | @released q read e st m he' hp hm =>
    have hself := drop_record hsound.2 hp hrec hm
    exact h.ends hpc rfl he' (fun kind ↦ (hself kind).trans (held_resume t e st kind).symm)
      (hmoves hm)
      (starts_resume e hself) (sound_resume t e (.of_nested hsound.2))
  | @woke q read e st m he' hp hm =>
    have hself : ∀ kind, m.record kind t t = waiting st kind := by
      intro kind
      rw [hm.record, hrec]
      exact if_pos hp
    exact h.ends hpc rfl he' (fun kind ↦ (hself kind).trans (held_resume t e st kind).symm)
      (hkeeps hm)
      (starts_resume e hself) (sound_resume t e (.of_nested hsound.2))

/-- **The agreement holds along every run.** -/
theorem reach_locks {ok : Config ι (Store ι α ρ) (Pc ι α ρ) → Label ι (Section α ρ) → Prop} {x : α}
    (h : Reach (atomic ids adaptive) ok (init x) c) : Locks ids adaptive c := by
  refine h.invariant ?_ ?_ fun c t ch p r _ hI _ hpc he ↦ hI.access hpc he
  · refine ⟨.refl, fun kind a t ↦ ?_, fun t q hq ↦ by cases hq⟩
    cases kind <;> exact (ite_self _).symm
  · rintro c t ⟨read, f⟩ ⟨s', o⟩ - hI - hpc he
    cases he
    have hrec : ∀ kind, c.shared.mutex.record kind t t = 0 := by
      intro kind
      rw [hI.record, if_pos rfl, hpc]
      rfl
    refine ⟨?_, hI.record_put hrec fun _ _ _ _ ↦ rfl, hI.sound_put fun q hq ↦ ?_⟩
    · have hnone : (c.pcs t).bind Pc.serial = none := by rw [hpc, Option.bind_none]
      cases read with
      | true =>
        exact hI.view.view_call .lockRead (o := .goto (.lockFast true)) trivial hnone rfl rfl
      | false =>
        exact hI.view.view_call .lockWrite (o := .goto (.lockFast false)) trivial hnone rfl rfl
    · cases hq
      exact ⟨rfl, trivial⟩

/-- **Only one thread has a guard at a time**, of whatever kind. -/
theorem Locks.alone (h : Locks ids adaptive c) {kind kind' : Bool} {u : ι}
    (ht : 0 < held kind (c.pcs t)) (hu : 0 < held kind' (c.pcs u)) : t = u := by
  obtain ⟨hE, -⟩ := h.exact
  have howner : ∀ k a, 0 < held k (c.pcs a) → SerialWord.own c.shared.mutex.state =
      (ids.id a).toNat := by
    intro k a hpos
    have hrec : 0 < c.shared.mutex.record k a a := by rwa [h.record, if_pos rfl]
    cases k with
    | true => exact (hE.of_reads hrec).1
    | false => exact (hE.of_writes hrec).1
  exact SerialMutex.OwnerIds.toNat_inj.1 ((howner kind t ht).symm.trans (howner kind' u hu))

omit [Fintype ι] in
/-- Only a sleeper waits. -/
theorem exec_eq_none {ch : Choice ι} {s : Store ι α ρ} (h : exec ids adaptive t ch s p = none) :
    (∃ read b, p.serial = some (.slowParked read b)) ∧ t ∈ s.mutex.wake.waiters := by
  cases p with
  | lock q read f st | unlock q read e st =>
    cases he : SerialMutex.exec ids adaptive t ch s.mutex q with
    | none =>
      obtain ⟨⟨read', b, rfl⟩, hw⟩ := SerialMutex.exec_eq_none he
      exact ⟨⟨read', b, rfl⟩, hw⟩
    | some x =>
      obtain ⟨m, o⟩ := x
      simp only [exec, he] at h
      cases o with
      | goto q' => cases h
      | ret e => cases e <;> cases h
  | get | set => cases h

/-- **A thread with a guard does not sleep**, also when it waits for a nested one. -/
theorem Locks.awake (h : Locks ids adaptive c) (hpc : c.pcs t = some p) {read : Bool} {b : Backoff}
    (hp : p.serial = some (.slowParked read b)) (kind : Bool) : held kind (c.pcs t) = 0 := by
  obtain ⟨-, hk⟩ := h.exact
  obtain ⟨hr, hx⟩ := hk t p _ hpc hp
  rw [← h.tally_record kind t]
  cases kind
  · exact hx
  · exact hr

end Invariant

/-! ### What the lock guarantees

The consequences for the methods: one thread at a time, and what a call back may do. -/

section Guarantees

variable [Fintype ι] {ids : SerialMutex.OwnerIds ι} {adaptive : ℕ} {x : α}
  {c : Config ι (Store ι α ρ) (Pc ι α ρ)}

/-- **References do not alias.** In every run the closures that have a reference to the value, at
the accesses of all threads and among those that wait for a call back, are closures of one thread;
and a closure with a mutable reference is the only one. -/
theorem references_exclusive (h : Reach (atomic ids adaptive) Always (init x) c) :
    (∀ t u kind kind', 0 < held kind (c.pcs t) → 0 < held kind' (c.pcs u) → t = u) ∧
    (∀ t, 0 < held false (c.pcs t) → held false (c.pcs t) = 1 ∧ held true (c.pcs t) = 0) ∧
    ∀ t, held true (c.pcs t) ≤ limit := by
  have hL := reach_locks h
  obtain ⟨hE, -⟩ := hL.exact
  refine ⟨fun t u kind kind' ht hu ↦ hL.alone ht hu, fun t ht ↦ ?_, fun t ↦ ?_⟩
  · have hpos : 0 < c.shared.mutex.writes t t :=
      ht.trans_eq ((hL.record false t t).trans (if_pos rfl)).symm
    obtain ⟨-, -, hr, hone, -⟩ := hE.of_writes hpos
    exact ⟨(hL.tally_record false t).symm.trans hone, (hL.tally_record true t).symm.trans (hr t)⟩
  · rcases Nat.eq_zero_or_pos (held true (c.pcs t)) with hz | hpos
    · omega
    · have hpos' : 0 < c.shared.mutex.reads t t :=
        hpos.trans_eq ((hL.record true t t).trans (if_pos rfl)).symm
      obtain ⟨-, -, hcount, -⟩ := hE.of_reads hpos'
      have hlt := SerialWord.readers_lt c.shared.mutex.state
      have heq : tally (c.shared.mutex.reads t) = held true (c.pcs t) := hL.tally_record true t
      rw [limit]
      omega

/-- A `with` that calls `load` back. -/
def readsTwice : Section ℕ (Res ℕ ℕ) := with_ (.call true load.body fun r ↦ r.elim .panic .ret)

/-- Thread `0` has both guards of a nested read. -/
theorem references_exclusive_nested :
    ∃ c, Reach (atomic SerialMutex.twoIds 4) Always
    (init 7 : Config (Fin 2) (Store (Fin 2) ℕ (Res ℕ ℕ)) _) c ∧
      held true (c.pcs 0) = 2 ∧ held true (c.pcs 1) = 0 ∧ held false (c.pcs 0) = 0 := by
  obtain ⟨c, hc, ht⟩ := Reach.exists_of_replay (atomic SerialMutex.twoIds 4) Always
    (init 7 : Config (Fin 2) (Store (Fin 2) ℕ (Res ℕ ℕ)) _)
    (.call 0 readsTwice :: List.replicate 5 (.exec 0 .go)) (fun c ↦ held true (c.pcs 0) == 2)
      (by decide +kernel)
  obtain ⟨halone, hmut, -⟩ := references_exclusive hc
  have htwo : held true (c.pcs 0) = 2 := eq_of_beq ht
  refine ⟨c, hc, htwo, Nat.eq_zero_of_not_pos fun hpos ↦ ?_, Nat.eq_zero_of_not_pos fun hpos ↦ ?_⟩
  · exact absurd (halone 0 1 true true (by omega) hpos) (by decide)
  · exact absurd (hmut 0 hpos).2 (by omega)

/-- **No deadlock.** While a thread is inside a method, some thread inside a method can go on; so no
closure waits for itself, whatever it calls back, and no wakeup is lost. -/
theorem never_stuck (h : Reach (atomic ids adaptive) Always (init x) c) {t : ι} {p : Pc ι α ρ}
    (hpc : c.pcs t = some p) :
    ∃ u q r, c.pcs u = some q ∧ exec ids adaptive u .go c.shared q = some r := by
  have hL := reach_locks h
  cases he : exec ids adaptive t .go c.shared p with
  | some r => exact ⟨t, p, r, hpc, he⟩
  | none =>
    obtain ⟨-, hsleeps⟩ := exec_eq_none he
    rcases SerialMutex.asleep_covered hL.view hsleeps with ⟨hlive, -⟩ | ⟨u, hu⟩
    · -- whoever has the guard the sleeper waits for is not asleep
      obtain ⟨u, kind, hpos⟩ : ∃ u kind, 0 < held kind (c.pcs u) := by
        by_contra hnone
        have hzero : ∀ kind u, tally (c.shared.mutex.record kind u) = 0 := fun kind u ↦ by
          rw [hL.tally_record]
          exact Nat.eq_zero_of_not_pos fun hpos ↦ hnone ⟨u, kind, hpos⟩
        have hr : SerialMutex.liveReads c.shared.mutex = 0 := tally_eq_zero_iff.2 (hzero true)
        have hx : SerialMutex.liveWrites c.shared.mutex = 0 := tally_eq_zero_iff.2 (hzero false)
        rw [Config.view_shared] at hlive
        omega
      cases hq : c.pcs u with
      | none =>
        rw [hq] at hpos
        cases hpos
      | some q =>
        cases hx : exec ids adaptive u .go c.shared q with
        | some r => exact ⟨u, q, r, hq, hx⟩
        | none =>
          obtain ⟨⟨read, b, hparked⟩, -⟩ := exec_eq_none hx
          rw [hL.awake hq hparked kind] at hpos
          cases hpos
    · -- a thread that owes a notification is not asleep
      have hawake := SerialMutex.notifier_awake hL.view hu
      rw [Config.view_pcs] at hu
      cases hq : c.pcs u with
      | none =>
        rw [hq] at hu
        rcases hu with hu | hu <;> cases hu
      | some q =>
        cases hx : exec ids adaptive u .go c.shared q with
        | some r => exact ⟨u, q, r, hq, hx⟩
        | none => exact absurd (exec_eq_none hx).2 hawake

/-- Thread `1` sleeps behind the reading thread `0`. -/
theorem never_stuck_behind_reader :
    ∃ c, Reach (atomic SerialMutex.twoIds 4) Always
    (init 7 : Config (Fin 2) (Store (Fin 2) ℕ (Res ℕ ℕ)) _) c ∧
      1 ∈ c.shared.mutex.wake.waiters ∧
      ∃ u q r, c.pcs u = some q ∧ exec SerialMutex.twoIds 4 u .go c.shared q = some r := by
  obtain ⟨c, hc, ht⟩ := Reach.exists_of_replay (atomic SerialMutex.twoIds 4) Always
    (init 7 : Config (Fin 2) (Store (Fin 2) ℕ (Res ℕ ℕ)) _)
    (.call 0 load :: .exec 0 .go :: .call 1 (store 8) :: List.replicate 31 (.exec 1 .go))
    (fun c ↦ decide (1 ∈ c.shared.mutex.wake.waiters) && (c.pcs 1).isSome) (by decide +kernel)
  obtain ⟨hw, hpc⟩ := Bool.and_eq_true_iff.1 ht
  obtain ⟨p, hp⟩ := Option.isSome_iff_exists.1 hpc
  exact ⟨c, hc, of_decide_eq_true hw, never_stuck hc hp⟩

end Guarantees

end Atomic

end Crossync
