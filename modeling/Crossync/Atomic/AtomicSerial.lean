import Crossync.Interleave.Call
import Crossync.Atomic.AtomicSections

/-!
# The methods of `Atomic` take effect one after the other

A method call is a sequence of accesses, with the accesses of other threads in between and with the
calls that its closure makes back into the same atomic. What a section has still to do is a function
of the value (`Pc.rest`); only the thread with the guards has such a rest, so nobody moves the value
under it, and what it makes of the current value is what its whole closure makes of the value the
sections before it have left (`Serial`).

## The equation that is kept

Let `x` be the value that the logged sections leave, one after the other. If no thread is inside a
section then `x` is the value of the atomic. If one is, then running the rest of its section on the
current value gives what its whole section gives on `x`. Each access of that thread moves a piece of
the rest into the value; no other thread has a write guard, and no access under a read guard changes
anything.
-/

open Interleave

namespace Crossync

namespace Atomic

universe u v

variable {ι : Type*} {α : Type u} {ρ : Type v} [DecidableEq ι]

/-- **What a method does to a plain value**, without any lock. -/
def run (op : Section α ρ) (x : α) : Option ρ × α := op.body.eval limit 1 x

/-- What the section of a thread has still to do with the value; `none` before the section and after
its code. -/
def Pc.rest : Pc ι α ρ → Option (α → Option ρ × α)
  | .lock _ _ _ [] => none
  | .lock _ read f (fr :: st) => some fun x ↦ evalStack limit (fr :: st)
      (if Closure.Admits limit (st.length + 1) fr.read read then f.eval limit (st.length + 2) x
        else (none, x))
  | .get _ k st => some fun x ↦ evalStack limit st ((k x).eval limit (st.length + 1) x)
  | .set x k st => some fun _ ↦ evalStack limit st (k.eval limit (st.length + 1) x)
  | .unlock _ _ _ [] => none
  | .unlock _ _ r (fr :: st) => some fun x ↦ evalStack limit (fr :: st) (r, x)

/-- A section with code left to run has a guard. -/
theorem held_pos_of_rest {q : Option (Pc ι α ρ)} (h : q.bind Pc.rest ≠ none) :
    ∃ kind, 0 < held kind q := by
  have hrun : ∀ (read : Bool) (st : List (Frame α ρ)), 0 < running read st read := by
    intro read st
    rw [running, if_pos rfl]
    split_ifs <;> omega
  cases q with
  | none => exact absurd rfl h
  | some p =>
    cases p with
    | lock p read f st =>
      cases st with
      | nil => exact absurd rfl h
      | cons fr st => exact ⟨fr.read, hrun fr.read st⟩
    | get read k st => exact ⟨read, hrun read st⟩
    | set x k st => exact ⟨false, hrun false st⟩
    | unlock p read r st =>
      cases st with
      | nil => exact absurd rfl h
      | cons fr st =>
        by_cases hwake : SerialMutex.phase p = .wake
        · exact ⟨fr.read, by simpa [held, Pc.guards, hwake, waiting] using hrun fr.read st⟩
        · exact ⟨read, by simpa [held, Pc.guards, hwake] using hrun read (fr :: st)⟩

/-- What `t` has still to do with the current value is what its section makes of the value before
it. -/
def Owes (x₀ : α) (s : Store ι α ρ) (t : ι) (y : Option ρ × α) : Prop :=
  ∃ op, s.called t = some op ∧ y = run op (final run x₀ s.log)

/-- The history and the value fit, as far as `t` is concerned: it is in the middle of its section,
or nobody is. -/
def Fits (x₀ : α) (s : Store ι α ρ) (t : ι) (q : Option (Pc ι α ρ)) : Prop :=
  Legal run x₀ s.log ∧
    match q.bind Pc.rest with
    | none => s.value = final run x₀ s.log
    | some g => Owes x₀ s t (g s.value)

section Settle

variable {x₀ : α} {s : Store ι α ρ} {t : ι} {r : Option ρ}

omit [DecidableEq ι] in
/-- The code of a section ends: the section enters the history. -/
theorem fits_commit (hlegal : Legal run x₀ s.log) (h : Owes x₀ s t (r, s.value)) :
    Legal run x₀ (s.commit t r).log ∧ (s.commit t r).value = final run x₀ (s.commit t r).log := by
  obtain ⟨op, hop, hy⟩ := h
  have hlog : (s.commit t r).log = s.log ++ [⟨t, op, r⟩] := by simp [Store.commit, hop]
  rw [hlog, commit_value]
  refine ⟨hlegal.concat ?_, ?_⟩
  · rw [← hy]
  · rw [final_concat, ← hy]

omit [DecidableEq ι] in
/-- The code of a section goes on. -/
theorem fits_next {read : Bool} (f : Closure α ρ read) (st : List (Frame α ρ))
    (hlegal : Legal run x₀ s.log)
    (h : Owes x₀ s t (evalStack limit st (f.eval limit (st.length + 1) s.value))) :
    Fits x₀ (settle t s (.goto (next t f st))).1 t (some (next t f st)) := by
  cases f with
  | ret r | panic =>
    cases st with
    | nil => exact fits_commit hlegal h
    | cons fr st => exact ⟨hlegal, h⟩
  | get k | set x k => exact ⟨hlegal, h⟩
  | call inner g k =>
    refine ⟨hlegal, ?_⟩
    obtain ⟨op, hop, hy⟩ := h
    refine ⟨op, hop, Eq.trans ?_ hy⟩
    simp only [Closure.eval, evalStack]
    split_ifs <;> rfl

end Settle

/-- **The sections are serial.** -/
structure Serial (x₀ : α) (c : Config ι (Store ι α ρ) (Pc ι α ρ)) : Prop where
  legal : Legal run x₀ c.shared.log
  /-- Before its section a call is the one that was called. -/
  first : ∀ t p read f, c.pcs t = some (.lock p read f []) → c.shared.called t = some ⟨read, f⟩
  closed : (∀ t, (c.pcs t).bind Pc.rest = none) → c.shared.value = final run x₀ c.shared.log
  owes : ∀ t g, (c.pcs t).bind Pc.rest = some g → Owes x₀ c.shared t (g c.shared.value)

omit [DecidableEq ι] in
/-- A thread that has just started over is not in front of its section. -/
theorem next_ne_lock {t : ι} {read : Bool} (f : Closure α ρ read) (st : List (Frame α ρ))
    {p : SerialMutex.Pc ι} {read' : Bool} {f' : Closure α ρ read'} :
    next t f st ≠ .lock p read' f' [] := by
  intro h
  cases f with
  | ret r | panic | get k | set x k => cases h
  | call inner g k => cases h

section Steps

variable {x₀ : α} {c : Config ι (Store ι α ρ) (Pc ι α ρ)} {t : ι} {p : Pc ι α ρ}
  {r : Store ι α ρ × Outcome (Pc ι α ρ) (Option ρ)}

/-- A step of `t` while nobody else is in the middle of a section. -/
theorem Serial.put (h : Serial x₀ c) (hothers : ∀ u, u ≠ t → (c.pcs u).bind Pc.rest = none)
    (hfits : Fits x₀ r.1 t r.2.pc) (hcalled : r.1.called = c.shared.called)
    (hfirst : ∀ p read f, r.2.pc = some (.lock p read f []) → r.1.called t = some ⟨read, f⟩) :
    Serial x₀ (c.put t r) := by
  have hrest : ∀ u, u ≠ t → ((c.put t r).pcs u).bind Pc.rest = none := fun u hu ↦ by
    rw [Config.put_pcs_of_ne _ _ hu]
    exact hothers u hu
  obtain ⟨hlegal, hself⟩ := hfits
  refine ⟨hlegal, fun u p read f hu ↦ ?_, fun hnone ↦ ?_, fun u g hg ↦ ?_⟩
  · by_cases hut : u = t
    · subst hut
      rw [Config.put_pcs_self] at hu
      exact hfirst p read f hu
    · rw [Config.put_pcs_of_ne _ _ hut] at hu
      rw [Config.put_shared, hcalled]
      exact h.first u p read f hu
  · have hn := hnone t
    rw [Config.put_pcs_self] at hn
    rwa [hn] at hself
  · by_cases hut : u = t
    · subst hut
      rw [Config.put_pcs_self] at hg
      rwa [hg] at hself
    · rw [hrest u hut] at hg
      cases hg

/-- A step of `t` inside the lock. -/
theorem Serial.stay (h : Serial x₀ c) (hpc : c.pcs t = some p)
    (hrest : r.2.pc.bind Pc.rest = p.rest) (hvalue : r.1.value = c.shared.value)
    (hcalled : r.1.called = c.shared.called) (hlog : r.1.log = c.shared.log)
    (hfirst : ∀ p' read f, r.2.pc = some (.lock p' read f []) →
      c.shared.called t = some ⟨read, f⟩) :
    Serial x₀ (c.put t r) := by
  have hsame : ∀ u, ((c.put t r).pcs u).bind Pc.rest = (c.pcs u).bind Pc.rest := fun u ↦ by
    by_cases hu : u = t
    · subst hu
      rw [Config.put_pcs_self, hrest, hpc, Option.bind_some]
    · rw [Config.put_pcs_of_ne _ _ hu]
  refine ⟨?_, fun u p' read f hu ↦ ?_, fun hnone ↦ ?_, fun u g hg ↦ ?_⟩
  · rw [Config.put_shared, hlog]
    exact h.legal
  · rw [Config.put_shared, hcalled]
    by_cases hut : u = t
    · subst hut
      rw [Config.put_pcs_self] at hu
      exact hfirst p' read f hu
    · rw [Config.put_pcs_of_ne _ _ hut] at hu
      exact h.first u p' read f hu
  · rw [Config.put_shared, hvalue, hlog]
    exact h.closed fun u ↦ (hsame u).symm.trans (hnone u)
  · rw [hsame] at hg
    obtain ⟨op, hop, hy⟩ := h.owes u g hg
    refine ⟨op, ?_, ?_⟩
    · rw [Config.put_shared, hcalled, hop]
    · rw [Config.put_shared, hvalue, hlog, hy]

variable [Fintype ι] {ids : SerialMutex.OwnerIds ι} {adaptive : ℕ}

/-- While `t` has a guard, nobody else is in the middle of a section. -/
theorem Locks.others (h : Locks ids adaptive c) {kind : Bool} (ht : 0 < held kind (c.pcs t)) {u : ι}
    (hu : u ≠ t) : (c.pcs u).bind Pc.rest = none := by
  by_contra hne
  obtain ⟨kind', hpos⟩ := held_pos_of_rest hne
  exact hu (h.alone hpos ht)

omit [Fintype ι] in
/-- The code of `t` goes on while nobody else is in the middle of a section. -/
theorem Serial.goes_on (h : Serial x₀ c) (hothers : ∀ u, u ≠ t → (c.pcs u).bind Pc.rest = none)
    {read : Bool} (f : Closure α ρ read) (st : List (Frame α ρ)) {s' : Store ι α ρ}
    (hcalled : s'.called = c.shared.called) (hlog : s'.log = c.shared.log)
    (howes : Owes x₀ s' t (evalStack limit st (f.eval limit (st.length + 1) s'.value))) :
    Serial x₀ (c.put t (settle t s' (.goto (next t f st)))) := by
  refine h.put hothers ?_ (by rw [settle_called, hcalled]) fun p' read' f' hp' ↦ ?_
  · rw [settle_snd]
    exact fits_next f st (hlog ▸ h.legal) howes
  · rw [settle_snd] at hp'
    exact absurd (Option.some.inj hp') (next_ne_lock f st)

omit [Fintype ι] in
/-- The section of `t` has been over before the step, and still is. -/
theorem Serial.leaves (h : Serial x₀ c) (hpc : c.pcs t = some p) (hp : p.rest = none)
    {s' : Store ι α ρ} {e : Option ρ} (hvalue : s'.value = c.shared.value)
    (hcalled : s'.called = c.shared.called) (hlog : s'.log = c.shared.log) :
    Serial x₀ (c.put t (settle t s' (resume t e []))) :=
  h.stay hpc hp.symm hvalue hcalled hlog fun _ _ _ hc ↦ by cases hc

/-- **An access keeps the sections serial.** -/
theorem Serial.access (h : Serial x₀ c) (hL : Locks ids adaptive c) {ch : Choice ι}
    (hpc : c.pcs t = some p) (he : exec ids adaptive t ch c.shared p = some r) :
    Serial x₀ (c.put t r) := by
  obtain ⟨hE, hk⟩ := hL.exact
  have hL' := hL.access hpc he
  -- a thread in the middle of its section is alone
  have howes : ∀ g, p.rest = some g →
      Owes x₀ c.shared t (g c.shared.value) ∧ ∀ u, u ≠ t → (c.pcs u).bind Pc.rest = none := by
    intro g hg
    have hbind : (c.pcs t).bind Pc.rest = some g := by rw [hpc, Option.bind_some, hg]
    obtain ⟨kind, hpos⟩ := held_pos_of_rest (by rw [hbind]; exact Option.some_ne_none g)
    exact ⟨h.owes t g hbind, fun u hu ↦ hL.others hpos hu⟩
  cases exec_moves hE (fun q hq ↦ hk t p q hpc hq) (hL.sound t p hpc) he with
  | @locking q q' read f st m =>
    refine h.stay hpc (by cases st <;> rfl) rfl rfl rfl fun p' read' f' hp' ↦ ?_
    cases hp'
    exact h.first t _ _ _ hpc
  | @locked q read f st m he' =>
    obtain ⟨hnested, hroom⟩ := hL.admitted hpc he'
    cases st with
    | nil =>
      -- the section starts with the value that the last one has left
      have hothers : ∀ u, u ≠ t → (c.pcs u).bind Pc.rest = none := by
        intro u hu
        have hpos : 0 < held read
            ((c.put t (settle t { c.shared with mutex := m } (.goto (next t f [])))).pcs t) := by
          rw [Config.put_pcs_self, settle_snd]
          refine Nat.lt_of_lt_of_eq ?_ (guards_next t f [] read).symm
          cases read <;> exact Nat.one_pos
        have := hL'.others hpos hu
        rwa [Config.put_pcs_of_ne _ _ hu] at this
      refine h.goes_on hothers f [] rfl rfl ⟨⟨read, f⟩, h.first t _ _ _ hpc, ?_⟩
      have hvalue : c.shared.value = final run x₀ c.shared.log := by
        refine h.closed fun u ↦ ?_
        by_cases hu : u = t
        · subst hu
          rw [hpc]
          rfl
        · exact hothers u hu
      exact congrArg (f.eval limit 1) hvalue
    | cons fr st =>
      obtain ⟨hy, hothers⟩ := howes _ rfl
      rw [if_pos ⟨hnested.1 fr List.mem_cons_self, hnested.2 (List.cons_ne_nil _ _), hroom⟩] at hy
      exact h.goes_on hothers f (fr :: st) rfl rfl hy
  | refused he' hp hrefused =>
    obtain ⟨fr, st, rfl, hnot⟩ := hL.refused hpc hrefused he'
    obtain ⟨hy, hothers⟩ := howes _ rfl
    rw [if_neg (by exact hnot)] at hy
    exact h.goes_on hothers (fr.k none) st rfl rfl hy
  | reads =>
    obtain ⟨hy, hothers⟩ := howes _ rfl
    exact h.goes_on hothers _ _ rfl rfl hy
  | writes =>
    obtain ⟨hy, hothers⟩ := howes _ rfl
    exact h.goes_on hothers _ _ rfl rfl hy
  | @unlocking q q' read e st | @releases q q' read e st =>
    refine h.stay hpc (by cases st <;> rfl) rfl rfl rfl fun p' read' f' hp' ↦ ?_
    cases hp'
  | @released q read e st | @woke q read e st =>
    cases st with
    | nil => exact h.leaves hpc rfl rfl rfl rfl
    | cons fr st =>
      obtain ⟨hy, hothers⟩ := howes _ rfl
      exact h.goes_on hothers (fr.k e) st rfl rfl hy

/-- **Along every run the sections are serial.** -/
theorem reach_serial {ok : Config ι (Store ι α ρ) (Pc ι α ρ) → Label ι (Section α ρ) → Prop}
    (h : Reach (atomic ids adaptive) ok (init x₀) c) : Serial x₀ c := by
  refine h.invariant ?_ ?_ fun c t ch p r hc hI _ hpc he ↦ hI.access (reach_locks hc) hpc he
  · refine ⟨trivial, ?_, fun _ ↦ rfl, ?_⟩
    · intro t p read f hp
      cases hp
    · intro t g hg
      cases hg
  · rintro c t op ⟨s', o⟩ - hI - hpc he
    cases he
    refine ⟨hI.legal, fun u p read f hu ↦ ?_, fun hnone ↦ hI.closed fun u ↦ ?_, fun u g hg ↦ ?_⟩
    · by_cases hut : u = t
      · subst hut
        rw [Config.put_pcs_self] at hu
        cases hu
        exact Function.update_self ..
      · rw [Config.put_pcs_of_ne _ _ hut] at hu
        exact (Function.update_of_ne hut ..).trans (hI.first u p read f hu)
    · by_cases hut : u = t
      · rw [hut, hpc, Option.bind_none]
      · have := hnone u
        rwa [Config.put_pcs_of_ne _ _ hut] at this
    · by_cases hut : u = t
      · subst hut
        rw [Config.put_pcs_self] at hg
        cases hg
      · rw [Config.put_pcs_of_ne _ _ hut] at hg
        obtain ⟨op', hop', hy⟩ := hI.owes u g hg
        exact ⟨op', (Function.update_of_ne hut ..).trans hop', hy⟩

/-! ### Linearization

From the serial sections to the calls: a call has logged its section once between its start and its
return, and returns the result that is logged. -/

/-- The result of a section whose code has ended. -/
def Pc.ended : Pc ι α ρ → Option (Option ρ)
  | .unlock _ _ r [] => some r
  | _ => none

/-- What a thread has put into the history since a call of `op` began, at a program point of the
call. -/
structure Linearizing (t : ι) (op : Section α ρ) (n : ℕ) (s : Store ι α ρ)
    (p : Pc ι α ρ) : Prop where
  called : s.called t = some op
  le : n ≤ s.log.length
  own : ownSince t n s.log = (p.ended.map fun r ↦ ⟨t, op, r⟩).toList

omit [Fintype ι] in
theorem linearizing_next {op : Section α ρ} {n : ℕ} {s : Store ι α ρ}
    (hcalled : s.called t = some op) (hle : n ≤ s.log.length) (hown : ownSince t n s.log = [])
    {read : Bool} (f : Closure α ρ read) (st : List (Frame α ρ)) :
    Linearizing t op n (settle t s (.goto (next t f st))).1 (next t f st) := by
  have hlog : ∀ r, (s.commit t r).log = s.log ++ [⟨t, op, r⟩] :=
    fun r ↦ by simp [Store.commit, hcalled]
  have hcommit : ∀ (r : Option ρ) q, Pc.ended q = some r → Linearizing t op n (s.commit t r) q := by
    intro r q hq
    refine ⟨by rw [commit_called, hcalled], ?_, ?_⟩
    · rw [hlog, List.length_append]
      omega
    · rw [hlog, ownSince_concat_self hle (e := ⟨t, op, r⟩) rfl, hown, hq]
      rfl
  cases f with
  | ret r | panic =>
    cases st with
    | nil => exact hcommit _ _ rfl
    | cons fr st => exact ⟨hcalled, hle, hown⟩
  | get k | set x k | call inner g k => exact ⟨hcalled, hle, hown⟩

omit [Fintype ι] in
theorem linearizing_resume {op : Section α ρ} {n : ℕ} {s : Store ι α ρ} {st : List (Frame α ρ)}
    {r : Option ρ} (hcalled : s.called t = some op) (hle : n ≤ s.log.length)
    (hown : st ≠ [] → ownSince t n s.log = []) :
    ∀ q, (settle t s (resume t r st)).2.pc = some q →
      Linearizing t op n (settle t s (resume t r st)).1 q := by
  intro q hq
  rw [settle_snd] at hq
  cases st with
  | nil => cases hq
  | cons fr st =>
    cases hq
    exact linearizing_next hcalled hle (hown (List.cons_ne_nil _ _)) (fr.k r) st

/-- An access of the calling thread. -/
theorem Linearizing.access {op : Section α ρ} {n : ℕ} (h : Linearizing t op n c.shared p)
    (hL : Locks ids adaptive c) {ch : Choice ι} (hpc : c.pcs t = some p)
    (he : exec ids adaptive t ch c.shared p = some r) :
    ∀ q, r.2.pc = some q → Linearizing t op n r.1 q := by
  obtain ⟨hE, hk⟩ := hL.exact
  obtain ⟨hcalled, hle, hown⟩ := h
  intro q hq
  cases exec_moves hE (fun q hq ↦ hk t p q hpc hq) (hL.sound t p hpc) he with
  | locking =>
    cases hq
    exact ⟨hcalled, hle, hown⟩
  | @unlocking _ _ _ _ st | @releases _ _ _ _ st =>
    cases hq
    cases st
    all_goals exact ⟨hcalled, hle, hown⟩
  | locked | reads | writes =>
    rw [settle_snd] at hq
    cases hq
    refine linearizing_next ?_ ?_ ?_ _ _
    exacts [hcalled, hle, hown]
  | refused => exact linearizing_resume hcalled hle (fun _ ↦ hown) q hq
  | @released _ _ _ st | @woke _ _ _ st =>
    refine linearizing_resume ?_ ?_ (fun hne ↦ ?_) q hq
    · exact hcalled
    · exact hle
    · cases st with
      | nil => exact absurd rfl hne
      | cons fr st => exact hown

/-- What an access of another thread leaves alone. -/
theorem exec_log (hL : Locks ids adaptive c) {ch : Choice ι} (hpc : c.pcs t = some p)
    (he : exec ids adaptive t ch c.shared p = some r) : r.1.called = c.shared.called ∧
      (r.1.log = c.shared.log ∨ ∃ op e, r.1.log = c.shared.log ++ [⟨t, op, e⟩]) := by
  have hsettle : ∀ (s : Store ι α ρ) o, s.called = c.shared.called → s.log = c.shared.log →
      (settle t s o).1.called = c.shared.called ∧ ((settle t s o).1.log = c.shared.log ∨
        ∃ op e, (settle t s o).1.log = c.shared.log ++ [⟨t, op, e⟩]) := by
    intro s o hcalled hlog
    refine ⟨by rw [settle_called, hcalled], ?_⟩
    unfold settle
    split
    · unfold Store.commit
      split
      · exact Or.inr ⟨_, _, congrArg (· ++ _) hlog⟩
      · exact Or.inl hlog
    · exact Or.inl hlog
  obtain ⟨hE, hk⟩ := hL.exact
  cases exec_moves hE (fun q hq ↦ hk t p q hpc hq) (hL.sound t p hpc) he with
  | locking | unlocking | releases => exact ⟨rfl, Or.inl rfl⟩
  | locked | refused | reads | writes | released | woke => exact hsettle _ _ rfl rfl

/-- The step of another thread. -/
theorem Linearizing.other {op : Section α ρ} {n : ℕ} (h : Linearizing t op n c.shared p)
    (hL : Locks ids adaptive c) {l : Label ι (Section α ρ)} (hl : l.thread ≠ t)
    {c' : Config ι (Store ι α ρ) (Pc ι α ρ)} (hn : (atomic ids adaptive).next c l = some c') :
    Linearizing t op n c'.shared p := by
  obtain ⟨hcalled, hle, hown⟩ := h
  obtain ⟨u, op', r, rfl, -, he, rfl⟩ | ⟨u, ch, q, r, rfl, hq, he, rfl⟩ := Object.next_cases hn
  · cases he
    exact ⟨(Function.update_of_ne (Ne.symm hl) ..).trans hcalled, hle, hown⟩
  · obtain ⟨hcalled', hlog⟩ := exec_log hL hq he
    rw [Config.put_shared]
    refine ⟨hcalled' ▸ hcalled, ?_, ?_⟩
    · rcases hlog with hlog | ⟨op', e, hlog⟩ <;> rw [hlog]
      · exact hle
      · rw [List.length_append]
        omega
    · rcases hlog with hlog | ⟨op', e, hlog⟩ <;> rw [hlog]
      · exact hown
      · rwa [ownSince_concat_of_ne hle (e := ⟨u, op', e⟩) hl]

/-- **Along a call** its thread puts nothing into the history but the call, when its code ends. -/
theorem calls_linearizing {op : Section α ρ} {ss : List (Store ι α ρ × Store ι α ρ)}
    (h : Calls (atomic ids adaptive) Always (init x₀) t op ss c) :
    ∀ p, c.pcs t = some p → ∃ s, ss.head?.map Prod.fst = some s ∧
      Linearizing t op s.log.length c.shared p := by
  refine h.invariant (I := fun ss s' p ↦
    ∃ s, ss.head?.map Prod.fst = some s ∧ Linearizing t op s.log.length s' p) ?_ ?_ ?_
  · intro c s' o _ he p hp
    cases he
    cases hp
    exact ⟨c.shared, rfl, Function.update_self .., le_rfl, ownSince_length⟩
  · rintro ss c ch p s' o hc ⟨s, hs, hI⟩ - hpc he q hq
    refine ⟨s, ?_, hI.access (reach_locks hc) hpc he q hq⟩
    cases ss with
    | nil => cases hs
    | cons x ss => exact hs
  · rintro ss c c' l p hc ⟨s, hs, hI⟩ hpc - hl hn
    exact ⟨s, hs, hI.other (reach_locks hc) hl hn⟩

/-- **Linearizability.** The history of an atomic is legal for the plain value: every method got the
result it gets alone, after those before it. The value is the one the history leaves, unless a
thread is in the middle of a section; what that thread has still to do with the value is then what
its method does to the value before the section. And a call that returns has entered the history
once since it began, with the result it returns. -/
theorem sections_linearizable (h : Reach (atomic ids adaptive) Always (init x₀) c) :
    Legal run x₀ c.shared.log ∧
      ((∀ t, (c.pcs t).bind Pc.rest = none) → c.shared.value = final run x₀ c.shared.log) ∧
      (∀ t g, (c.pcs t).bind Pc.rest = some g →
        ∃ op, c.shared.called t = some op ∧ g c.shared.value = run op (final run x₀ c.shared.log)) ∧
      ∀ t op ss ch p s' e, Calls (atomic ids adaptive) Always (init x₀) t op ss c →
        c.pcs t = some p →
        exec ids adaptive t ch c.shared p = some (s', .ret e) →
        ∃ s, ss.head?.map Prod.fst = some s ∧ ownSince t s.log.length s'.log = [⟨t, op, e⟩] := by
  have hS := reach_serial h
  have hL := reach_locks h
  refine ⟨hS.legal, hS.closed, hS.owes, fun t op ss ch p s' e hcalls hpc he ↦ ?_⟩
  obtain ⟨s, hs, -, hle, hown⟩ := calls_linearizing hcalls p hpc
  obtain ⟨hE, hk⟩ := hL.exact
  refine ⟨s, hs, ?_⟩
  generalize hr : (s', Outcome.ret e) = r at he
  cases exec_moves hE (fun q hq ↦ hk t p q hpc hq) (hL.sound t p hpc) he with
  | locking | unlocking | releases => cases hr
  | locked | reads | writes =>
    have := congrArg Prod.snd hr
    rw [settle_snd] at this
    cases this
  | @refused q read f st _ he' hp hrefused =>
    obtain ⟨fr, st', rfl, -⟩ := hL.refused hpc hrefused he'
    have := congrArg Prod.snd hr
    rw [settle_snd] at this
    cases this
  | @released _ _ _ st | @woke _ _ _ st =>
    cases st with
    | nil =>
      cases hr
      exact hown
    | cons fr st =>
      have := congrArg Prod.snd hr
      rw [settle_snd] at this
      cases this

/-- Thread `0` has added `5` to `1`, and thread `1` is about to add `3`. -/
theorem sections_linearizable_add :
    ∃ c, Reach (atomic SerialMutex.twoIds 4) Always
    (init 1 : Config (Fin 2) (Store (Fin 2) ℕ (Res ℕ ℕ)) _) c ∧
      c.pcs 0 = none ∧ (c.pcs 1).isSome ∧ c.shared.value = final run 1 c.shared.log := by
  obtain ⟨c, hc, ht⟩ := Reach.exists_of_replay (atomic SerialMutex.twoIds 4) Always
    (init 1 : Config (Fin 2) (Store (Fin 2) ℕ (Res ℕ ℕ)) _)
    (.call 0 (fetchAdd (fun x y ↦ some (x + y)) 5) ::
      .call 1 (fetchAdd (fun x y ↦ some (x + y)) 3) ::
      List.replicate 4 (.exec 0 .go))
    (fun c ↦ (c.pcs 0).isNone && ((c.pcs 1).isSome && ((c.pcs 1).bind Pc.rest).isNone))
      (by decide +kernel)
  obtain ⟨h₀, h₁⟩ := Bool.and_eq_true_iff.1 ht
  obtain ⟨h₁, hrest⟩ := Bool.and_eq_true_iff.1 h₁
  rw [Option.isNone_iff_eq_none] at h₀ hrest
  refine ⟨c, hc, h₀, h₁, (sections_linearizable hc).2.1 fun t ↦ ?_⟩
  obtain rfl | rfl : t = 0 ∨ t = 1 := by omega
  · rw [h₀, Option.bind_none]
  · exact hrest

end Steps

end Atomic

end Crossync
