import Crossync.Core.CoordExclusion

/-!
# The write guards of a `Coord`

Every write guard of the lock inside stands for an exclusive guard, or for a call that has locked
and not yet handed an exclusive guard out, or has taken one back and not yet unlocked. So a thread
that has neither cannot run into the reentrance panic of the lock: the panic of `exclusive` is the
caller's own doing.

The last section says, for code that calls into a `Coord`, what the accesses of each call do to the
guards.

## For whom

A container pins a `Coord` at one place of its code and drops the pin at another, and between the
two it is at program points of its own. What it needs to know is about guards, not about lanes and
flags: this module is the interface, and a container's proof unfolds no function of `Coord`.

The reentrance panic of the writers' lock is the one outcome that a container has to exclude. It is
excluded by counting: a write guard inside belongs to an exclusive guard outside or to a call under
way, and a thread that asks for the lock has neither.
-/

open Interleave

namespace Crossync

namespace Coord

open SerialMutex (setShare setShare_holder_of_ne)

variable {ι : Type*} [Fintype ι] [DecidableEq ι] {ids : ThreadIds ι} {adaptive : ℕ}

/-- The write guards acquired by `a` that a call of `h` has in hand. -/
def inHand (a h : ι) : Option (Pc ι) → ℕ
  | some (.storeWriting _) | some (.scan _ _) | some .abort => if a = h then 1 else 0
  | some (.unlocking _ (.unlockWrite b)) => if a = b then 1 else 0
  | _ => 0

/-- **How a step moves the guards**: only those held by its thread, and so that the write guards
stay accounted for. -/
structure Balances (t : ι) (s s' : Store ι) (q q' : Option (Pc ι)) : Prop where
  reads : s'.writers.reads = s.writers.reads
  others : ∀ a h, h ≠ t → s'.writers.writes a h = s.writers.writes a h ∧
    s'.exclusives a h = s.exclusives a h
  balance : ∀ a, s'.writers.writes a t + s.exclusives a t + inHand a t q =
    s.writers.writes a t + s'.exclusives a t + inHand a t q'

omit [Fintype ι] in
theorem balances_of_eq {t : ι} {s s' : Store ι} {q q' : Option (Pc ι)}
    (hr : s'.writers.reads = s.writers.reads) (hw : s'.writers.writes = s.writers.writes)
    (hx : s'.exclusives = s.exclusives) (hq : ∀ a, inHand a t q' = inHand a t q) :
    Balances t s s' q q' where
  reads := hr
  others a h _ := by rw [hw, hx]; exact ⟨rfl, rfl⟩
  balance a := by rw [hw, hx, hq]

omit [Fintype ι] in
theorem setShare_holder_self (f : ι → ι → ℕ) (a t : ι) (n : ℕ) (b : ι) :
    setShare f a t n b t = if b = a then n else f b t := by
  unfold setShare
  by_cases hb : b = a
  · subst hb
    simp
  · simp [hb]

omit [Fintype ι] in
/-- The lock hands a write guard to its caller. -/
theorem balances_gain {t : ι} {s s' : Store ι} {q q' : Option (Pc ι)}
    (hr : s'.writers.reads = s.writers.reads)
    (hw : s'.writers.writes = setShare s.writers.writes t t (s.writers.writes t t + 1))
    (hx : s'.exclusives = s.exclusives) (hq : ∀ a, inHand a t q = 0)
    (hq' : ∀ a, inHand a t q' = if a = t then 1 else 0) : Balances t s s' q q' where
  reads := hr
  others a h hh := by
    rw [hw, hx, setShare_holder_of_ne _ _ _ hh]
    exact ⟨rfl, rfl⟩
  balance a := by
    rw [hw, hx, hq, hq', setShare_holder_self]
    split_ifs with ha
    · subst ha
      omega
    · omega

theorem exec_balances {t : ι} {ch : Choice ι} {s s' : Store ι} {p : Pc ι} {o : Outcome (Pc ι) Ret}
    (hE : SerialMutex.Exact ids.owner s.writers) (hk : Knows ids t s p)
    (h : exec ids adaptive t ch s p = some (s', o)) : Balances t s s' (some p) o.pc := by
  cases p with
  | locking q =>
    cases he : SerialMutex.exec ids.owner adaptive t ch s.writers q with
    | none => simp [exec, he] at h
    | some r =>
      obtain ⟨w, o'⟩ := r
      obtain ⟨hr, ⟨hw, ⟨q, rfl, -⟩ | ⟨rfl, -⟩⟩ | ⟨hw, k, rfl⟩⟩ := SerialMutex.exec_lockWrite hk he
      all_goals
        simp only [exec, he, Option.some.injEq, Prod.mk.injEq] at h
        obtain ⟨rfl, rfl⟩ := h
      · exact balances_of_eq hr hw rfl fun _ ↦ rfl
      · exact balances_of_eq hr hw rfl fun _ ↦ rfl
      · exact balances_gain hr hw rfl (fun _ ↦ rfl) fun _ ↦ rfl
  | trying q =>
    obtain rfl : q = .tryWriteGuard := hk
    cases he : SerialMutex.exec ids.owner adaptive t ch s.writers .tryWriteGuard with
    | none => simp [exec, he] at h
    | some r =>
      obtain ⟨w, o'⟩ := r
      obtain ⟨hr, ⟨hw, rfl⟩ | ⟨hw, rfl⟩⟩ := SerialMutex.exec_tryWriteGuard he
      all_goals
        simp only [exec, he, Option.some.injEq, Prod.mk.injEq] at h
        obtain ⟨rfl, rfl⟩ := h
      · exact balances_of_eq hr hw rfl fun _ ↦ rfl
      · exact balances_gain hr hw rfl (fun _ ↦ rfl) fun _ ↦ rfl
  | unlocking r q =>
    cases q with
    | unlockWrite a =>
      have hlt : s.exclusives a t < s.writers.writes a t := hk
      cases he : SerialMutex.exec ids.owner adaptive t ch s.writers (.unlockWrite a) with
      | none => simp [exec, he] at h
      | some x =>
        obtain ⟨w, o'⟩ := x
        obtain ⟨hr, hw, ho⟩ := SerialMutex.exec_unlockWrite hE (Nat.zero_lt_of_lt hlt) he
        have hb : ∀ q', (∀ b, inHand b t q' = 0) →
            Balances t s { s with writers := w } (some (.unlocking r (.unlockWrite a))) q' := by
          intro q' hq'
          refine ⟨hr, fun b k hk ↦ ?_, fun b ↦ ?_⟩
          · rw [show ({ s with writers := w } : Store ι).writers.writes = w.writes from rfl, hw,
              setShare_holder_of_ne _ _ _ hk]
            exact ⟨rfl, rfl⟩
          · rw [hq', show ({ s with writers := w } : Store ι).writers.writes =
              w.writes from rfl, hw,
              setShare_holder_self]
            simp only [inHand]
            split_ifs with hba
            · subst hba
              omega
            · omega
        rcases ho with rfl | rfl
        all_goals
          simp only [exec, he, Option.some.injEq, Prod.mk.injEq] at h
          obtain ⟨rfl, rfl⟩ := h
        · exact hb _ fun _ ↦ rfl
        · exact hb _ fun _ ↦ rfl
    | notifyBump | notifyWake =>
      simp only [exec, SerialMutex.exec, Option.some.injEq, Prod.mk.injEq] at h
      obtain ⟨rfl, rfl⟩ := h
      exact balances_of_eq rfl rfl rfl fun _ ↦ rfl
    | _ => exact absurd hk (by simp [Knows])
  | scan b l =>
    simp only [exec] at h
    split_ifs at h with hr hb hl
    · cases h
      exact balances_of_eq rfl rfl rfl fun _ ↦ rfl
    · cases h
      exact balances_of_eq rfl rfl rfl fun _ ↦ rfl
    · cases h
      exact balances_of_eq rfl rfl rfl fun _ ↦ rfl
    · cases h
      refine ⟨rfl, fun a k hk ↦ ⟨rfl, setShare_holder_of_ne _ _ _ hk a⟩, fun a ↦ ?_⟩
      simp only [inHand, Outcome.pc_ret, setShare_holder_self]
      split_ifs with ha
      · subst ha
        omega
      · omega
  | dropExclusive a =>
    simp only [exec] at h
    cases h
    have hpos : 0 < s.exclusives a t := hk
    refine ⟨rfl, fun b k hk ↦ ⟨rfl, setShare_holder_of_ne _ _ _ hk b⟩, fun b ↦ ?_⟩
    simp only [inHand, Outcome.pc_goto, setShare_holder_self]
    split_ifs with hba
    · subst hba
      omega
    · omega
  | storeWriting b | abort =>
    simp only [exec] at h
    cases h
    exact balances_of_eq rfl rfl rfl fun _ ↦ rfl
  | register | add | check | withdrawLoad | withdrawStore | withdrawSub | reentry | awaitWriting
  | dropLoad | dropStore | dropSub =>
    simp only [exec] at h
    repeat' split at h
    all_goals cases h
    all_goals exact balances_of_eq rfl rfl rfl fun _ ↦ rfl

section Runs

variable {ok : Config ι (Store ι) (Pc ι) → Label ι (Op ι) → Prop} {c : Config ι (Store ι) (Pc ι)}

/-- Nobody reads through the lock, and every write guard stands for an exclusive guard or is in the
hands of a call. -/
structure Accounted (c : Config ι (Store ι) (Pc ι)) : Prop where
  reads : ∀ a h, c.shared.writers.reads a h = 0
  writes : ∀ a h, c.shared.writers.writes a h = c.shared.exclusives a h + inHand a h (c.pcs h)

omit [Fintype ι] in
theorem Accounted.put {t : ι} {s' : Store ι} {o : Outcome (Pc ι) Ret} (h : Accounted c)
    (hb : Balances t c.shared s' (c.pcs t) o.pc) : Accounted (c.put t (s', o)) where
  reads a k := by
    rw [Config.put_shared, hb.reads]
    exact h.reads a k
  writes a k := by
    rw [Config.put_shared]
    by_cases hk : k = t
    · subst hk
      have h₁ := hb.balance a
      have h₂ := h.writes a k
      rw [Config.put_pcs_self]
      dsimp only
      omega
    · rw [Config.put_pcs_of_ne _ _ hk, (hb.others a k hk).1, (hb.others a k hk).2]
      exact h.writes a k

theorem reach_accounted (h : Reach (coord ids adaptive) ok init c) : Accounted c := by
  refine h.invariant (I := Accounted) ?_ ?_ ?_
  · exact ⟨fun _ _ ↦ rfl, fun _ _ ↦ rfl⟩
  · rintro c t op ⟨s', o⟩ - hA - hpc he
    cases op with
    | sendExclusive a u =>
      simp only [coord, enter] at he
      split_ifs at he with hpos
      cases he
      refine ⟨hA.reads, fun b k ↦ ?_⟩
      have hbt : c.shared.writers.writes b t = c.shared.exclusives b t := by
        have := hA.writes b t
        rw [hpc] at this
        exact this
      have hbk := hA.writes b k
      have hbu := hA.writes b u
      have hpcs : inHand b k ((c.put t (⟨c.shared, (.ret .unit : Outcome (Pc ι) Ret)⟩)).pcs k) =
          inHand b k (c.pcs k) := by
        by_cases hk : k = t
        · subst hk
          rw [Config.put_pcs_self, hpc]
          rfl
        · rw [Config.put_pcs_of_ne _ _ hk]
      rw [Config.put_shared]
      refine Eq.trans ?_ (congrArg _ hpcs.symm)
      dsimp only
      by_cases hba : b = a
      · subst hba
        rw [Function.update_self, Function.update_self]
        unfold transfer
        by_cases hku : k = u
        · subst hku
          rw [Function.update_self, Function.update_self]
          omega
        · rw [Function.update_of_ne hku, Function.update_of_ne hku]
          by_cases hkt : k = t
          · subst hkt
            rw [Function.update_self, Function.update_self]
            omega
          · rw [Function.update_of_ne hkt, Function.update_of_ne hkt]
            exact hbk
      · rw [Function.update_of_ne hba, Function.update_of_ne hba]
        exact hbk
    | shared =>
      simp only [coord, enter] at he
      cases he
      refine hA.put (balances_of_eq rfl rfl rfl fun a ↦ ?_)
      rw [hpc]
      cases hl : c.shared.last t <;> simp [sharedPc, inHand]
    | dropShared l =>
      simp only [coord, enter] at he
      split_ifs at he
      cases he
      refine hA.put (balances_of_eq rfl rfl rfl fun a ↦ ?_)
      rw [hpc]
      unfold dropPc
      split_ifs <;> rfl
    | exclusive | tryExclusive | dropExclusive | evict =>
      simp only [coord, enter] at he
      repeat' split at he
      all_goals cases he
      all_goals exact hA.put (balances_of_eq rfl rfl rfl fun a ↦ by rw [hpc]; rfl)
  · rintro c t ch p ⟨s', o⟩ hc hA - hpc he
    have hI := reach_inv hc
    refine hA.put ?_
    rw [hpc]
    exact exec_balances hI.exact (hI.knows t p hpc) he

/-- **A thread without exclusive guards is not refused by the lock**: its `exclusive` does not
panic. -/
theorem locking_not_poisoned (h : Reach (coord ids adaptive) ok init c) {t : ι} {ch : Choice ι}
    {p : SerialMutex.Pc ι} {s' : Store ι} {r : SerialMutex.Ret} (hpc : c.pcs t = some (.locking p))
    (hfree : ∀ u q, c.pcs u = some q → inHand t u (some q) = 0)
    (hx : ∀ u, c.shared.exclusives t u = 0) :
    exec ids adaptive t ch c.shared (.locking p) ≠ some (s', .ret (.poisoned r)) := by
  intro he
  have hI := reach_inv h
  have hA := reach_accounted h
  cases hs : SerialMutex.exec ids.owner adaptive t ch c.shared.writers p with
  | none => simp [exec, hs] at he
  | some x =>
    obtain ⟨w, o⟩ := x
    obtain ⟨-, ⟨-, ⟨q, rfl, -⟩ | ⟨rfl, hown⟩⟩ | ⟨-, k, rfl⟩⟩ :=
      SerialMutex.exec_lockWrite (hI.knows t _ hpc) hs
    · simp [exec, hs] at he
    · -- the word carries the number of `t`, so `t` has a guard somewhere
      have hpos := hI.exact.guards_of_own hown
      have hr : tally (c.shared.writers.reads t) = 0 := tally_eq_zero_iff.2 (hA.reads t)
      have hw : tally (c.shared.writers.writes t) = 0 := by
        refine tally_eq_zero_iff.2 fun u ↦ ?_
        rw [hA.writes t u, hx u]
        cases hu : c.pcs u with
        | none => rfl
        | some q =>
          have := hfree u q hu
          omega
      omega
    · simp [exec, hs] at he

end Runs

/-! ### The stages of a call

Code that calls into a `Coord` is at one of four stages of a call, and a call that comes back says
so in the record of the live guards. -/

/-- Inside `shared`. -/
def Sharing : Pc ι → Prop
  | .register _ | .add _ | .check _ | .withdrawLoad _ | .withdrawStore _ _ | .withdrawSub _
  | .reentry _ | .awaitWriting _ => True
  | _ => False

/-- Inside the drop of a pin. -/
def Dropping : Pc ι → Prop
  | .dropLoad _ | .dropStore _ _ | .dropSub _ => True
  | _ => False

/-- Inside the release of the writers' lock by the thread `t` that acquired it. -/
def Releasing (t : ι) : SerialMutex.Pc ι → Prop
  | .unlockWrite a => a = t
  | p => p = .notifyBump ∨ p = .notifyWake

/-- Inside `exclusive` or `try_exclusive`. -/
def Entering (t : ι) : Pc ι → Prop
  | .locking _ | .trying _ | .storeWriting _ | .scan _ _ | .abort => True
  | .unlocking r p => r = .busy ∧ Releasing t p
  | _ => False

/-- Inside the drop of an exclusive guard by the thread `t` that acquired it. -/
def Leaving (t : ι) : Pc ι → Prop
  | .dropExclusive a => a = t
  | .unlocking r p => r = .unit ∧ Releasing t p
  | _ => False

omit [Fintype ι] [DecidableEq ι] in
theorem sharing_sharedPc (last : Option ℕ) : Sharing (sharedPc last : Pc ι) := by
  cases last <;> trivial

omit [Fintype ι] [DecidableEq ι] in
theorem dropping_dropPc (lane : ℕ) : Dropping (dropPc lane : Pc ι) := by
  unfold dropPc
  split_ifs <;> trivial

section Stages

variable {t : ι} {ch : Choice ι} {s s' : Store ι} {p : Pc ι} {o : Outcome (Pc ι) Ret}

omit [Fintype ι] in
/-- A step of `t` leaves the guards of the other threads alone. -/
theorem exec_others (h : exec ids adaptive t ch s p = some (s', o)) (u : ι) (hu : u ≠ t) :
    s'.pins u = s.pins u ∧ ∀ a, s'.exclusives a u = s.exclusives a u := by
  cases p <;> simp only [exec] at h
  all_goals repeat' split at h
  all_goals cases h
  all_goals
    first
    | exact ⟨rfl, fun _ ↦ rfl⟩
    | exact ⟨Function.update_of_ne hu _ _, fun _ ↦ rfl⟩
    | exact ⟨rfl, fun a ↦ setShare_holder_of_ne _ _ _ hu a⟩

omit [Fintype ι] in
/-- **A `shared` that returns a pin leaves it live.** -/
theorem exec_sharing (hp : Sharing p) (h : exec ids adaptive t ch s p = some (s', o)) :
    s'.exclusives = s.exclusives ∧
    ((∃ q, o = .goto q ∧ Sharing q) ∨ (∃ lane, o = .ret (.pinned lane) ∧ 0 < s'.pins t lane) ∨
      o = .ret .reentrant) := by
  cases p with
  | check l =>
    simp only [exec] at h
    split_ifs at h
    · cases h
      exact ⟨rfl, Or.inl ⟨_, rfl, trivial⟩⟩
    · cases h
      exact ⟨rfl, Or.inl ⟨_, rfl, trivial⟩⟩
    · cases h
      exact ⟨rfl, Or.inr (Or.inl ⟨l, rfl, by simp [Store.setPins]⟩)⟩
  | reentry l =>
    simp only [exec] at h
    split_ifs at h
    · cases h
      exact ⟨rfl, Or.inr (Or.inr rfl)⟩
    · cases h
      exact ⟨rfl, Or.inl ⟨_, rfl, trivial⟩⟩
  | register | add | withdrawLoad | withdrawStore | withdrawSub | awaitWriting =>
    simp only [exec] at h
    repeat' split at h
    all_goals cases h
    all_goals exact ⟨rfl, Or.inl ⟨_, rfl, trivial⟩⟩
  | _ => exact absurd hp id

omit [Fintype ι] in
/-- The drop of a pin goes on or returns. -/
theorem exec_dropping (hp : Dropping p) (h : exec ids adaptive t ch s p = some (s', o)) :
    s'.exclusives = s.exclusives ∧ ((∃ q, o = .goto q ∧ Dropping q) ∨ o = .ret .unit) := by
  cases p with
  | dropLoad l =>
    simp only [exec] at h
    cases h
    exact ⟨rfl, Or.inl ⟨_, rfl, trivial⟩⟩
  | dropStore l n | dropSub l =>
    simp only [exec] at h
    cases h
    exact ⟨rfl, Or.inr rfl⟩
  | _ => exact absurd hp id

/-- The release of the writers' lock goes on or returns. -/
theorem exec_releasing {r : Ret} {q : SerialMutex.Pc ι}
    (hE : SerialMutex.Exact ids.owner s.writers) (hk : Knows ids t s (.unlocking r q))
    (h : exec ids adaptive t ch s (.unlocking r q) = some (s', o)) :
    s'.exclusives = s.exclusives ∧
    ((∃ q', o = .goto (.unlocking r q') ∧ Releasing t q') ∨ o = .ret r) := by
  cases q with
  | unlockWrite a =>
    have hlt : s.exclusives a t < s.writers.writes a t := hk
    cases he : SerialMutex.exec ids.owner adaptive t ch s.writers (.unlockWrite a) with
    | none => simp [exec, he] at h
    | some x =>
      obtain ⟨w, o'⟩ := x
      obtain ⟨-, -, rfl | rfl⟩ := SerialMutex.exec_unlockWrite hE (Nat.zero_lt_of_lt hlt) he
      all_goals
        simp only [exec, he, Option.some.injEq, Prod.mk.injEq] at h
        obtain ⟨rfl, rfl⟩ := h
      · exact ⟨rfl, Or.inl ⟨_, rfl, Or.inl rfl⟩⟩
      · exact ⟨rfl, Or.inr rfl⟩
  | notifyBump =>
    simp only [exec, SerialMutex.exec, Option.some.injEq, Prod.mk.injEq] at h
    obtain ⟨rfl, rfl⟩ := h
    exact ⟨rfl, Or.inl ⟨_, rfl, Or.inr rfl⟩⟩
  | notifyWake =>
    simp only [exec, SerialMutex.exec, Option.some.injEq, Prod.mk.injEq] at h
    obtain ⟨rfl, rfl⟩ := h
    exact ⟨rfl, Or.inr rfl⟩
  | _ => exact absurd hk (by simp [Knows])

/-- **An `exclusive` or a `try_exclusive` that succeeds leaves an exclusive guard**; the others
leave none, and only the lock panics. -/
theorem exec_entering (hE : SerialMutex.Exact ids.owner s.writers) (hk : Knows ids t s p)
    (hp : Entering t p) (h : exec ids adaptive t ch s p = some (s', o)) :
    (s'.exclusives = s.exclusives ∧ ((∃ q, o = .goto q ∧ Entering t q) ∨ o = .ret .busy ∨
      ∃ q r, p = .locking q ∧ o = .ret (.poisoned r))) ∨
    (s'.exclusives = setShare s.exclusives t t (s.exclusives t t + 1) ∧ o = .ret .exclusive) := by
  cases p with
  | locking q =>
    left
    simp only [exec] at h
    split at h
    all_goals cases h
    · exact ⟨rfl, Or.inl ⟨_, rfl, trivial⟩⟩
    · exact ⟨rfl, Or.inl ⟨_, rfl, trivial⟩⟩
    · exact ⟨rfl, Or.inr (Or.inr ⟨_, _, rfl, rfl⟩)⟩
  | trying q =>
    left
    simp only [exec] at h
    split at h
    all_goals cases h
    · exact ⟨rfl, Or.inl ⟨_, rfl, trivial⟩⟩
    · exact ⟨rfl, Or.inl ⟨_, rfl, trivial⟩⟩
    · exact ⟨rfl, Or.inr (Or.inl rfl)⟩
  | storeWriting b =>
    left
    simp only [exec] at h
    cases h
    exact ⟨rfl, Or.inl ⟨_, rfl, trivial⟩⟩
  | scan b l =>
    simp only [exec] at h
    split_ifs at h
    · cases h
      exact Or.inl ⟨rfl, Or.inl ⟨_, rfl, trivial⟩⟩
    · cases h
      exact Or.inl ⟨rfl, Or.inl ⟨_, rfl, trivial⟩⟩
    · cases h
      exact Or.inl ⟨rfl, Or.inl ⟨_, rfl, trivial⟩⟩
    · cases h
      exact Or.inr ⟨rfl, rfl⟩
  | abort =>
    left
    simp only [exec] at h
    cases h
    exact ⟨rfl, Or.inl ⟨_, rfl, rfl, rfl⟩⟩
  | unlocking r q =>
    obtain ⟨rfl, -⟩ := hp
    obtain ⟨hx, ⟨q', rfl, hq'⟩ | rfl⟩ := exec_releasing hE hk h
    · exact Or.inl ⟨hx, Or.inl ⟨_, rfl, rfl, hq'⟩⟩
    · exact Or.inl ⟨hx, Or.inr (Or.inl rfl)⟩
  | _ => exact absurd hp id

/-- The drop of an exclusive guard takes the guard back and then unlocks. -/
theorem exec_leaving (hE : SerialMutex.Exact ids.owner s.writers) (hk : Knows ids t s p)
    (hp : Leaving t p) (h : exec ids adaptive t ch s p = some (s', o)) :
    (p = .dropExclusive t ∧ s'.exclusives = setShare s.exclusives t t (s.exclusives t t - 1) ∧
      ∃ q, o = .goto q ∧ Leaving t q ∧ q ≠ .dropExclusive t) ∨
    (p ≠ .dropExclusive t ∧ s'.exclusives = s.exclusives ∧
      ((∃ q, o = .goto q ∧ Leaving t q ∧ q ≠ .dropExclusive t) ∨ o = .ret .unit)) := by
  cases p with
  | dropExclusive a =>
    obtain rfl : a = t := hp
    simp only [exec] at h
    cases h
    exact Or.inl ⟨rfl, rfl, _, rfl, ⟨rfl, rfl⟩, by simp⟩
  | unlocking r q =>
    obtain ⟨rfl, -⟩ := hp
    obtain ⟨hx, ⟨q', rfl, hq'⟩ | rfl⟩ := exec_releasing hE hk h
    · exact Or.inr ⟨by simp, hx, Or.inl ⟨_, rfl, ⟨rfl, hq'⟩, by simp⟩⟩
    · exact Or.inr ⟨by simp, hx, Or.inr rfl⟩
  | _ => exact absurd hp id

end Stages

/-! ### The flag

While an exclusive guard is out the flag is up, and only its holder lowers it. -/

/-- The thread has raised the flag and not lowered it. -/
def Raising : Pc ι → Prop
  | .scan _ _ | .abort => True
  | _ => False

/-- What a raised flag stands for: a live exclusive guard, or a call that has raised it. -/
def Raised (c : Config ι (Store ι) (Pc ι)) : Prop :=
  c.shared.writing = true →
    (∃ a h, 0 < c.shared.exclusives a h) ∨ ∃ t p, c.pcs t = some p ∧ Raising p

section Flag

variable {c : Config ι (Store ι) (Pc ι)} {t : ι} {s' : Store ι} {o : Outcome (Pc ι) Ret}

omit [Fintype ι] in
theorem Raised.put_same (h : Raised c) (hw : s'.writing = c.shared.writing)
    (hx : ∀ a k, c.shared.exclusives a k ≤ s'.exclusives a k)
    (hp : ∀ p, c.pcs t = some p → Raising p → (∃ q, o.pc = some q ∧ Raising q)) :
    Raised (c.put t (s', o)) := by
  intro hw'
  rw [Config.put_shared, hw] at hw'
  rcases h hw' with ⟨a, k, hpos⟩ | ⟨u, p, hpc, hr⟩
  · exact Or.inl ⟨a, k, hpos.trans_le (hx a k)⟩
  · right
    by_cases hu : u = t
    · subst hu
      obtain ⟨q, hq, hrq⟩ := hp p hpc hr
      exact ⟨u, q, by rw [Config.put_pcs_self]; exact hq, hrq⟩
    · exact ⟨u, p, by rw [Config.put_pcs_of_ne _ _ hu]; exact hpc, hr⟩

omit [Fintype ι] in
theorem reach_raised {ok : Config ι (Store ι) (Pc ι) → Label ι (Op ι) → Prop}
    (h : Reach (coord ids adaptive) ok init c) : Raised c := by
  refine h.invariant (I := Raised) ?_ ?_ ?_
  · intro hw
    cases hw
  · rintro c t op ⟨s', o⟩ - hR - hpc he
    have hnone : ∀ {o : Outcome (Pc ι) Ret}, ∀ p, c.pcs t = some p → Raising p →
        (∃ q, o.pc = some q ∧ Raising q) := by
      intro o p hp
      rw [hpc] at hp
      cases hp
    cases op with
    | sendExclusive a u =>
      simp only [coord, enter] at he
      split_ifs at he with hpos
      cases he
      intro hw
      rcases hR hw with ⟨b, k, hb⟩ | ⟨v, p, hv, hr⟩
      · -- the guard that is handed over is live afterwards
        by_cases hba : b = a
        · refine Or.inl ⟨a, u, ?_⟩
          simp [transfer]
        · refine Or.inl ⟨b, k, ?_⟩
          simp only [Config.put_shared, Function.update_of_ne hba]
          exact hb
      · refine Or.inr ⟨v, p, ?_, hr⟩
        rw [Config.put_pcs_of_ne _ _ (by rintro rfl; rw [hpc] at hv; cases hv)]
        exact hv
    | _ =>
      simp only [coord, enter] at he
      repeat' split at he
      all_goals cases he
      all_goals exact hR.put_same rfl (fun _ _ ↦ le_rfl) hnone
  · rintro c t ch p ⟨s', o⟩ - hR - hpc he
    have hother : ¬Raising p → ∀ {o : Outcome (Pc ι) Ret}, ∀ p, c.pcs t = some p → Raising p →
        (∃ q, o.pc = some q ∧ Raising q) := by
      intro hn o p hp hr
      rw [hpc] at hp
      cases hp
      exact absurd hr hn
    cases p with
    | storeWriting b =>
      cases he
      exact fun _ ↦ Or.inr ⟨t, _, Config.put_pcs_self _ _ _, trivial⟩
    | scan b l =>
      simp only [coord, exec] at he
      split_ifs at he with hr hb hl
      · cases he
        exact hR.put_same rfl (fun _ _ ↦ le_rfl) fun _ _ _ ↦ ⟨_, rfl, trivial⟩
      · cases he
        exact hR.put_same rfl (fun _ _ ↦ le_rfl) fun _ _ _ ↦ ⟨_, rfl, trivial⟩
      · cases he
        exact hR.put_same rfl (fun _ _ ↦ le_rfl) fun _ _ _ ↦ ⟨_, rfl, trivial⟩
      · cases he
        refine fun _ ↦ Or.inl ⟨t, t, ?_⟩
        simp [setShare]
    | abort | dropExclusive a =>
      cases he
      intro hw
      cases hw
    | _ =>
      simp only [coord, exec] at he
      repeat' split at he
      all_goals cases he
      all_goals exact hR.put_same rfl (fun _ _ ↦ le_rfl) (hother id)

end Flag

end Coord

end Crossync
