import Mathlib.Algebra.BigOperators.Group.Finset.Basic
import Mathlib.Algebra.Order.BigOperators.Group.Finset
import Mathlib.Data.Fintype.BigOperators
import Crossync.Interleave.System

/-!
# Tallies over threads

A count such as "the acquisitions outstanding" is a sum over all threads of what each one holds.
Threads range over an arbitrary finite type, so every statement holds for any number of threads; the
lemmas say how a sum moves when one thread's share moves, in a subtraction-free form that `omega`
can use directly.

The shares themselves are a record that no code reads. It means something only if it moves when a
call does its part and at no other time, and if the caller is told so. `Follows` says this of one
access: until the access that does the **duty** of a call the record stays; that access changes it
by the effect of the duty; and what the call returns reports the duty exactly if it was done.

## Why no subtraction

A share that falls from `n + 1` to `n` lowers the sum by one; in natural numbers the sum after is
not `sum - 1` unless the sum is known to be positive. `tally_update` says it with additions on both
sides, which needs no side condition and gives `omega` an equation it can use in either direction.
-/

namespace Interleave

variable {ι : Type*} [Fintype ι] [DecidableEq ι]

/-- The sum of a per-thread share. -/
def tally (f : ι → ℕ) : ℕ := ∑ t, f t

/-- **How a tally moves** when the share of `t` becomes `n`. -/
theorem tally_update (f : ι → ℕ) (t : ι) (n : ℕ) :
    tally (Function.update f t n) + f t = tally f + n := by
  unfold tally
  rw [Finset.sum_update_of_mem (Finset.mem_univ t),
    ← Finset.add_sum_erase Finset.univ f (Finset.mem_univ t), Finset.sdiff_singleton_eq_erase]
  omega

/-- How a tally over the program points moves with a step. -/
theorem tally_put {S P R : Type*} (f : Option P → ℕ) (c : Config ι S P) (t : ι)
    (r : S × Outcome P R) :
    tally (fun u ↦ f ((c.put t r).pcs u)) + f (c.pcs t) =
      tally (fun u ↦ f (c.pcs u)) + f r.2.pc := by
  rw [Config.comp_put_pcs]
  exact tally_update _ t _

/-- The same, for a thread whose share goes from `m` to `n`. -/
theorem tally_put_of {S P R : Type*} {f : Option P → ℕ} {c : Config ι S P} {t : ι}
    {r : S × Outcome P R} {m n : ℕ} (hm : f (c.pcs t) = m) (hn : f r.2.pc = n) :
    tally (fun u ↦ f ((c.put t r).pcs u)) + m = tally (fun u ↦ f (c.pcs u)) + n := by
  rw [← hm, ← hn]
  exact tally_put f c t r

/-- A step that does not change the share of the thread that moves. -/
theorem tally_put_same {S P R : Type*} {f : Option P → ℕ} {c : Config ι S P} {t : ι}
    {r : S × Outcome P R} (h : f r.2.pc = f (c.pcs t)) :
    tally (fun u ↦ f ((c.put t r).pcs u)) = tally fun u ↦ f (c.pcs u) := by
  have := tally_put f c t r
  omega

omit [DecidableEq ι] in
theorem le_tally (f : ι → ℕ) (t : ι) : f t ≤ tally f :=
  Finset.single_le_sum (f := f) (fun _ _ ↦ Nat.zero_le _) (Finset.mem_univ t)

theorem add_le_tally (f : ι → ℕ) {t u : ι} (h : t ≠ u) : f t + f u ≤ tally f := by
  unfold tally
  rw [← Finset.sum_pair h]
  exact Finset.sum_le_sum_of_subset (Finset.subset_univ _)

omit [DecidableEq ι] in
theorem tally_eq_zero_iff {f : ι → ℕ} : tally f = 0 ↔ ∀ t, f t = 0 := by
  simp [tally, Finset.sum_eq_zero_iff]

omit [DecidableEq ι] in
/-- A tally held by one thread alone is that thread's share. -/
theorem tally_eq_of_forall_ne {f : ι → ℕ} {t : ι} (h : ∀ u, u ≠ t → f u = 0) :
    tally f = f t :=
  Finset.sum_eq_single t (fun u _ hu ↦ h u hu) (fun ht ↦ absurd (Finset.mem_univ t) ht)

/-- One unit of `t`'s share becomes `u`'s. -/
def transfer (f : ι → ℕ) (t u : ι) : ι → ℕ :=
  Function.update (Function.update f t (f t - 1)) u (f u + 1)

omit [Fintype ι] in
/-- Handing a unit over takes from nobody but the giver. -/
theorem le_transfer (f : ι → ℕ) {t u v : ι} (hv : v ≠ t) : f v ≤ transfer f t u v := by
  unfold transfer
  by_cases hu : v = u
  · subst hu
    simp
  · simp [hu, hv]

omit [Fintype ι] in
/-- One unit of a share passes from `t` to `u`. -/
theorem transfer_cases {f : ι → ℕ} {t u : ι} (hu : u ≠ t) :
    transfer f t u t = f t - 1 ∧ transfer f t u u = f u + 1 ∧
      ∀ v, v ≠ t → v ≠ u → transfer f t u v = f v := by
  unfold transfer
  exact ⟨by simp [Ne.symm hu], by simp, fun v ht hv ↦ by simp [ht, hv]⟩

/-- Handing a unit over does not move the tally. -/
theorem tally_transfer {f : ι → ℕ} {t u : ι} (h : 0 < f t) (hne : u ≠ t) :
    tally (transfer f t u) = tally f := by
  have h₁ := tally_update f t (f t - 1)
  have h₂ := tally_update (Function.update f t (f t - 1)) u (f u + 1)
  rw [Function.update_of_ne hne] at h₂
  unfold transfer
  omega

omit [DecidableEq ι] in
@[simp] theorem tally_zero : tally (fun _ : ι ↦ 0) = 0 := by
  simp [tally]

/-! ### A record that follows the calls

`Follows` is about one access. An access that ends no duty leaves the record alone; the one that
ends it changes the record by its effect; what is returned says which of the two it was. -/

section Follows

variable {P R K L : Type*} {duty : P → Option K} {effect : K → Outcome P R → L → L}
  {reports : K → R → Prop} {p : P} {l l' : L} {o : Outcome P R}

/-- **An access and the record.** A call at program point `p` still has `duty p` to do; the access
takes the record from `l` to `l'`, with outcome `o`. -/
inductive Follows (duty : P → Option K) (effect : K → Outcome P R → L → L) (reports : K → R → Prop)
    (p : P) (l l' : L) (o : Outcome P R) : Prop where
  /-- The call goes on, and its duty is still there or was done before. -/
  | goes (q : P) (ho : o = .goto q) (hq : duty q = duty p) (hl : l' = l)
  /-- The access does the duty. The call returns with a report of it, or has other things to do. -/
  | does (k : K) (hp : duty p = some k)
      (ho : (∃ q, o = .goto q ∧ duty q = none) ∨ ∃ r, o = .ret r ∧ reports k r)
      (hl : l' = effect k o l)
  /-- The call returns without a report: it gave up its duty, or had done it before. -/
  | ends (r : R) (ho : o = .ret r) (hp : ∀ k, duty p = some k → ¬ reports k r) (hl : l' = l)

/-- An access after which the call goes on with the same duty. -/
theorem Follows.stay {q : P} (hq : duty q = duty p) : Follows duty effect reports p l l (.goto q) :=
  .goes q rfl hq rfl

/-- An access that does the duty of a call that then returns. -/
theorem Follows.finish {k : K} {r : R} (hp : duty p = some k) (hr : reports k r)
    (hl : l' = effect k (.ret r) l) : Follows duty effect reports p l l' (.ret r) :=
  .does k hp (Or.inr ⟨r, rfl, hr⟩) hl

/-- An access that does the duty of a call that then goes on. -/
theorem Follows.proceed {k : K} {q : P} (hp : duty p = some k) (hq : duty q = none)
    (hl : l' = effect k (.goto q) l) : Follows duty effect reports p l l' (.goto q) :=
  .does k hp (Or.inl ⟨q, rfl, hq⟩) hl

/-- An access with which a call ends that has no duty. -/
theorem Follows.over {r : R} (hp : duty p = none) : Follows duty effect reports p l l (.ret r) :=
  .ends r rfl (fun k hk ↦ by rw [hp] at hk; cases hk) rfl

/-- An access with which a call ends that gives its duty up. -/
theorem Follows.refused {k : K} {r : R} (hp : duty p = some k) (hr : ¬ reports k r) :
    Follows duty effect reports p l l (.ret r) :=
  .ends r rfl (fun k' hk ↦ by rw [hp] at hk; cases hk; exact hr) rfl

end Follows

end Interleave
