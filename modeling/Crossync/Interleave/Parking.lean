import Crossync.Interleave.Futex

/-!
# Parking on a sequence number

The pattern behind every wait loop that sleeps on a futex used as a sequence number: a waiter loads
the sequence (it is then *keyed*), checks that somebody will have to wake it (it is then *armed*)
and sleeps if the sequence still has the loaded value; a releaser bumps the sequence and then wakes
all sleepers.

What keeps a sleeper from being lost is a *cover*: a condition on the store — a flag, typically —
under which the next release is bound to bump. The pattern is sound when

* a waiter arms only while the cover holds, and
* the step that takes the cover away leaves its thread about to bump.

`Park` lists the seven things a step may do to one such futex, `Lot` is the invariant, and
`Lot.step` says that every step of the list keeps it. A lock is shown to lose no wakeup by sorting
its steps into the list; the argument itself is made only here.

## How a lock uses it

1. Say for each program point which `Role` it has: none, keyed, armed, asleep, or owing a bump or a
   wake.
2. Say which stores are covered.
3. Prove that each access is one of the steps of `Park`. This is a case analysis over the code, and
   the only one.

Then `Lot.step` carries the invariant, `Lot.queued` and `Park.rest` read it, and the lock's own
theorem is what they say in the lock's words. Where the cover is conditional (a flag that another
path may clear), the condition becomes a guard on runs, and the same rule applies to the runs that
satisfy it.
-/

namespace Interleave

/-- Where a thread stands with respect to one futex. -/
inductive Role where
  /-- Not concerned with the futex. -/
  | out
  /-- Has loaded the sequence number `k`. -/
  | keyed (k : ℕ)
  /-- Has loaded `k` and found the cover; will sleep if the sequence still is `k`. -/
  | armed (k : ℕ)
  /-- In the sleeping call. -/
  | asleep
  /-- Owes a bump of the sequence. -/
  | bump
  /-- Has bumped the sequence and owes a wake. -/
  | wake
  deriving DecidableEq

/-- A thread in this role has not gone to sleep and owes nothing. -/
def Role.Free : Role → Prop
  | out | keyed _ | armed _ => True
  | _ => False

variable {ι : Type*} [DecidableEq ι]

/-- **What one step may do to a parking futex**, as seen by the thread `t` that moves from role `r`
to role `r'` while the futex goes from `f` to `f'` and the cover from `cov` to `cov'`. -/
inductive Park (t : ι) (f f' : Futex ι ℕ) (cov cov' : Prop) (r r' : Role) : Prop where
  /-- The futex is left alone. A lost cover is owed as a bump. -/
  | idle (hf : f' = f) (hcov : cov → cov' ∨ r' = .bump) (hr : r.Free)
      (hr' : r' = .out ∨ r' = .bump ∨ r' = r ∧ ∃ k, r = .keyed k)
  /-- Load of the sequence number. -/
  | key (hf : f' = f) (hcov : cov → cov') (hr : r.Free) (hr' : r' = .keyed f.value)
  /-- The cover is found. -/
  | arm (k : ℕ) (hf : f' = f) (hcov : cov') (hr : r = .keyed k) (hr' : r' = .armed k)
  /-- The thread goes to sleep on a matching sequence number. -/
  | sleep (k : ℕ) (hv : f.value = k) (hf : f' = { f with waiters := insert t f.waiters })
      (hcov : cov → cov') (hr : r = .armed k) (hr' : r' = .asleep)
  /-- The sleeping call returns. -/
  | resume (hv : f'.value = f.value) (hw : f'.waiters = f.waiters.erase t) (hcov : cov → cov')
      (hr : r = .asleep) (hr' : r' = .out)
  /-- The owed bump. -/
  | bump (hv : f'.value = f.value + 1) (hw : f'.waiters = f.waiters) (hcov : cov → cov')
      (hr : r = .bump) (hr' : r' = .wake)
  /-- The owed wake. -/
  | wake (hv : f'.value = f.value) (hw : f'.waiters = ∅) (hcov : cov → cov') (hr : r = .wake)
      (hr' : r' = .out)

/-- A step that has nothing to do with the futex. -/
theorem Park.rest {t : ι} {f : Futex ι ℕ} {cov : Prop} : Park t f f cov cov .out .out :=
  .idle rfl Or.inl trivial (Or.inl rfl)

/-- **The parking invariant.** Sequence numbers in hand are not from the future; an armed thread
that could still fall asleep, and every sleeper, is covered, or somebody owes the futex a bump or a
wake. -/
structure Lot (f : Futex ι ℕ) (cov : Prop) (role : ι → Role) : Prop where
  keyed_le : ∀ t k, role t = .keyed k → k ≤ f.value
  armed : ∀ t k, role t = .armed k →
    k ≤ f.value ∧ (k < f.value ∨ (∃ u, role u = .bump) ∨ cov)
  asleep : ∀ t ∈ f.waiters, role t = .asleep
  covered : f.waiters.Nonempty → (∃ u, role u = .wake) ∨ (∃ u, role u = .bump) ∨ cov

namespace Lot

variable {f f' : Futex ι ℕ} {cov cov' : Prop} {role : ι → Role} {t : ι} {r' : Role}

omit [DecidableEq ι] in
/-- A new futex with nobody around. -/
theorem new (v : ℕ) (cov : Prop) : Lot (.new v : Futex ι ℕ) cov fun _ ↦ .out where
  keyed_le _ _ h := by cases h
  armed _ _ h := by cases h
  asleep t h := by simp [Futex.new] at h
  covered h := by simp [Futex.new] at h

omit [DecidableEq ι] in
/-- A debt of another thread is still owed after `t` moved. -/
theorem exists_update [DecidableEq ι] {d : Role} (hne : role t ≠ d)
    (h : ∃ u, role u = d) : ∃ u, Function.update role t r' u = d := by
  obtain ⟨u, hu⟩ := h
  have hut : u ≠ t := by
    rintro rfl
    exact hne hu
  exact ⟨u, by rw [Function.update_of_ne hut, hu]⟩

/-- If nothing is lost — no number in hand is above the sequence, and whatever covered a waiter
still does — the invariant passes to the moved threads. -/
theorem of_covers (h : Lot f cov role) (hval : f.value ≤ f'.value)
    (hself : ∀ k, r' = .keyed k → k ≤ f'.value)
    (hself' : ∀ k, r' = .armed k → k ≤ f'.value ∧
      (k < f'.value ∨ (∃ u, Function.update role t r' u = .bump) ∨ cov'))
    (hsleep : ∀ u ∈ f'.waiters, u ≠ t → u ∈ f.waiters) (ht : t ∈ f'.waiters → r' = .asleep)
    (hdebt : (∃ u, role u = .bump) ∨ cov → f.value < f'.value ∨
      (∃ u, Function.update role t r' u = .bump) ∨ cov')
    (hcovered : f'.waiters.Nonempty → (∃ u, Function.update role t r' u = .wake) ∨
      (∃ u, Function.update role t r' u = .bump) ∨ cov') :
    Lot f' cov' (Function.update role t r') where
  keyed_le u k hu := by
    by_cases hut : u = t
    · subst hut
      exact hself k (by simpa using hu)
    · rw [Function.update_of_ne hut] at hu
      exact (h.keyed_le u k hu).trans hval
  armed u k hu := by
    by_cases hut : u = t
    · subst hut
      exact hself' k (by simpa using hu)
    · rw [Function.update_of_ne hut] at hu
      obtain ⟨hle, hc⟩ := h.armed u k hu
      refine ⟨hle.trans hval, ?_⟩
      rcases hc with hlt | hc
      · exact Or.inl (hlt.trans_le hval)
      · rcases hdebt hc with hlt | hc
        · exact Or.inl (hle.trans_lt hlt)
        · exact Or.inr hc
  asleep u hu := by
    by_cases hut : u = t
    · subst hut
      simpa using ht hu
    · rw [Function.update_of_ne hut]
      exact h.asleep u (hsleep u hu hut)
  covered := hcovered

omit [DecidableEq ι] in
/-- Where nobody owes a wakeup, the sleepers are covered. -/
theorem queued (h : Lot f cov role) (hidle : ∀ u, role u = .out ∨ role u = .asleep)
    (hne : f.waiters.Nonempty) :
    cov := by
  rcases h.covered hne with ⟨u, hu⟩ | ⟨u, hu⟩ | hc
  · rcases hidle u with hr | hr <;> rw [hr] at hu <;> cases hu
  · rcases hidle u with hr | hr <;> rw [hr] at hu <;> cases hu
  · exact hc

/-- **No step of the list loses a wakeup.** -/
theorem step (h : Lot f cov role) (hp : Park t f f' cov cov' (role t) r') :
    Lot f' cov' (Function.update role t r') := by
  have hself : Function.update role t r' t = r' := Function.update_self ..
  cases hp with
  | idle hf hcov hr hr' =>
    subst hf
    have hb : role t ≠ .bump := by intro he; rw [he] at hr; exact hr
    have hw : role t ≠ .wake := by intro he; rw [he] at hr; exact hr
    have hdebt : (∃ u, role u = .bump) ∨ cov →
        (∃ u, Function.update role t r' u = .bump) ∨ cov' := by
      rintro (hd | hc)
      · exact Or.inl (exists_update hb hd)
      · rcases hcov hc with hc | rfl
        · exact Or.inr hc
        · exact Or.inl ⟨t, hself⟩
    refine h.of_covers le_rfl ?_ ?_ (fun u hu _ ↦ hu) ?_ (fun hd ↦ Or.inr (hdebt hd)) ?_
    · intro k hk
      rcases hr' with rfl | rfl | ⟨rfl, -⟩
      · cases hk
      · cases hk
      · exact h.keyed_le t k hk
    · intro k hk
      rcases hr' with rfl | rfl | ⟨rfl, k', hk'⟩
      · cases hk
      · cases hk
      · rw [hk'] at hk
        cases hk
    · intro ht
      rw [h.asleep t ht] at hr
      exact hr.elim
    · intro hne
      rcases h.covered hne with hd | hd
      · exact Or.inl (exists_update hw hd)
      · exact Or.inr (hdebt hd)
  | key hf hcov hr hr' =>
    subst hf hr'
    have hb : role t ≠ .bump := by intro he; rw [he] at hr; exact hr
    have hw : role t ≠ .wake := by intro he; rw [he] at hr; exact hr
    refine h.of_covers le_rfl ?_ (by simp) (fun u hu _ ↦ hu) ?_ ?_ ?_
    · intro k hk
      cases hk
      exact le_rfl
    · intro ht
      rw [h.asleep t ht] at hr
      exact hr.elim
    · rintro (hd | hc)
      · exact Or.inr (Or.inl (exists_update hb hd))
      · exact Or.inr (Or.inr (hcov hc))
    · intro hne
      rcases h.covered hne with hd | hd | hc
      · exact Or.inl (exists_update hw hd)
      · exact Or.inr (Or.inl (exists_update hb hd))
      · exact Or.inr (Or.inr (hcov hc))
  | arm k hf hcov hr hr' =>
    subst hf hr'
    refine h.of_covers le_rfl (by simp) ?_ (fun u hu _ ↦ hu) ?_ (fun _ ↦ Or.inr (Or.inr hcov))
      (fun _ ↦ Or.inr (Or.inr hcov))
    · intro k' hk'
      cases hk'
      exact ⟨h.keyed_le t k hr, Or.inr (Or.inr hcov)⟩
    · intro ht
      rw [h.asleep t ht] at hr
      cases hr
  | sleep k hv hf hcov hr hr' =>
    subst hf hr'
    have hb : role t ≠ .bump := by rw [hr]; simp
    have hdebt : (∃ u, role u = .bump) ∨ cov →
        (∃ u, Function.update role t .asleep u = .bump) ∨ cov' := by
      rintro (hd | hc)
      · exact Or.inl (exists_update hb hd)
      · exact Or.inr (hcov hc)
    -- the sequence number matched, so what covers the sleeper is a debt or the cover itself
    have hcovt := (h.armed t k hr).2.resolve_left (by omega)
    refine h.of_covers le_rfl (by simp) (by simp) ?_ (fun _ ↦ rfl)
      (fun hd ↦ Or.inr (hdebt hd)) (fun _ ↦ Or.inr (hdebt hcovt))
    intro u hu hut
    simpa [hut] using hu
  | resume hv hw hcov hr hr' =>
    subst hr'
    have hb : role t ≠ .bump := by rw [hr]; simp
    have hk : role t ≠ .wake := by rw [hr]; simp
    refine h.of_covers hv.ge (by simp) (by simp) ?_ ?_ ?_ ?_
    · intro u hu _
      rw [hw] at hu
      exact Finset.mem_of_mem_erase hu
    · intro ht
      rw [hw] at ht
      exact absurd ht (Finset.notMem_erase t _)
    · rintro (hd | hc)
      · exact Or.inr (Or.inl (exists_update hb hd))
      · exact Or.inr (Or.inr (hcov hc))
    · intro hne
      rw [hw] at hne
      rcases h.covered (hne.mono (Finset.erase_subset _ _)) with hd | hd | hc
      · exact Or.inl (exists_update hk hd)
      · exact Or.inr (Or.inl (exists_update hb hd))
      · exact Or.inr (Or.inr (hcov hc))
  | bump hv hw hcov hr hr' =>
    subst hr'
    refine h.of_covers (by omega) (by simp) (by simp) ?_ ?_ (fun _ ↦ Or.inl (by omega))
      (fun _ ↦ Or.inl ⟨t, hself⟩)
    · intro u hu _
      rwa [hw] at hu
    · intro ht
      rw [hw] at ht
      rw [h.asleep t ht] at hr
      cases hr
  | wake hv hw hcov hr hr' =>
    subst hr'
    have hb : role t ≠ .bump := by rw [hr]; simp
    refine h.of_covers hv.ge (by simp) (by simp) ?_ ?_ ?_ ?_
    · intro u hu
      simp [hw] at hu
    · intro ht
      simp [hw] at ht
    · rintro (hd | hc)
      · exact Or.inr (Or.inl (exists_update hb hd))
      · exact Or.inr (Or.inr (hcov hc))
    · intro hne
      simp [hw] at hne

end Lot

end Interleave
