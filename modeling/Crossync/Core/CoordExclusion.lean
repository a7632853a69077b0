import Crossync.Core.CoordLanes

/-!
# `Coord` keeps pins and exclusive sections apart

Two layers over the lanes.

* **Counting.** Every counter is the number of live pins on its lane plus the increments that have
  been neither confirmed nor withdrawn.
* **The flag.** A writer that has scanned the lanes below `l` with the flag raised has found no live
  pin on them; since the flag is still raised none has been confirmed since. Only the writer itself
  lowers the flag, and there is only one.

The two threads of the classical argument are here a reader that increments and then looks at the
flag, and a writer that raises the flag and then looks at the counters; the scan spreads the
writer's look over 65 accesses, which is why `Claimed` carries the position of the scan.

## What rests on what

`Counted` rests on `Core.CoordLanes` and on nothing about the flag: a counter is a sum of
contributions, and each access moves its own. `Flagged` uses `Counted` at one place only, where the
scan reads a zero and concludes that there is no pin on the lane. `exclusive_excludes_shared` reads
both at the end of the scan.

Neither layer needs a bound on the number of threads. Any number of them may share the last counter,
which is why that counter is not owned and its decrement is atomic.
-/

open Interleave

namespace Crossync

namespace Coord

open SerialMutex (setShare)

variable {ι : Type*} [Fintype ι] [DecidableEq ι] {ids : ThreadIds ι} {adaptive : ℕ}

/-! ### Counting

An increment is not a pin yet: the reader looks at the flag first and withdraws if it is raised. -/

/-- The increment of lane `l` that a `shared` call has made and neither confirmed nor withdrawn. -/
def unconfirmed (l : ℕ) : Option (Pc ι) → ℕ
  | some (.check m) | some (.withdrawLoad m) | some (.withdrawStore m _) | some (.withdrawSub m) =>
    if m = l then 1 else 0
  | _ => 0

omit [Fintype ι] [DecidableEq ι] in
theorem unconfirmed_sharedPc (l : ℕ) (last : Option ℕ) :
    unconfirmed l (some (sharedPc last : Pc ι)) = 0 := by
  cases last <;> rfl

omit [Fintype ι] [DecidableEq ι] in
theorem unconfirmed_dropPc (l lane : ℕ) :
    unconfirmed l (some (dropPc lane : Pc ι)) = 0 := by
  unfold dropPc
  split_ifs <;> rfl

/-- The share of a thread in the counter of lane `l`. -/
def share (l : ℕ) (s : Store ι) (t : ι) (q : Option (Pc ι)) : ℕ := s.pins t l + unconfirmed l q

/-- **How a step moves the counters**: by as much as it moves its thread's share. -/
structure Counts (t : ι) (s s' : Store ι) (q q' : Option (Pc ι)) : Prop where
  others : ∀ u, u ≠ t → s'.pins u = s.pins u
  balance : ∀ l, s'.readers l + share l s t q = s.readers l + share l s' t q'

omit [Fintype ι] [DecidableEq ι] in
/-- A step that touches neither a counter nor a pin counts as before. -/
theorem counts_of_eq {t : ι} {s s' : Store ι} {q q' : Option (Pc ι)} (hr : s'.readers = s.readers)
    (hp : s'.pins = s.pins) (hq : ∀ l, unconfirmed l q' = unconfirmed l q) :
    Counts t s s' q q' where
  others u _ := by rw [hp]
  balance l := by simp only [share, hr, hp, hq]

omit [Fintype ι] [DecidableEq ι] in
/-- The counter of `l` and the share of `t` in it move together. -/
theorem counts_of_lane {t : ι} {s s' : Store ι} {q q' : Option (Pc ι)} (l : ℕ)
    (hr : ∀ m, m ≠ l → s'.readers m = s.readers m) (hp : ∀ u, u ≠ t → s'.pins u = s.pins u)
    (hpt : ∀ m, m ≠ l → s'.pins t m = s.pins t m)
    (hq : ∀ m, m ≠ l → unconfirmed m q' = unconfirmed m q)
    (hl : s'.readers l + share l s t q = s.readers l + share l s' t q') : Counts t s s' q q' where
  others := hp
  balance m := by
    by_cases hm : m = l
    · subst hm
      exact hl
    · simp only [share, hr m hm, hpt m hm, hq m hm]

omit [Fintype ι] in
/-- **The step lemma of the counters.** -/
theorem exec_counts {t : ι} {ch : Choice ι} {s s' : Store ι} {p : Pc ι} {o : Outcome (Pc ι) Ret}
    (hk : Knows ids t s p) (hle : ∀ l, share l s t (some p) ≤ s.readers l)
    (h : exec ids adaptive t ch s p = some (s', o)) : Counts t s s' (some p) o.pc := by
  have hupd : ∀ {l m n : ℕ}, m ≠ l → (s.setReaders l n).readers m = s.readers m := fun hm ↦
    Function.update_of_ne hm _ _
  cases p with
  | add l =>
    simp only [exec] at h
    cases h
    refine counts_of_lane l (fun m hm ↦ hupd hm) (fun _ _ ↦ rfl) (fun _ _ ↦ rfl)
      (fun m hm ↦ by simp [unconfirmed, Ne.symm hm]) ?_
    simp only [share, unconfirmed, Store.setReaders, Outcome.pc, Function.update_self, if_pos]
    omega
  | check l =>
    simp only [exec] at h
    split_ifs at h with hw hl
    · cases h
      exact counts_of_eq rfl rfl fun _ ↦ rfl
    · cases h
      exact counts_of_eq rfl rfl fun _ ↦ rfl
    · cases h
      refine counts_of_lane l (fun _ _ ↦ rfl) (fun u hu ↦ Function.update_of_ne hu _ _)
        (fun m hm ↦ ?_) (fun m hm ↦ by simp [unconfirmed, Ne.symm hm]) ?_
      · simp [Store.setPins, hm]
      · simp only [share, unconfirmed, Store.setPins, Outcome.pc, Function.update_self, if_pos]
  | withdrawLoad l =>
    simp only [exec] at h
    cases h
    exact counts_of_eq rfl rfl fun _ ↦ rfl
  | withdrawStore l n =>
    simp only [exec] at h
    cases h
    have hpos := hle l
    have hn : s.readers l = n := hk.2
    refine counts_of_lane l (fun m hm ↦ hupd hm) (fun _ _ ↦ rfl) (fun _ _ ↦ rfl)
      (fun m hm ↦ by simp [unconfirmed, Ne.symm hm]) ?_
    simp only [share, unconfirmed, Store.setReaders, Outcome.pc, Function.update_self, if_pos] at *
    omega
  | withdrawSub l =>
    simp only [exec] at h
    cases h
    have hpos := hle l
    refine counts_of_lane l (fun m hm ↦ hupd hm) (fun _ _ ↦ rfl) (fun _ _ ↦ rfl)
      (fun m hm ↦ by simp [unconfirmed, Ne.symm hm]) ?_
    simp only [share, unconfirmed, Store.setReaders, Outcome.pc, Function.update_self, if_pos] at *
    omega
  | dropStore l n =>
    simp only [exec] at h
    cases h
    have hpos := hle l
    have hn : s.readers l = n := hk.1.2
    have hpin : 0 < s.pins t l := hk.2
    refine counts_of_lane l (fun m hm ↦ hupd hm) (fun u hu ↦ Function.update_of_ne hu _ _)
      (fun m hm ↦ ?_) (fun m hm ↦ rfl) ?_
    · simp [Store.setPins, Store.setReaders, hm]
    · simp only [share, unconfirmed, Store.setReaders, Store.setPins, Outcome.pc,
        Function.update_self] at *
      omega
  | dropSub l =>
    simp only [exec] at h
    cases h
    have hpos := hle l
    have hpin : 0 < s.pins t l := hk.2
    refine counts_of_lane l (fun m hm ↦ hupd hm) (fun u hu ↦ Function.update_of_ne hu _ _)
      (fun m hm ↦ ?_) (fun m hm ↦ rfl) ?_
    · simp [Store.setPins, Store.setReaders, hm]
    · simp only [share, unconfirmed, Store.setReaders, Store.setPins, Outcome.pc,
        Function.update_self] at *
      omega
  | register | reentry | awaitWriting | dropLoad | locking | trying | storeWriting | scan | abort
  | dropExclusive | unlocking =>
    simp only [exec] at h
    repeat' split at h
    all_goals cases h
    all_goals exact counts_of_eq rfl rfl fun _ ↦ rfl

section Runs

variable {ok : Config ι (Store ι) (Pc ι) → Label ι (Op ι) → Prop} {c : Config ι (Store ι) (Pc ι)}

/-- Every counter is the sum of the threads' shares. -/
def Counted (c : Config ι (Store ι) (Pc ι)) : Prop :=
  ∀ l, c.shared.readers l = tally fun t ↦ share l c.shared t (c.pcs t)

/-- A step that moves a counter by what it does to pins and increments keeps the counting. -/
theorem Counted.put {t : ι} {s' : Store ι} {o : Outcome (Pc ι) Ret} (h : Counted c)
    (hc : Counts t c.shared s' (c.pcs t) o.pc) : Counted (c.put t (s', o)) := by
  intro l
  have hshares : (fun u ↦ share l s' u ((c.put t (s', o)).pcs u)) =
      Function.update (fun u ↦ share l c.shared u (c.pcs u)) t (share l s' t o.pc) := by
    funext u
    by_cases hu : u = t
    · subst hu
      simp
    · rw [Config.put_pcs_of_ne _ _ hu, Function.update_of_ne hu, share, hc.others u hu, share]
  have hbal := hc.balance l
  have htally := tally_update (fun u ↦ share l c.shared u (c.pcs u)) t (share l s' t o.pc)
  have hold := h l
  rw [Config.put_shared, hshares]
  dsimp only at htally ⊢
  omega

/-- The counters are exact along every run. -/
theorem reach_counted (h : Reach (coord ids adaptive) ok init c) : Counted c := by
  refine h.invariant (I := Counted) ?_ ?_ ?_
  · intro l
    exact tally_zero.symm
  · rintro c t op ⟨s', o⟩ - hI - hpc he
    refine hI.put ?_
    rw [hpc]
    cases op with
    | _ =>
      simp only [coord, enter] at he
      repeat' split at he
      all_goals cases he
      all_goals first
        | exact counts_of_eq rfl rfl fun _ ↦ rfl
        | exact counts_of_eq rfl rfl fun l ↦ unconfirmed_sharedPc l _
        | exact counts_of_eq rfl rfl fun l ↦ unconfirmed_dropPc l _
  · rintro c t ch p ⟨s', o⟩ hc hI - hpc he
    refine hI.put ?_
    rw [hpc]
    refine exec_counts ((reach_inv hc).knows t p hpc) (fun l ↦ ?_) he
    rw [hI l, ← hpc]
    exact le_tally (fun u ↦ share l c.shared u (c.pcs u)) t

omit [DecidableEq ι] in
/-- No counter is below the pins of one thread. -/
theorem Counted.pins_le (h : Counted c) (t : ι) (l : ℕ) :
    c.shared.pins t l ≤ c.shared.readers l := by
  rw [h l]
  exact (Nat.le_add_right _ _).trans (le_tally (fun u ↦ share l c.shared u (c.pcs u)) t)

/-! ### The flag

The scan goes over the lanes one by one. A pin confirmed on a lane before the scan reaches it makes
the scan wait; afterwards the flag is up and no pin can be confirmed. -/

/-- A writer has raised the flag and found the lanes below `l` without live pins. -/
def Claimed (s : Store ι) (l : ℕ) : Prop :=
  s.writing = true ∧ ∀ m, m < l → ∀ u, s.pins u m = 0

/-- The claim of a thread at a program point. -/
def Claims (s : Store ι) : Pc ι → Prop
  | .scan _ l => l ≤ lanes ∧ Claimed s l
  | _ => True

/-- **The invariant of the flag**: a live exclusive guard has claimed all lanes, and a scanning
writer those it has passed. -/
structure Flagged (c : Config ι (Store ι) (Pc ι)) : Prop where
  exclusive : ∀ a h, 0 < c.shared.exclusives a h → Claimed c.shared (lanes + 1)
  scanning : ∀ t p, c.pcs t = some p → Claims c.shared p

omit [Fintype ι] [DecidableEq ι] in
theorem claims_sharedPc (s : Store ι) (last : Option ℕ) : Claims s (sharedPc last) := by
  cases last <;> trivial

omit [Fintype ι] [DecidableEq ι] in
theorem claims_dropPc (s : Store ι) (lane : ℕ) : Claims s (dropPc lane) := by
  unfold dropPc
  split_ifs <;> trivial

omit [Fintype ι] [DecidableEq ι] in
/-- A scanned lane stays free of pins while the flag is up and no pin is confirmed. -/
theorem Claimed.mono {s s' : Store ι} {l : ℕ} (h : Claimed s l)
    (hw : s.writing = true → s'.writing = true) (hp : ∀ u m, s'.pins u m ≤ s.pins u m) :
    Claimed s' l :=
  ⟨hw h.1, fun m hm u ↦ Nat.le_zero.1 (h.2 m hm u ▸ hp u m)⟩

omit [Fintype ι] [DecidableEq ι] in
/-- What a writer claims survives such steps. -/
theorem Claims.mono {s s' : Store ι} {p : Pc ι} (h : Claims s p)
    (hw : s.writing = true → s'.writing = true) (hp : ∀ u m, s'.pins u m ≤ s.pins u m) :
    Claims s' p := by
  cases p with
  | scan b l => exact ⟨h.1, h.2.mono hw hp⟩
  | _ => trivial

omit [Fintype ι] in
/-- A step that keeps the flag and confirms no pin behind the scan keeps the claims of all. -/
theorem Flagged.put {t : ι} {s' : Store ι} {o : Outcome (Pc ι) Ret} (h : Flagged c)
    (hw : c.shared.writing = true → s'.writing = true)
    (hp : ∀ u m, s'.pins u m ≤ c.shared.pins u m)
    (hx : ∀ a k, 0 < s'.exclusives a k → 0 < c.shared.exclusives a k ∨ Claimed s' (lanes + 1))
    (ho : ∀ p, o.pc = some p → Claims s' p) : Flagged (c.put t (s', o)) where
  exclusive a k hk := (hx a k hk).elim (fun h' ↦ (h.exclusive a k h').mono hw hp) id
  scanning := Config.forall_put (L := fun _ s p ↦ Claims s p) ho
    fun u q _ hq ↦ (h.scanning u q hq).mono hw hp

omit [Fintype ι] in
/-- A step that changes neither the flag, the pins nor the exclusive guards. -/
theorem Flagged.put_same {t : ι} {s' : Store ι} {o : Outcome (Pc ι) Ret} (h : Flagged c)
    (hw : s'.writing = c.shared.writing) (hp : s'.pins = c.shared.pins)
    (hx : s'.exclusives = c.shared.exclusives) (ho : ∀ p, o.pc = some p → Claims s' p) :
    Flagged (c.put t (s', o)) :=
  h.put (fun hc ↦ hw.trans hc) (fun u m ↦ by rw [hp]) (fun a k hk ↦ Or.inl (hx ▸ hk)) ho

/-- While a thread holds a write guard that no exclusive guard stands for, there is no exclusive
guard. -/
theorem Inv.no_exclusive (hI : Inv ids adaptive c) {t a : ι}
    (ht : c.shared.exclusives a t < c.shared.writers.writes a t) (b k : ι) :
    c.shared.exclusives b k = 0 := by
  have hpos : 0 < c.shared.writers.writes a t := Nat.zero_lt_of_lt ht
  by_contra hne
  have hb : 0 < c.shared.exclusives b k := Nat.pos_of_ne_zero hne
  obtain ⟨rfl, rfl, hone⟩ := hI.exact.unique_writer hpos (hb.trans_le (hI.valid.backed b k))
  omega

/-- The writer lowers the flag: nobody else relies on it. -/
theorem Flagged.put_lower {t a : ι} {s' : Store ι} {o : Outcome (Pc ι) Ret}
    (hI : Inv ids adaptive c) (ht : s'.exclusives a t < s'.writers.writes a t)
    (hw : s'.writers = c.shared.writers) (hle : ∀ b k, s'.exclusives b k ≤ c.shared.exclusives b k)
    (hdrop : ∀ b k, 0 < c.shared.exclusives b k → b = a ∧ k = t)
    (ho : ∀ p, o.pc = some p → Claims s' p) : Flagged (c.put t (s', o)) := by
  have hpos : 0 < c.shared.writers.writes a t := hw ▸ Nat.zero_lt_of_lt ht
  have hone := (hI.exact.unique_writer hpos hpos).2.2
  refine ⟨fun b k hk ↦ ?_, ?_⟩
  · obtain ⟨rfl, rfl⟩ := hdrop b k (hk.trans_le (hle b k))
    have hk' : 0 < s'.exclusives b k := hk
    rw [hw] at ht
    omega
  · refine Config.forall_put (L := fun _ s p ↦ Claims s p) ho fun u q hut hq ↦ ?_
    cases q with
    | scan b l =>
      have hu : 0 < c.shared.writers.writes u u := Nat.zero_lt_of_lt (hI.knows u _ hq)
      exact absurd (hI.exact.unique_writer hu hpos).2.1 hut
    | _ => trivial

/-- What a scan has found stays true along every run. -/
theorem reach_flagged (h : Reach (coord ids adaptive) ok init c) : Flagged c := by
  refine h.invariant (I := Flagged) ?_ ?_ ?_
  · exact ⟨by simp [init, Store.new], by simp [init]⟩
  · rintro c t op ⟨s', o⟩ - hF - hpc he
    cases op with
    | sendExclusive a u =>
      simp only [coord, enter] at he
      split_ifs at he with hpos
      cases he
      exact hF.put (fun hc ↦ hc) (fun _ _ ↦ le_rfl)
        (fun b k _ ↦ Or.inr (hF.exclusive a t hpos.1)) (by simp)
    | _ =>
      simp only [coord, enter] at he
      repeat' split at he
      all_goals cases he
      all_goals refine hF.put_same rfl rfl rfl ?_
      all_goals
        intro p hp
        cases hp
        try first
          | trivial
          | exact claims_sharedPc _ _
          | exact claims_dropPc _ _
  · rintro c t ch p ⟨s', o⟩ hc hF - hpc he
    have hI := reach_inv hc
    have hk := hI.knows t p hpc
    simp only [coord] at he
    cases p with
    | check l =>
      simp only [exec] at he
      split_ifs at he with hw hl
      · cases he
        exact hF.put_same rfl rfl rfl (by rintro p ⟨⟩; trivial)
      · cases he
        exact hF.put_same rfl rfl rfl (by rintro p ⟨⟩; trivial)
      · -- a pin is confirmed: the flag is down, so nobody claims anything
        cases he
        refine ⟨fun a k hk ↦ absurd (hF.exclusive a k hk).1 hw, ?_⟩
        refine Config.forall_put (L := fun _ s p ↦ Claims s p) (by simp) fun u q _ hq ↦ ?_
        cases q with
        | scan b m => exact absurd (hF.scanning u _ hq).2.1 hw
        | _ => trivial
    | storeWriting b =>
      simp only [exec] at he
      cases he
      refine hF.put (fun _ ↦ rfl) (fun _ _ ↦ le_rfl) (fun _ _ ↦ Or.inl) ?_
      rintro p ⟨⟩
      exact ⟨Nat.zero_le _, rfl, fun m hm ↦ absurd hm (Nat.not_lt_zero m)⟩
    | scan b l =>
      have hclaim := hF.scanning t _ hpc
      simp only [exec] at he
      split_ifs at he with hr hb hl
      · cases he
        exact hF.put_same rfl rfl rfl (by rintro p ⟨⟩; exact hclaim)
      · cases he
        exact hF.put_same rfl rfl rfl (by rintro p ⟨⟩; trivial)
      all_goals
        have hzero : ∀ u, c.shared.pins u l = 0 := fun u ↦
          Nat.le_zero.1 ((not_not.1 hr) ▸ (reach_counted hc).pins_le u l)
        have hnext : Claimed c.shared (l + 1) := by
          refine ⟨hclaim.2.1, fun m hm u ↦ ?_⟩
          rcases Nat.lt_succ_iff_lt_or_eq.1 hm with hm | rfl
          · exact hclaim.2.2 m hm u
          · exact hzero u
        cases he
      · exact hF.put_same rfl rfl rfl (by rintro p ⟨⟩; exact ⟨hl, hnext⟩)
      · obtain rfl : l = lanes := Nat.le_antisymm hclaim.1 (not_lt.1 hl)
        exact hF.put (fun hc ↦ hc) (fun _ _ ↦ le_rfl) (fun _ _ _ ↦ Or.inr hnext) (by simp)
    | abort =>
      simp only [exec] at he
      cases he
      refine Flagged.put_lower (a := t) hI hk rfl (fun _ _ ↦ le_rfl) (fun b k hbk ↦ ?_)
        (by rintro p ⟨⟩; trivial)
      have := hI.no_exclusive hk b k
      omega
    | dropExclusive a =>
      simp only [exec] at he
      cases he
      have hpos : 0 < c.shared.exclusives a t := hk
      have hw : 0 < c.shared.writers.writes a t := hpos.trans_le (hI.valid.backed a t)
      have hback := hI.valid.backed a t
      refine Flagged.put_lower (a := a) hI ?_ rfl ?_ (fun b k hbk ↦ ?_) (by rintro p ⟨⟩; trivial)
      · show setShare c.shared.exclusives a t (c.shared.exclusives a t - 1) a t <
          c.shared.writers.writes a t
        rw [setShare_self]
        omega
      · exact setShare_le (fun _ _ ↦ le_rfl) (Nat.sub_le _ _)
      · obtain ⟨rfl, rfl, -⟩ :=
          hI.exact.unique_writer hw (hbk.trans_le (hI.valid.backed b k))
        exact ⟨rfl, rfl⟩
    | dropStore l n | dropSub l =>
      simp only [exec] at he
      cases he
      refine hF.put (fun hc ↦ hc) (fun u m ↦ ?_) (fun _ _ ↦ Or.inl) (by simp)
      by_cases hut : u = t
      · subst hut
        by_cases hm : m = l
        · subst hm
          simp [Store.setPins, Store.setReaders]
        · simp [Store.setPins, Store.setReaders, hm]
      · simp [Store.setPins, Store.setReaders, hut]
    | register | add | withdrawLoad | withdrawStore | withdrawSub | reentry | awaitWriting
    | dropLoad | locking | trying | unlocking =>
      simp only [exec] at he
      repeat' split at he
      all_goals cases he
      all_goals refine hF.put_same rfl rfl rfl ?_
      all_goals
        intro p hp
        cases hp
        try trivial

/-! ### Exclusion

The two layers together: a writer past the scan and a live pin cannot be there at once. -/

omit [Fintype ι] in
/-- No pin is live beside an exclusive guard: the guard has seen every lane empty. -/
theorem Flagged.no_pin (hF : Flagged c) (hI : Inv ids adaptive c) {a k t : ι} {l : ℕ}
    (hpos : 0 < c.shared.exclusives a k) : c.shared.pins t l = 0 := by
  by_contra hpin
  have hlt : l < lanes + 1 := by
    rcases hI.valid.pins t l (Nat.pos_of_ne_zero hpin) with rfl | hown
    · omega
    · exact Nat.lt_succ_of_lt hown.1
  exact hpin ((hF.exclusive a k hpos).2 l hlt t)

/-! ### The record follows the calls

The pins and the exclusive guards are a ghost of the model, and this is what ties them to the calls.
-/

/-- What a call does to the record of the pins and the exclusive guards. -/
inductive Duty (ι : Type*) where
  | pin
  | unpin (lane : ℕ)
  | enter
  | leave (acquirer : ι)
  deriving DecidableEq

/-- The duty that a call at a program point still has. A `try_exclusive` that gives up still has
it. -/
def duty : Pc ι → Option (Duty ι)
  | .register _ | .add _ | .check _ | .withdrawLoad _ | .withdrawStore _ _ | .withdrawSub _
  | .reentry _ | .awaitWriting _ => some .pin
  | .dropLoad lane | .dropStore lane _ | .dropSub lane => some (.unpin lane)
  | .locking _ | .trying _ | .storeWriting _ | .scan _ _ | .abort
  | .unlocking .busy _ => some .enter
  | .dropExclusive a => some (.leave a)
  | .unlocking _ _ => none

/-- The pins and the exclusive guards after a duty of thread `t`; the lane of a pin is the one that
the call returns. -/
def Duty.effect (t : ι) (k : Duty ι) (o : Outcome (Pc ι) Ret) (l : (ι → ℕ → ℕ) × (ι → ι → ℕ)) :
    (ι → ℕ → ℕ) × (ι → ι → ℕ) :=
  match k, o with
  | .pin, .ret (.pinned lane) =>
    (Function.update l.1 t (Function.update (l.1 t) lane (l.1 t lane + 1)), l.2)
  | .unpin lane, _ => (Function.update l.1 t (Function.update (l.1 t) lane (l.1 t lane - 1)), l.2)
  | .enter, _ => (l.1, setShare l.2 t t (l.2 t t + 1))
  | .leave a, _ => (l.1, setShare l.2 a t (l.2 a t - 1))
  | _, _ => l

/-- How a call that has done its duty returns. -/
def Duty.Reports : Duty ι → Ret → Prop
  | .pin, r => ∃ lane, r = .pinned lane
  | .enter, r => r = .exclusive
  | .unpin _, r | .leave _, r => r = .unit

/-- The live pins and exclusive guards. -/
def Store.holdings (s : Store ι) : (ι → ℕ → ℕ) × (ι → ι → ℕ) := (s.pins, s.exclusives)

omit [Fintype ι] in
/-- **The record follows the calls.** -/
theorem exec_follows {t : ι} {ch : Choice ι} {s s' : Store ι} {p : Pc ι} {o : Outcome (Pc ι) Ret}
    (he : exec ids adaptive t ch s p = some (s', o)) :
    Follows duty (Duty.effect t) Duty.Reports p s.holdings s'.holdings o := by
  cases p with
  | check lane =>
    simp only [exec] at he
    split_ifs at he <;> cases he
    · exact .stay rfl
    · exact .stay rfl
    · exact .finish rfl ⟨lane, rfl⟩ rfl
  | reentry lane =>
    simp only [exec] at he
    split_ifs at he <;> cases he
    · exact .refused rfl (by simp [Duty.Reports])
    · exact .stay rfl
  | dropStore lane count | dropSub lane =>
    cases he
    exact .finish rfl rfl rfl
  | locking q =>
    simp only [exec] at he
    split at he <;> cases he
    · exact .stay rfl
    · exact .stay rfl
    · exact .refused rfl (by simp [Duty.Reports])
  | trying q =>
    simp only [exec] at he
    split at he <;> cases he
    · exact .stay rfl
    · exact .stay rfl
    · exact .refused rfl (by simp [Duty.Reports])
  | scan block lane =>
    simp only [exec] at he
    split_ifs at he <;> cases he
    · exact .stay rfl
    · exact .stay rfl
    · exact .stay rfl
    · exact .finish rfl rfl rfl
  | dropExclusive a =>
    cases he
    exact .proceed rfl rfl rfl
  | unlocking r q =>
    have hnot : ∀ e k, duty (.unlocking r q) = some k → (e = r ∨ ∃ x, e = .poisoned x) →
        ¬ Duty.Reports (k : Duty ι) e := by
      rintro e k hk hr hrep
      have hbusy : r = .busy ∧ k = .enter := by
        cases r <;> cases hk
        exact ⟨rfl, rfl⟩
      obtain ⟨rfl, rfl⟩ := hbusy
      obtain rfl | ⟨x, rfl⟩ := hr <;> cases hrep
    simp only [exec] at he
    split at he <;> cases he
    · exact .goes _ rfl (by cases r <;> rfl) rfl
    · exact .ends _ rfl (fun k hk ↦ hnot _ k hk (Or.inl rfl)) rfl
    · exact .ends _ rfl (fun k hk ↦ hnot _ k hk (Or.inr ⟨_, rfl⟩)) rfl
  | _ =>
    simp only [exec] at he
    repeat' split at he
    all_goals cases he
    all_goals exact .stay rfl

/-- All live exclusive guards. -/
def liveExclusives (s : Store ι) : ℕ := tally fun a ↦ tally (s.exclusives a)

/-- **Pins and exclusive sections exclude each other, and the counters are exact.** In every
reachable state there is at most one live exclusive guard; while there is one, no pin is live; and
every counter is the number of live pins on its lane plus the increments of `shared` calls that have
been neither confirmed nor withdrawn. What is live is what the calls have returned and no drop has
given back. -/
theorem exclusive_excludes_shared (h : Reach (coord ids adaptive) Always init c) :
    liveExclusives c.shared ≤ 1 ∧
    (0 < liveExclusives c.shared → ∀ t l, c.shared.pins t l = 0) ∧
    (∀ l, c.shared.readers l = tally fun t ↦ c.shared.pins t l + unconfirmed l (c.pcs t)) ∧
    (∀ t ch p s' o, c.pcs t = some p → exec ids adaptive t ch c.shared p = some (s', o) →
      Follows duty (Duty.effect t) Duty.Reports p c.shared.holdings s'.holdings o) := by
  have hI := reach_inv h
  have hF := reach_flagged h
  refine ⟨?_, fun hpos t l ↦ ?_, reach_counted h, fun _ _ _ _ _ _ ↦ exec_follows⟩
  · have hle : liveExclusives c.shared ≤ SerialMutex.liveWrites c.shared.writers :=
      Finset.sum_le_sum fun a _ ↦ Finset.sum_le_sum fun k _ ↦ hI.valid.backed a k
    exact hle.trans hI.exact.decodes.write_le
  · obtain ⟨a, ha⟩ : ∃ a, tally (c.shared.exclusives a) ≠ 0 := by
      by_contra hnone
      push Not at hnone
      have := tally_eq_zero_iff.2 hnone
      unfold liveExclusives at hpos
      omega
    obtain ⟨k, hk⟩ : ∃ k, c.shared.exclusives a k ≠ 0 := by
      by_contra hnone
      push Not at hnone
      exact ha (tally_eq_zero_iff.2 hnone)
    exact hF.no_pin hI (Nat.pos_of_ne_zero hk)

end Runs

/-- The threads `0` and `1` with the numbers `1` and `2`. -/
def twoIds : ThreadIds (Fin 2) where
  owner := SerialMutex.twoIds
  lane t := t.val + 1
  lane_injective := by decide
  lane_ne_zero := by decide

/-- Thread `1` holds an exclusive guard while an increment of thread `0` is out. -/
theorem exclusive_excludes_shared_unconfirmed :
    ∃ c, Reach (coord twoIds 4) Always (init : Config (Fin 2) (Store (Fin 2)) (Pc (Fin 2))) c ∧
      c.shared.exclusives 1 1 = 1 ∧ c.pcs 0 = some (.check 1) ∧
      ∀ l, c.shared.readers l = tally fun t ↦ c.shared.pins t l + unconfirmed l (c.pcs t) := by
  obtain ⟨c, hc, ht⟩ := Reach.exists_of_replay (coord twoIds 4) Always
    (init : Config (Fin 2) (Store (Fin 2)) (Pc (Fin 2)))
    (.call 1 .exclusive :: List.replicate 67 (.exec 1 .go) ++
      [.call 0 .shared, .exec 0 .go, .exec 0 .go])
    (fun c ↦ decide (c.shared.exclusives 1 1 = 1 ∧ c.pcs 0 = some (.check 1))) (by decide)
  obtain ⟨h₁, h₂⟩ := of_decide_eq_true ht
  exact ⟨c, hc, h₁, h₂, (exclusive_excludes_shared hc).2.2.1⟩

end Coord

end Crossync
