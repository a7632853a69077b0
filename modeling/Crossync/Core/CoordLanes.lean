import Crossync.Core.Coord
import Crossync.Core.SerialExact

/-!
# The lanes of a `Coord`

A lane below `lanes` belongs for good to the thread that claimed it, so no other thread moves its
counter; a load followed by a store is then as good as an atomic decrement. This is the first of the
three layers of the exclusion argument. It also carries the lock of the writers: the accesses made
inside it form a run of `SerialMutex`, so its word is exact here as well, and every exclusive guard
is backed by a write guard.

`Knows` is what a thread may rely on between two accesses, `Foreign` is what the steps of other
threads leave alone, and `StepSafe` is what every step gives. The last section puts them together
(`reach_inv`).

## Why a load and a store are enough

Between the load of a lane's counter and the store of the decremented value, a concurrent increment
of the same counter would be lost. There is none: only the owner of a lane writes its counter, and
the owner is at the store. `Foreign` is the form in which this is used, as a guarantee of every step
of every other thread, and `Knows` has the value loaded as a fact about the counter until the store
is made.

## What is left to the next layer

Nothing here says that a counter is the number of pins, and nothing speaks of the flag. Both are in
`Core.CoordExclusion`, over `reach_inv`.
-/

open Interleave

namespace Crossync

namespace Coord

open SerialMutex (setShare setShare_holder_of_ne)

variable {ι : Type*} [DecidableEq ι] {ids : ThreadIds ι} {adaptive : ℕ}

/-! ### Lanes

The lane of a thread is fixed by its identity at the claim. The owner word of a lane is written
once, from zero to the identity of its owner, so no second thread can come to own it. -/

/-- `t` has claimed lane `l`. -/
def Owns (ids : ThreadIds ι) (t : ι) (s : Store ι) (l : ℕ) : Prop :=
  l < lanes ∧ s.owners l = ids.lane t

/-- `t` may count on lane `l`: it has claimed it, or it is the common one. -/
def Lane (ids : ThreadIds ι) (t : ι) (s : Store ι) (l : ℕ) : Prop := l = lanes ∨ Owns ids t s l

omit [DecidableEq ι] in
/-- A lane has at most one owner. -/
theorem Owns.unique {t u : ι} {s : Store ι} {l : ℕ} (ht : Owns ids t s l) (hu : Owns ids u s l) :
    t = u :=
  ids.lane_injective (ht.2.symm.trans hu.2)

omit [DecidableEq ι] in
/-- Another thread's lane is not one that `t` counts on. -/
theorem Lane.ne_of_owns {t u : ι} {s : Store ι} {l m : ℕ} (ht : Lane ids t s l)
    (hu : Owns ids u s m) (hne : u ≠ t) : m ≠ l := by
  rintro rfl
  rcases ht with rfl | ht
  · exact absurd hu.1 (lt_irrefl _)
  · exact hne (hu.unique ht)

/-- What a thread knows at a program point. -/
def Knows (ids : ThreadIds ι) (t : ι) (s : Store ι) : Pc ι → Prop
  | .register _ => True
  | .add l | .check l | .reentry l | .awaitWriting l => Lane ids t s l
  | .withdrawLoad l => Owns ids t s l
  | .withdrawStore l n => Owns ids t s l ∧ s.readers l = n
  | .withdrawSub l => l = lanes
  | .dropLoad l => Owns ids t s l ∧ 0 < s.pins t l
  | .dropStore l n => (Owns ids t s l ∧ s.readers l = n) ∧ 0 < s.pins t l
  | .dropSub l => l = lanes ∧ 0 < s.pins t l
  | .locking p => SerialMutex.asks p = some false
  | .trying p => p = .tryWriteGuard
  | .storeWriting _ | .scan _ _ | .abort => s.exclusives t t < s.writers.writes t t
  | .dropExclusive a => 0 < s.exclusives a t
  | .unlocking _ (.unlockWrite a) => s.exclusives a t < s.writers.writes a t
  | .unlocking _ p => p = .notifyBump ∨ p = .notifyWake

/-- **The lanes and the guards are consistent**: cached and pinned lanes are lanes of their thread,
and an exclusive guard is backed by a write guard. -/
structure Valid (ids : ThreadIds ι) (s : Store ι) : Prop where
  last : ∀ t l, s.last t = some l → Lane ids t s l
  pins : ∀ t l, 0 < s.pins t l → Lane ids t s l
  backed : ∀ a h, s.exclusives a h ≤ s.writers.writes a h

/-- What a step of another thread leaves to `u`: its lanes with their counters, its pins, and the
guards it holds. -/
structure Foreign (ids : ThreadIds ι) (u : ι) (s s' : Store ι) : Prop where
  owns : ∀ l, Owns ids u s l → Owns ids u s' l
  readers : ∀ l, Owns ids u s l → s'.readers l = s.readers l
  pins : s'.pins u = s.pins u
  exclusives : ∀ a, s.exclusives a u ≤ s'.exclusives a u
  backing : ∀ a, s.exclusives a u < s.writers.writes a u →
    s'.exclusives a u < s'.writers.writes a u

namespace Foreign

variable {u : ι} {s s' : Store ι}

omit [DecidableEq ι] in
theorem lane (h : Foreign ids u s s') {l : ℕ} (hl : Lane ids u s l) : Lane ids u s' l :=
  hl.imp_right (h.owns l)

omit [DecidableEq ι] in
/-- A step that changes only the flag or the caches. -/
theorem of_eq (hr : s'.readers = s.readers) (ho : s'.owners = s.owners)
    (hw : s'.writers = s.writers) (hp : s'.pins = s.pins) (hx : s'.exclusives = s.exclusives) :
    Foreign ids u s s' := by
  refine ⟨fun l hl ↦ ?_, fun l _ ↦ by rw [hr], by rw [hp], fun a ↦ by rw [hx], fun a ha ↦ ?_⟩
  · unfold Owns
    rwa [ho]
  · rwa [hx, hw]

omit [DecidableEq ι] in
theorem refl (s : Store ι) : Foreign ids u s s := .of_eq rfl rfl rfl rfl rfl

omit [DecidableEq ι] in
/-- A store into the counter of one's own lane is foreign to the others. -/
theorem setReaders {t : ι} (hne : u ≠ t) {l : ℕ} (hl : Lane ids t s l) (n : ℕ) :
    Foreign ids u s (s.setReaders l n) :=
  ⟨fun _ hm ↦ hm, fun _ hm ↦ Function.update_of_ne (hl.ne_of_owns hm hne) _ _, rfl,
    fun _ ↦ le_rfl, fun _ h ↦ h⟩

/-- A change of one's own pins is foreign to the others. -/
theorem setPins {t : ι} (hne : u ≠ t) (l n : ℕ) : Foreign ids u s (s.setPins t l n) :=
  ⟨fun _ hm ↦ hm, fun _ _ ↦ rfl, Function.update_of_ne hne _ _, fun _ ↦ le_rfl, fun _ h ↦ h⟩

omit [DecidableEq ι] in
theorem trans {s'' : Store ι} (h : Foreign ids u s s') (h' : Foreign ids u s' s'') :
    Foreign ids u s s'' :=
  ⟨fun l hl ↦ h'.owns l (h.owns l hl),
    fun l hl ↦ (h'.readers l (h.owns l hl)).trans (h.readers l hl), h'.pins.trans h.pins,
    fun a ↦ (h.exclusives a).trans (h'.exclusives a), fun a ha ↦ h'.backing a (h.backing a ha)⟩

omit [DecidableEq ι] in
/-- A claim on a free lane. -/
theorem claim {t : ι} (l : ℕ) (hfree : s.owners l = 0) :
    Foreign ids u s { s with owners := Function.update s.owners l (ids.lane t) } := by
  refine ⟨fun m hm ↦ ⟨hm.1, ?_⟩, fun _ _ ↦ rfl, rfl, fun _ ↦ le_rfl, fun _ h ↦ h⟩
  have hne : m ≠ l := by
    rintro rfl
    exact ids.lane_ne_zero u (hm.2.symm.trans hfree)
  exact (Function.update_of_ne hne _ _).trans hm.2

omit [DecidableEq ι] in
/-- A step of the writers' lock. -/
theorem writers [Fintype ι] {w : SerialMutex.Store ι} (h : SerialMutex.Foreign u s.writers w) :
    Foreign ids u s { s with writers := w } :=
  ⟨fun _ hm ↦ hm, fun _ _ ↦ rfl, rfl, fun _ ↦ le_rfl, fun a ha ↦ ha.trans_le (h.writes a)⟩

/-- The exclusive guards of another thread move. -/
theorem setExclusives {t : ι} (hne : u ≠ t) (a : ι) (n : ℕ) :
    Foreign ids u s { s with exclusives := setShare s.exclusives a t n } := by
  refine ⟨fun _ hm ↦ hm, fun _ _ ↦ rfl, rfl, fun b ↦ ?_, fun b hb ↦ ?_⟩
  · exact (setShare_holder_of_ne _ _ _ hne b).ge
  · exact (setShare_holder_of_ne _ _ _ hne b).trans_lt hb

end Foreign

omit [DecidableEq ι] in
/-- What a thread relies on between two accesses survives the steps of the others. -/
theorem Knows.mono {u : ι} {s s' : Store ι} {p : Pc ι} (h : Knows ids u s p)
    (hf : Foreign ids u s s') : Knows ids u s' p := by
  have hcount : ∀ l n, Owns ids u s l ∧ s.readers l = n → Owns ids u s' l ∧ s'.readers l = n :=
    fun l n hl ↦ ⟨hf.owns l hl.1, (hf.readers l hl.1).trans hl.2⟩
  cases p with
  | register => trivial
  | add l | check l | reentry l | awaitWriting l => exact hf.lane h
  | withdrawLoad l => exact hf.owns l h
  | withdrawStore l n => exact hcount l n h
  | withdrawSub l => exact h
  | dropLoad l => exact ⟨hf.owns l h.1, hf.pins ▸ h.2⟩
  | dropStore l n => exact ⟨hcount l n h.1, hf.pins ▸ h.2⟩
  | dropSub l => exact ⟨h.1, hf.pins ▸ h.2⟩
  | locking p => exact h
  | trying p => exact h
  | storeWriting b | scan b l | abort => exact hf.backing u h
  | dropExclusive a => exact Nat.lt_of_lt_of_le h (hf.exclusives a)
  | unlocking r p =>
    cases p with
    | unlockWrite a => exact hf.backing a h
    | _ => exact h

/-! ### One step

What the accesses of a thread promise to itself and to the others. Only the accesses of the lane
counters and of the owner words need an argument; the rest change nothing that others rely on. -/

/-- A share lowered to a bound that still covers it. -/
theorem le_setShare {f g : ι → ι → ℕ} {a h : ι} {n : ℕ} (hle : ∀ b k, g b k ≤ f b k)
    (hn : g a h ≤ n) (b k : ι) : g b k ≤ setShare f a h n b k := by
  have hrow : g a ≤ Function.update (f a) h n := le_update_iff.2 ⟨hn, fun k _ ↦ hle a k⟩
  have hall : g ≤ setShare f a h n := le_update_iff.2 ⟨hrow, fun b _ ↦ hle b⟩
  exact hall b k

/-- A share raised within its bound. -/
theorem setShare_le {f g : ι → ι → ℕ} {a h : ι} {n : ℕ} (hle : ∀ b k, f b k ≤ g b k)
    (hn : n ≤ g a h) (b k : ι) : setShare f a h n b k ≤ g b k := by
  have hrow : Function.update (f a) h n ≤ g a := update_le_iff.2 ⟨hn, fun k _ ↦ hle a k⟩
  have hall : setShare f a h n ≤ g := update_le_iff.2 ⟨hrow, fun b _ ↦ hle b⟩
  exact hall b k

theorem setShare_self (f : ι → ι → ℕ) (a h : ι) (n : ℕ) : setShare f a h n a h = n := by
  simp [setShare]

/-- The program point of the writers' lock inside a program point. -/
def serialPc : Pc ι → Option (SerialMutex.Pc ι)
  | .locking p | .trying p | .unlocking _ p => some p
  | _ => none

omit [DecidableEq ι] in
@[simp] theorem serialPc_sharedPc (last : Option ℕ) : serialPc (sharedPc last : Pc ι) = none := by
  cases last <;> rfl

omit [DecidableEq ι] in
@[simp] theorem serialPc_dropPc (lane : ℕ) : serialPc (dropPc lane : Pc ι) = none := by
  unfold dropPc
  split_ifs <;> rfl

namespace Valid

variable {s s' : Store ι}

omit [DecidableEq ι] in
/-- Consistency passes to a store with at least the claims, if whatever is new is justified. -/
theorem of_owns (hv : Valid ids s) (hown : ∀ u l, Owns ids u s l → Owns ids u s' l)
    (hlast : ∀ u l, s'.last u = some l → s.last u = some l ∨ Lane ids u s' l)
    (hpins : ∀ u l, 0 < s'.pins u l → 0 < s.pins u l ∨ Lane ids u s' l)
    (hback : ∀ a h, s'.exclusives a h ≤ s'.writers.writes a h) : Valid ids s' where
  last u l hl := (hlast u l hl).elim (fun h ↦ (hv.last u l h).imp_right (hown u l)) id
  pins u l hl := (hpins u l hl).elim (fun h ↦ (hv.pins u l h).imp_right (hown u l)) id
  backed := hback

omit [DecidableEq ι] in
/-- A store into a counter keeps the lanes valid. -/
theorem setReaders (hv : Valid ids s) (l n : ℕ) : Valid ids (s.setReaders l n) :=
  hv.of_owns (fun _ _ h ↦ h) (fun _ _ ↦ Or.inl) (fun _ _ ↦ Or.inl) hv.backed

/-- A pin on one's own lane keeps the lanes valid. -/
theorem setPins (hv : Valid ids s) {t : ι} {l : ℕ} (hl : Lane ids t s l) (n : ℕ) :
    Valid ids (s.setPins t l n) := by
  refine hv.of_owns (fun _ _ h ↦ h) (fun _ _ ↦ Or.inl) (fun u m hm ↦ ?_) hv.backed
  by_cases hut : u = t
  · subst hut
    by_cases hml : m = l
    · exact Or.inr (hml ▸ hl)
    · left
      simpa [Store.setPins, hml] using hm
  · left
    simpa [Store.setPins, hut] using hm

/-- A thread remembers its own lane only. -/
theorem remember (hv : Valid ids s) {t : ι} {l : ℕ} (hl : Lane ids t s l) :
    Valid ids (s.remember t l) := by
  refine hv.of_owns (fun _ _ h ↦ h) (fun u m hm ↦ ?_) (fun _ _ ↦ Or.inl) hv.backed
  by_cases hut : u = t
  · subst hut
    right
    simp only [Store.remember, Function.update_self] at hm
    cases hm
    exact hl
  · left
    simpa only [Store.remember, Function.update_of_ne hut] using hm

omit [DecidableEq ι] in
/-- A claim of a free lane keeps the lanes valid: nobody else owned it. -/
theorem claim (hv : Valid ids s) (t : ι) {l : ℕ} (hfree : s.owners l = 0) :
    Valid ids { s with owners := Function.update s.owners l (ids.lane t) } :=
  hv.of_owns (fun u m hm ↦ (Foreign.claim (u := u) l hfree).owns m hm) (fun _ _ ↦ Or.inl)
    (fun _ _ ↦ Or.inl) hv.backed

omit [DecidableEq ι] in
/-- An access of the writers' lock keeps the lanes valid as long as it backs the exclusive guards.
-/
theorem setWriters (hv : Valid ids s) {w : SerialMutex.Store ι}
    (hback : ∀ a h, s.exclusives a h ≤ w.writes a h) : Valid ids { s with writers := w } :=
  hv.of_owns (fun _ _ h ↦ h) (fun _ _ ↦ Or.inl) (fun _ _ ↦ Or.inl) hback

end Valid

omit [DecidableEq ι] in
/-- The probe order stays within the lanes. -/
theorem laneAt_lt (ids : ThreadIds ι) (t : ι) (offset : ℕ) : laneAt ids t offset < lanes :=
  Nat.mod_lt _ (by decide)

/-- What a step gives: a consistent store, what its thread needs to know next, and nothing taken
from the other threads. -/
def StepSafe (ids : ThreadIds ι) (t : ι) (s s' : Store ι) (o : Outcome (Pc ι) Ret) : Prop :=
  Valid ids s' ∧ (∀ p, o.pc = some p → Knows ids t s' p) ∧ ∀ u, u ≠ t → Foreign ids u s s'

/-- The accesses of `shared` and of the drop of a pin. -/
theorem exec_shared {t : ι} {ch : Choice ι} {s s' : Store ι} {p : Pc ι} {o : Outcome (Pc ι) Ret}
    (hin : serialPc p = none) (hp : ∀ b l a, p ≠ .storeWriting b ∧ p ≠ .scan b l ∧ p ≠ .abort ∧
      p ≠ .dropExclusive a) (hv : Valid ids s) (hk : Knows ids t s p)
    (h : exec ids adaptive t ch s p = some (s', o)) : StepSafe ids t s s' o := by
  cases p with
  | register offset =>
    have hlt := laneAt_lt ids t offset
    simp only [exec] at h
    split at h
    · rename_i o' ho
      obtain ⟨hfree, rfl⟩ := cas_eq_ok.1 ho
      cases h
      have hown : Owns ids t { s with
          owners := Function.update s.owners (laneAt ids t offset) (ids.lane t) }
          (laneAt ids t offset) := ⟨hlt, by simp⟩
      refine ⟨(hv.claim t hfree).remember (Or.inr hown), ?_, fun u _ ↦ ?_⟩
      · rintro p ⟨⟩
        exact Or.inr hown
      · exact (Foreign.claim _ hfree).trans (.of_eq rfl rfl rfl rfl rfl)
    · rename_i o' ho
      obtain ⟨-, rfl⟩ := cas_eq_error.1 ho
      split_ifs at h with hid hnext
      · cases h
        refine ⟨hv.remember (Or.inr ⟨hlt, hid⟩), ?_, fun u _ ↦ .of_eq rfl rfl rfl rfl rfl⟩
        rintro p ⟨⟩
        exact Or.inr ⟨hlt, hid⟩
      · cases h
        exact ⟨hv, by rintro p ⟨⟩; trivial, fun u _ ↦ .refl s⟩
      · cases h
        refine ⟨hv.remember (Or.inl rfl), ?_, fun u _ ↦ .of_eq rfl rfl rfl rfl rfl⟩
        rintro p ⟨⟩
        exact Or.inl rfl
  | add l =>
    simp only [exec] at h
    cases h
    refine ⟨hv.setReaders _ _, ?_, fun u hu ↦ .setReaders hu hk _⟩
    rintro p ⟨⟩
    exact hk
  | check l =>
    simp only [exec] at h
    split_ifs at h with hw hl
    · cases h
      refine ⟨hv, ?_, fun u _ ↦ .refl s⟩
      rintro p ⟨⟩
      exact hk.resolve_left hl.ne
    · cases h
      refine ⟨hv, ?_, fun u _ ↦ .refl s⟩
      rintro p ⟨⟩
      exact hk.resolve_right fun hown ↦ hl hown.1
    · cases h
      exact ⟨hv.setPins hk _, by simp, fun u hu ↦ .setPins hu _ _⟩
  | withdrawLoad l =>
    simp only [exec] at h
    cases h
    exact ⟨hv, by rintro p ⟨⟩; exact ⟨hk, rfl⟩, fun u _ ↦ .refl s⟩
  | withdrawStore l n =>
    simp only [exec] at h
    cases h
    refine ⟨hv.setReaders _ _, ?_, fun u hu ↦ .setReaders hu (Or.inr hk.1) _⟩
    rintro p ⟨⟩
    exact Or.inr hk.1
  | withdrawSub l =>
    simp only [exec] at h
    cases h
    refine ⟨hv.setReaders _ _, ?_, fun u hu ↦ .setReaders hu (Or.inl hk) _⟩
    rintro p ⟨⟩
    exact Or.inl hk
  | reentry l =>
    simp only [exec] at h
    split_ifs at h
    · cases h
      exact ⟨hv, by simp, fun u _ ↦ .refl s⟩
    · cases h
      exact ⟨hv, by rintro p ⟨⟩; exact hk, fun u _ ↦ .refl s⟩
  | awaitWriting l =>
    simp only [exec] at h
    split_ifs at h <;> cases h
    all_goals exact ⟨hv, by rintro p ⟨⟩; exact hk, fun u _ ↦ .refl s⟩
  | dropLoad l =>
    simp only [exec] at h
    cases h
    exact ⟨hv, by rintro p ⟨⟩; exact ⟨⟨hk.1, rfl⟩, hk.2⟩, fun u _ ↦ .refl s⟩
  | dropStore l n =>
    simp only [exec] at h
    cases h
    have hl : Lane ids t s l := Or.inr hk.1.1
    exact ⟨(hv.setReaders _ _).setPins hl _, by simp,
      fun u hu ↦ (Foreign.setReaders hu hl _).trans (.setPins hu _ _)⟩
  | dropSub l =>
    simp only [exec] at h
    cases h
    have hl : Lane ids t s l := Or.inl hk.1
    exact ⟨(hv.setReaders _ _).setPins hl _, by simp,
      fun u hu ↦ (Foreign.setReaders hu hl _).trans (.setPins hu _ _)⟩
  | storeWriting b => exact absurd rfl (hp b 0 t).1
  | scan b l => exact absurd rfl (hp b l t).2.1
  | abort => exact absurd rfl (hp true 0 t).2.2.1
  | dropExclusive a => exact absurd rfl (hp true 0 a).2.2.2
  | locking | trying | unlocking => cases hin

/-- The accesses of an exclusive section that are not the lock's. -/
theorem exec_section {t : ι} {ch : Choice ι} {s s' : Store ι} {p : Pc ι} {o : Outcome (Pc ι) Ret}
    (hp : ∃ b l a, p = .storeWriting b ∨ p = .scan b l ∨ p = .abort ∨ p = .dropExclusive a)
    (hv : Valid ids s) (hk : Knows ids t s p)
    (h : exec ids adaptive t ch s p = some (s', o)) : StepSafe ids t s s' o := by
  have hflag : ∀ w, Valid ids { s with writing := w } := fun w ↦
    hv.of_owns (fun _ _ h ↦ h) (fun _ _ ↦ Or.inl) (fun _ _ ↦ Or.inl) hv.backed
  obtain ⟨b, l, a, rfl | rfl | rfl | rfl⟩ := hp
  · simp only [exec] at h
    cases h
    exact ⟨hflag true, by rintro p ⟨⟩; exact hk, fun u _ ↦ .of_eq rfl rfl rfl rfl rfl⟩
  · simp only [exec] at h
    split_ifs at h with hr hb hl
    · cases h
      exact ⟨hv, by rintro p ⟨⟩; exact hk, fun u _ ↦ .refl s⟩
    · cases h
      exact ⟨hv, by rintro p ⟨⟩; exact hk, fun u _ ↦ .refl s⟩
    · cases h
      exact ⟨hv, by rintro p ⟨⟩; exact hk, fun u _ ↦ .refl s⟩
    · cases h
      refine ⟨?_, by simp, fun u hu ↦ .setExclusives hu _ _⟩
      exact hv.of_owns (fun _ _ h ↦ h) (fun _ _ ↦ Or.inl) (fun _ _ ↦ Or.inl)
        (setShare_le hv.backed hk)
  · simp only [exec] at h
    cases h
    exact ⟨hflag false, by rintro p ⟨⟩; exact hk, fun u _ ↦ .of_eq rfl rfl rfl rfl rfl⟩
  · simp only [exec] at h
    cases h
    have hle := hv.backed a t
    refine ⟨?_, ?_, fun u hu ↦ ?_⟩
    · exact hv.of_owns (fun _ _ h ↦ h) (fun _ _ ↦ Or.inl) (fun _ _ ↦ Or.inl)
        (setShare_le hv.backed (show s.exclusives a t - 1 ≤ s.writers.writes a t by omega))
    · rintro p ⟨⟩
      have hpos : 0 < s.exclusives a t := hk
      show setShare s.exclusives a t (s.exclusives a t - 1) a t < s.writers.writes a t
      rw [setShare_self]
      omega
    · exact (Foreign.setExclusives hu a _).trans (.of_eq rfl rfl rfl rfl rfl)

omit [DecidableEq ι] in
/-- A step that leaves the write guards alone. -/
theorem stepSafe_writers [Fintype ι] {t : ι} {s : Store ι} {w : SerialMutex.Store ι}
    {o : Outcome (Pc ι) Ret} (hv : Valid ids s) (hw : ∀ a h, s.exclusives a h ≤ w.writes a h)
    (hf : ∀ u, u ≠ t → SerialMutex.Foreign u s.writers w)
    (hk : ∀ p, o.pc = some p → Knows ids t { s with writers := w } p) :
    StepSafe ids t s { s with writers := w } o :=
  ⟨hv.setWriters hw, hk, fun u hu ↦ .writers (hf u hu)⟩

/-- The accesses made inside the writers' lock. -/
theorem exec_serial [Fintype ι] {t : ι} {ch : Choice ι} {s s' : Store ι} {p : Pc ι}
    {p' : SerialMutex.Pc ι} {o : Outcome (Pc ι) Ret} (hp : serialPc p = some p')
    (hE : SerialMutex.Exact ids.owner s.writers)
    (hin : SerialMutex.Knows ids.owner t s.writers p') (hv : Valid ids s) (hk : Knows ids t s p)
    (h : exec ids adaptive t ch s p = some (s', o)) : StepSafe ids t s s' o := by
  have hforeign : ∀ w o, SerialMutex.exec ids.owner adaptive t ch s.writers p' = some (w, o) →
      ∀ u, u ≠ t → SerialMutex.Foreign u s.writers w := fun w o he u hu ↦
    (SerialMutex.exec_word hE hin he).foreign hu
  cases p with
  | locking q =>
    cases hp
    cases he : SerialMutex.exec ids.owner adaptive t ch s.writers p' with
    | none => simp [exec, he] at h
    | some r =>
      obtain ⟨w, o'⟩ := r
      have hf := hforeign w o' he
      obtain ⟨-, ⟨hw, ⟨q, rfl, hq⟩ | ⟨rfl, -⟩⟩ | ⟨hw, k, rfl⟩⟩ := SerialMutex.exec_lockWrite hk he
      · simp only [exec, he, Option.some.injEq, Prod.mk.injEq] at h
        obtain ⟨rfl, rfl⟩ := h
        exact stepSafe_writers hv (hw ▸ hv.backed) hf (by rintro p ⟨⟩; exact hq)
      · simp only [exec, he, Option.some.injEq, Prod.mk.injEq] at h
        obtain ⟨rfl, rfl⟩ := h
        exact stepSafe_writers hv (hw ▸ hv.backed) hf (by simp)
      · simp only [exec, he, Option.some.injEq, Prod.mk.injEq] at h
        obtain ⟨rfl, rfl⟩ := h
        have hback := hv.backed t t
        refine stepSafe_writers hv (hw ▸ le_setShare hv.backed (by omega)) hf ?_
        rintro p ⟨⟩
        show s.exclusives t t < w.writes t t
        rw [hw, setShare_self]
        omega
  | trying q =>
    cases hp
    obtain rfl : p' = .tryWriteGuard := hk
    cases he : SerialMutex.exec ids.owner adaptive t ch s.writers .tryWriteGuard with
    | none => simp [exec, he] at h
    | some r =>
      obtain ⟨w, o'⟩ := r
      have hf := hforeign w o' he
      obtain ⟨-, ⟨hw, rfl⟩ | ⟨hw, rfl⟩⟩ := SerialMutex.exec_tryWriteGuard he
      · simp only [exec, he, Option.some.injEq, Prod.mk.injEq] at h
        obtain ⟨rfl, rfl⟩ := h
        exact stepSafe_writers hv (hw ▸ hv.backed) hf (by simp)
      · simp only [exec, he, Option.some.injEq, Prod.mk.injEq] at h
        obtain ⟨rfl, rfl⟩ := h
        have hback := hv.backed t t
        refine stepSafe_writers hv (hw ▸ le_setShare hv.backed (by omega)) hf ?_
        rintro p ⟨⟩
        show s.exclusives t t < w.writes t t
        rw [hw, setShare_self]
        omega
  | unlocking r q =>
    cases hp
    cases he : SerialMutex.exec ids.owner adaptive t ch s.writers p' with
    | none => simp [exec, he] at h
    | some r =>
      obtain ⟨w, o'⟩ := r
      have hf := hforeign w o' he
      cases p' with
      | unlockWrite a =>
        have hlt : s.exclusives a t < s.writers.writes a t := hk
        obtain ⟨-, hw, ho⟩ := SerialMutex.exec_unlockWrite hE hin he
        have hback : ∀ b h, s.exclusives b h ≤ w.writes b h :=
          hw ▸ le_setShare hv.backed (by omega)
        rcases ho with rfl | rfl
        · simp only [exec, he, Option.some.injEq, Prod.mk.injEq] at h
          obtain ⟨rfl, rfl⟩ := h
          exact stepSafe_writers hv hback hf (by rintro p ⟨⟩; exact Or.inl rfl)
        · simp only [exec, he, Option.some.injEq, Prod.mk.injEq] at h
          obtain ⟨rfl, rfl⟩ := h
          exact stepSafe_writers hv hback hf (by simp)
      | notifyBump =>
        simp only [SerialMutex.exec, Option.some.injEq, Prod.mk.injEq] at he
        obtain ⟨rfl, rfl⟩ := he
        simp only [exec, SerialMutex.exec, Option.some.injEq, Prod.mk.injEq] at h
        obtain ⟨rfl, rfl⟩ := h
        exact stepSafe_writers hv hv.backed hf (by rintro p ⟨⟩; exact Or.inr rfl)
      | notifyWake =>
        simp only [SerialMutex.exec, Option.some.injEq, Prod.mk.injEq] at he
        obtain ⟨rfl, rfl⟩ := he
        simp only [exec, SerialMutex.exec, Option.some.injEq, Prod.mk.injEq] at h
        obtain ⟨rfl, rfl⟩ := h
        exact stepSafe_writers hv hv.backed hf (by simp)
      | _ => exact absurd hk (by simp [Knows])
  | _ => cases hp

/-- **The step lemma of the lanes**: every access keeps them valid, informs its own thread and is
foreign to all others. -/
theorem exec_safe [Fintype ι] {t : ι} {ch : Choice ι} {s s' : Store ι} {p : Pc ι}
    {o : Outcome (Pc ι) Ret} (hE : SerialMutex.Exact ids.owner s.writers)
    (hin : ∀ p', serialPc p = some p' → SerialMutex.Knows ids.owner t s.writers p')
    (hv : Valid ids s) (hk : Knows ids t s p)
    (h : exec ids adaptive t ch s p = some (s', o)) : StepSafe ids t s s' o := by
  cases p with
  | locking q => exact exec_serial rfl hE (hin q rfl) hv hk h
  | trying q => exact exec_serial rfl hE (hin q rfl) hv hk h
  | unlocking r q => exact exec_serial rfl hE (hin q rfl) hv hk h
  | storeWriting b => exact exec_section ⟨b, 0, t, Or.inl rfl⟩ hv hk h
  | scan b l => exact exec_section ⟨b, l, t, Or.inr (Or.inl rfl)⟩ hv hk h
  | abort => exact exec_section ⟨true, 0, t, Or.inr (Or.inr (Or.inl rfl))⟩ hv hk h
  | dropExclusive a => exact exec_section ⟨true, 0, a, Or.inr (Or.inr (Or.inr rfl))⟩ hv hk h
  | _ => exact exec_shared rfl (by simp) hv hk h

/-- So does the start of every call. -/
theorem enter_safe {t : ι} {op : Op ι} {s s' : Store ι} {o : Outcome (Pc ι) Ret}
    (hv : Valid ids s) (h : enter t op s = some (s', o)) : StepSafe ids t s s' o := by
  cases op with
  | shared =>
    simp only [enter] at h
    cases h
    refine ⟨hv, ?_, fun u _ ↦ .refl s⟩
    rintro p ⟨⟩
    cases hl : s.last t with
    | none => trivial
    | some l => exact hv.last t l hl
  | dropShared l =>
    simp only [enter] at h
    split_ifs at h with hpos
    cases h
    refine ⟨hv, ?_, fun u _ ↦ .refl s⟩
    rintro p ⟨⟩
    unfold dropPc
    split_ifs with hl
    · exact ⟨(hv.pins t l hpos).resolve_left hl.ne, hpos⟩
    · exact ⟨(hv.pins t l hpos).resolve_right fun hown ↦ hl hown.1, hpos⟩
  | exclusive | tryExclusive =>
    simp only [enter] at h
    cases h
    exact ⟨hv, by rintro p ⟨⟩; rfl, fun u _ ↦ .refl s⟩
  | dropExclusive a =>
    simp only [enter] at h
    split_ifs at h with hpos
    cases h
    exact ⟨hv, by rintro p ⟨⟩; exact hpos, fun u _ ↦ .refl s⟩
  | sendExclusive a u =>
    simp only [enter] at h
    split_ifs at h with hpos
    cases h
    have hle := hv.backed a
    -- both records move by the same hand-over
    have hmove : ∀ k, transfer (s.exclusives a) t u k ≤ transfer (s.writers.writes a) t u k := by
      intro k
      have h₁ := hle t
      have h₂ := hle u
      have h₃ := hle k
      unfold transfer
      by_cases hku : k = u
      · subst hku
        simp only [Function.update_self]
        omega
      · by_cases hkt : k = t
        · subst hkt
          simp only [Function.update_of_ne hku, Function.update_self]
          omega
        · simpa only [Function.update_of_ne hku, Function.update_of_ne hkt] using h₃
    refine ⟨?_, by simp, fun v hv' ↦ ⟨fun _ hm ↦ hm, fun _ _ ↦ rfl, rfl, fun b ↦ ?_, fun b hb ↦ ?_⟩⟩
    · refine hv.of_owns (fun _ _ h ↦ h) (fun _ _ ↦ Or.inl) (fun _ _ ↦ Or.inl) fun b k ↦ ?_
      by_cases hb : b = a
      · subst hb
        simpa only [Function.update_self] using hmove k
      · simpa only [Function.update_of_ne hb] using hv.backed b k
    · by_cases hba : b = a
      · subst hba
        simpa only [Function.update_self] using le_transfer _ hv'
      · simp only [Function.update_of_ne hba, le_refl]
    · by_cases hba : b = a
      · subst hba
        simp only [Function.update_self]
        unfold transfer
        by_cases hvu : v = u
        · subst hvu
          simp only [Function.update_self]
          omega
        · simpa only [Function.update_of_ne hvu, Function.update_of_ne hv'] using hb
      · simpa only [Function.update_of_ne hba] using hb
  | evict =>
    simp only [enter] at h
    cases h
    refine ⟨?_, by simp, fun u _ ↦ .of_eq rfl rfl rfl rfl rfl⟩
    refine hv.of_owns (fun _ _ h ↦ h) (fun u l hl ↦ Or.inl ?_) (fun _ _ ↦ Or.inl) hv.backed
    by_cases hut : u = t
    · subst hut
      simp at hl
    · simpa [hut] using hl

/-! ### The lock inside

The writers' lock is a `SerialMutex` and its accesses are its own. `serialPc` reads the program
point inside it off a program point of the coordinator. -/

section Runs

variable {ok : Config ι (Store ι) (Pc ι) → Label ι (Op ι) → Prop} {c : Config ι (Store ι) (Pc ι)}

/-- What the writers' lock sees of a configuration. -/
def serialView (c : Config ι (Store ι) (Pc ι)) :
    Config ι (SerialMutex.Store ι) (SerialMutex.Pc ι) :=
  c.view Store.writers serialPc

/-- The accesses of an exclusive section and of the pins leave the lock alone, except that giving a
write guard back starts its release. -/
theorem exec_serialPc_none {t : ι} {ch : Choice ι} {s s' : Store ι} {p : Pc ι}
    {o : Outcome (Pc ι) Ret} (hp : serialPc p = none) (hk : Knows ids t s p) (hv : Valid ids s)
    (h : exec ids adaptive t ch s p = some (s', o)) :
    s'.writers = s.writers ∧ (o.pc.bind serialPc = none ∨
      ∃ a, o.pc.bind serialPc = some (.unlockWrite a) ∧ 0 < s.writers.writes a t) := by
  cases p with
  | locking | trying | unlocking => cases hp
  | abort =>
    simp only [exec] at h
    cases h
    exact ⟨rfl, Or.inr ⟨t, rfl, Nat.zero_lt_of_lt hk⟩⟩
  | dropExclusive a =>
    simp only [exec] at h
    cases h
    exact ⟨rfl, Or.inr ⟨a, rfl, Nat.lt_of_lt_of_le hk (hv.backed a t)⟩⟩
  | _ =>
    simp only [exec] at h
    repeat' split at h
    all_goals cases h
    all_goals exact ⟨rfl, Or.inl rfl⟩

/-- An access made inside the lock is an access of the lock. -/
theorem exec_serialPc_some {t : ι} {ch : Choice ι} {s s' : Store ι} {p : Pc ι}
    {p' : SerialMutex.Pc ι} {o : Outcome (Pc ι) Ret} (hp : serialPc p = some p')
    (h : exec ids adaptive t ch s p = some (s', o)) :
    ∃ o', SerialMutex.exec ids.owner adaptive t ch s.writers p' = some (s'.writers, o') ∧
      o'.pc = o.pc.bind serialPc := by
  cases p with
  | locking | trying | unlocking =>
    cases hp
    simp only [exec] at h
    split at h
    all_goals cases h
    all_goals
      rename_i he
      exact ⟨_, he, rfl⟩
  | _ => cases hp

/-- **The invariant of the lanes**: the lock inside is in a reachable state of its own, the store is
consistent, and every thread's knowledge holds. -/
structure Inv (ids : ThreadIds ι) (adaptive : ℕ) (c : Config ι (Store ι) (Pc ι)) : Prop where
  serial : Reach (SerialMutex.serialMutex ids.owner adaptive) Always SerialMutex.init (serialView c)
  valid : Valid ids c.shared
  knows : ∀ t p, c.pcs t = some p → Knows ids t c.shared p

namespace Inv

/-- The word of the writers' lock is exact along every run of the coordinator. -/
theorem exact [Fintype ι] (h : Inv ids adaptive c) : SerialMutex.Exact ids.owner c.shared.writers :=
  (SerialMutex.reach_exact h.serial).1

/-- A thread inside the writers' lock knows what `SerialMutex` asks for there. -/
theorem serial_knows [Fintype ι] (h : Inv ids adaptive c) {t : ι} {p : Pc ι}
    (hpc : c.pcs t = some p) :
    ∀ p', serialPc p = some p' → SerialMutex.Knows ids.owner t c.shared.writers p' := fun p' hp' ↦
  (SerialMutex.reach_exact h.serial).2 t p' (by simp [serialView, hpc, hp'])

/-- Every access of a reachable configuration is safe. -/
theorem safe [Fintype ι] (h : Inv ids adaptive c) {t : ι} {ch : Choice ι} {p : Pc ι} {s' : Store ι}
    {o : Outcome (Pc ι) Ret} (hpc : c.pcs t = some p)
    (he : exec ids adaptive t ch c.shared p = some (s', o)) : StepSafe ids t c.shared s' o :=
  exec_safe h.exact (h.serial_knows hpc) h.valid (h.knows t p hpc) he

end Inv

/-- After a safe step every thread still knows what it knew, and the one that moved what it learnt.
-/
theorem StepSafe.knows_put {t : ι} {s' : Store ι} {o : Outcome (Pc ι) Ret}
    (h : StepSafe ids t c.shared s' o) (hk : ∀ t p, c.pcs t = some p → Knows ids t c.shared p) :
    ∀ u q, (c.put t (s', o)).pcs u = some q → Knows ids u s' q :=
  Config.forall_put h.2.1 fun u q hu hq ↦ (hk u q hq).mono (h.2.2 u hu)

/-- **The invariant holds in every reachable configuration.** -/
theorem reach_inv [Fintype ι] (h : Reach (coord ids adaptive) ok init c) : Inv ids adaptive c := by
  refine h.invariant (I := Inv ids adaptive) ?_ ?_ ?_
  · refine ⟨?_, ⟨by simp [init, Store.new], by simp [init, Store.new], fun _ _ ↦ le_rfl⟩,
      by simp [init]⟩
    have hinit : serialView (init : Config ι (Store ι) (Pc ι)) = SerialMutex.init := by
      refine Config.ext rfl (funext fun t ↦ ?_)
      simp [serialView, init, SerialMutex.init]
    rw [hinit]
    exact .refl
  · rintro c t op ⟨s', o⟩ - hI - hpc he
    have hsafe := enter_safe hI.valid he
    refine ⟨?_, hsafe.1, hsafe.knows_put hI.knows⟩
    have hnone : (c.pcs t).bind serialPc = none := by rw [hpc]; rfl
    have hsame : s'.writers = c.shared.writers → o.pc.bind serialPc = none →
        Reach (SerialMutex.serialMutex ids.owner adaptive) Always SerialMutex.init
          (serialView (c.put t (s', o))) := fun hw ho ↦
      hI.serial.view_same hw (ho.trans hnone.symm)
    cases op with
    | exclusive =>
      simp only [coord, enter] at he
      cases he
      exact hI.serial.view_call .lockWrite trivial hnone rfl rfl
    | tryExclusive =>
      simp only [coord, enter] at he
      cases he
      exact hI.serial.view_call .tryWriteGuard trivial hnone rfl rfl
    | sendExclusive a u =>
      simp only [coord, enter] at he
      split_ifs at he with hpos
      cases he
      have hw : 0 < c.shared.writers.writes a t := hpos.1.trans_le (hI.valid.backed a t)
      refine hI.serial.view_call (.sendWrite a u) (o := .ret .unit) trivial hnone ?_ rfl
      simp only [SerialMutex.serialMutex, SerialMutex.enter]
      rw [if_pos ⟨hw, hpos.2⟩]
    | shared | dropShared | dropExclusive | evict =>
      simp only [coord, enter] at he
      repeat' split at he
      all_goals cases he
      all_goals first
        | exact hsame rfl rfl
        | exact hsame rfl (by simp)
  · rintro c t ch p ⟨s', o⟩ - hI - hpc he
    have hsafe := hI.safe hpc he
    refine ⟨?_, hsafe.1, hsafe.knows_put hI.knows⟩
    cases hp : serialPc p with
    | some p' =>
      obtain ⟨o', he', ho'⟩ := exec_serialPc_some hp he
      exact hI.serial.view_exec ch trivial hpc hp he' ho'
    | none =>
      have hnone : (c.pcs t).bind serialPc = none := by rw [hpc]; exact hp
      obtain ⟨hw, ho | ⟨a, ho, hpos⟩⟩ := exec_serialPc_none hp (hI.knows t p hpc) hI.valid he
      · exact hI.serial.view_same hw (ho.trans hnone.symm)
      · refine hI.serial.view_call (.unlockWrite a) (o := .goto (.unlockWrite a)) trivial
          hnone ?_ ho.symm
        simp only [SerialMutex.serialMutex, SerialMutex.enter]
        rw [if_pos hpos, hw]

end Runs

end Coord

end Crossync
