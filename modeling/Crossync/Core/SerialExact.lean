import Crossync.Core.SerialMutex

/-!
# The word of a `SerialMutex` is exact

The word always decodes to the live guards: it is `0` when there are none, it carries the writer
flag and no count while one write guard lives, and otherwise its count is the number of live read
guards, all acquired by the thread whose number it carries. Guards may be dropped on foreign threads
at any moment, also while their owner re-enters the lock.

## The argument

`WordStep` says once what an access can do to the word and to the record of live guards; `Exact` is
the decoding, and `WordStep.exact` shows that each effect keeps it. `Knows` is what a thread may
rely on between two accesses. Two of its clauses carry the argument: a release still holds the guard
it is giving back, so the word it finds cannot be a writer's; and a thread that found a foreign
owner has no guard of its own anywhere, so no conflict can arise behind its back while it waits.

## What makes foreign drops safe

The release of a read guard subtracts one from whatever word it finds and looks at no owner. That
the word is the right one follows from the guard itself: as long as it lives, the word is a reader's
word of its acquirer with a positive count. Nothing is assumed about which thread drops it or what
its owner does at that moment.
-/

open Interleave

namespace Crossync

namespace SerialMutex

open SerialWord

variable {ι : Type*} [Fintype ι] [DecidableEq ι] {ids : OwnerIds ι} {adaptive : ℕ}

/-! ### Owner numbers -/

omit [Fintype ι] [DecidableEq ι] in
/-- Different threads have different numbers. -/
theorem OwnerIds.toNat_inj {t u : ι} : (ids.id t).toNat = (ids.id u).toNat ↔ t = u := by
  rw [BitVec.toNat_inj]
  exact ids.injective.eq_iff

omit [Fintype ι] [DecidableEq ι] in
/-- No thread has the number zero, which means "nobody". -/
theorem OwnerIds.toNat_pos (ids : OwnerIds ι) (t : ι) : 0 < (ids.id t).toNat := by
  refine Nat.pos_of_ne_zero fun h ↦ ids.ne_zero t ?_
  exact BitVec.eq_of_toNat_eq h

omit [Fintype ι] [DecidableEq ι] in
/-- A word that carries a thread's number is not the free word. -/
theorem ne_zero_of_own {s : SerialWord.Word} {t : ι} (h : own s = (ids.id t).toNat) : s ≠ 0 := by
  rintro rfl
  have := ids.toNat_pos t
  rw [own_zero] at h
  omega

/-! ### Records of live guards

Guards are counted by the thread that acquired them and the thread that has them now, since a guard
may be dropped where it was not made. The code keeps no such record. -/

omit [Fintype ι] in
theorem setShare_of_ne (f : ι → ι → ℕ) {a b : ι} (h : ι) (n : ℕ) (hb : b ≠ a) :
    setShare f a h n b = f b := by
  rw [setShare, Function.update_of_ne hb]

/-- How the guards of one acquirer move when one holder's share moves. -/
theorem tally_setShare (f : ι → ι → ℕ) (a h : ι) (n : ℕ) :
    tally (setShare f a h n a) + f a h = tally (f a) + n := by
  rw [setShare, Function.update_self]
  exact tally_update (f a) h n

omit [Fintype ι] in
theorem setShare_holder_of_ne (f : ι → ι → ℕ) (a : ι) {h u : ι} (n : ℕ) (hu : u ≠ h) (b : ι) :
    setShare f a h n b u = f b u := by
  unfold setShare
  by_cases hb : b = a
  · subst hb
    simp [hu]
  · simp [hb]

/-! ### What one access does to the word

The effects of an access on the word together with the record, and the decoding after each. -/

/-- **What one access can do to the word and to the record of live guards**, with the outcome that
goes with it. -/
inductive WordStep (ids : OwnerIds ι) (t : ι) (s s' : Store ι) (o : Outcome (Pc ι) Ret) : Prop where
  | same (hw : s'.state = s.state) (hr : s'.reads = s.reads) (hx : s'.writes = s.writes)
  | register (hne : s.state ≠ 0) (hw : s'.state = s.state ||| waitFlag) (hr : s'.reads = s.reads)
      (hx : s'.writes = s.writes)
  | firstRead (hfree : s.state = 0) (hs : s' = s.gainRead t (ownerBits (ids.id t) ||| 1))
  | nestRead (hown : own s.state = (ids.id t).toNat) (hw : writing s.state = false)
      (hmax : readers s.state ≠ 2 ^ 30 - 1) (hs : s' = s.gainRead t (s.state + 1))
  | write (hfree : s.state = 0) (hs : s' = s.gainWrite t (ownerBits (ids.id t) ||| writeFlag))
  | dropRead (a : ι) (hown : 0 < s.reads a t)
      (hs : s' = s.dropRead a t (if readers s.state = 1 then 0 else s.state - 1))
      (ho : o = if readers s.state = 1 ∧ waiting s.state = true then .goto .notifyBump
        else .ret .unit)
  | dropWrite (a : ι) (hown : 0 < s.writes a t) (hs : s' = s.dropWrite a t 0)
      (ho : o = if waiting s.state = true then .goto .notifyBump else .ret .unit)

/-- **The word decodes to the live guards.** -/
inductive Exact (ids : OwnerIds ι) (s : Store ι) : Prop where
  /-- No guard is live. -/
  | free (hs : s.state = 0) (hr : ∀ a, tally (s.reads a) = 0) (hx : ∀ a, tally (s.writes a) = 0)
  /-- The live guards are read guards acquired by `o`. -/
  | readBy (o : ι) (hown : own s.state = (ids.id o).toNat) (hw : writing s.state = false)
      (hpos : 0 < readers s.state) (hcount : tally (s.reads o) = readers s.state)
      (hr : ∀ a, a ≠ o → tally (s.reads a) = 0) (hx : ∀ a, tally (s.writes a) = 0)
  /-- The live guard is a write guard acquired by `o`. -/
  | writtenBy (o : ι) (hown : own s.state = (ids.id o).toNat) (hw : writing s.state = true)
      (hcount : readers s.state = 0) (hr : ∀ a, tally (s.reads a) = 0)
      (hone : tally (s.writes o) = 1) (hx : ∀ a, a ≠ o → tally (s.writes a) = 0)

namespace Exact

variable {s : Store ι}

/-- A live read guard determines the word. -/
theorem of_reads (h : Exact ids s) {a u : ι} (hpos : 0 < s.reads a u) :
    own s.state = (ids.id a).toNat ∧ writing s.state = false ∧
      readers s.state = tally (s.reads a) ∧ 0 < readers s.state ∧
      (∀ b, b ≠ a → tally (s.reads b) = 0) ∧ ∀ b, tally (s.writes b) = 0 := by
  have hle := le_tally (s.reads a) u
  cases h with
  | free hs hr hx =>
    have := hr a
    omega
  | readBy o hown hw hpos' hcount hr hx =>
    have hao : a = o := by
      by_contra hne
      have := hr a hne
      omega
    subst hao
    exact ⟨hown, hw, hcount.symm, hpos', hr, hx⟩
  | writtenBy o hown hw hcount hr hone hx =>
    have := hr a
    omega

/-- A live write guard determines the word. -/
theorem of_writes (h : Exact ids s) {a u : ι} (hpos : 0 < s.writes a u) :
    own s.state = (ids.id a).toNat ∧ writing s.state = true ∧
      (∀ b, tally (s.reads b) = 0) ∧ tally (s.writes a) = 1 ∧
      ∀ b, b ≠ a → tally (s.writes b) = 0 := by
  have hle := le_tally (s.writes a) u
  cases h with
  | free hs hr hx =>
    have := hx a
    omega
  | readBy o hown hw hpos' hcount hr hx =>
    have := hx a
    omega
  | writtenBy o hown hw hcount hr hone hx =>
    have hao : a = o := by
      by_contra hne
      have := hx a hne
      omega
    subst hao
    exact ⟨hown, hw, hr, hone, hx⟩

omit [DecidableEq ι] in
/-- A word of another owner, or of nobody, means that `t` has acquired no live guard. -/
theorem no_guards_of_own_ne (h : Exact ids s) {t : ι} (hne : own s.state ≠ (ids.id t).toNat) :
    tally (s.reads t) = 0 ∧ tally (s.writes t) = 0 := by
  cases h with
  | free hs hr hx => exact ⟨hr t, hx t⟩
  | readBy o hown hw hpos hcount hr hx =>
    exact ⟨hr t (by rintro rfl; exact hne hown), hx t⟩
  | writtenBy o hown hw hcount hr hone hx =>
    exact ⟨hr t, hx t (by rintro rfl; exact hne hown)⟩

omit [DecidableEq ι] in
/-- A word with the same owner, writer flag and count decodes to the same guards. -/
theorem of_fields_eq {s' : Store ι} (h : Exact ids s) (hzero : s.state = 0 → s'.state = 0)
    (hown : own s'.state = own s.state)
    (hw : writing s'.state = writing s.state)
    (hc : readers s'.state = readers s.state) (hr : ∀ a, tally (s'.reads a) = tally (s.reads a))
    (hx : ∀ a, tally (s'.writes a) = tally (s.writes a)) : Exact ids s' := by
  cases h with
  | free hs hr' hx' =>
    exact .free (hzero hs) (fun a ↦ (hr a).trans (hr' a)) (fun a ↦ (hx a).trans (hx' a))
  | readBy o hown' hw' hpos hcount hr' hx' =>
    exact .readBy o (hown.trans hown') (hw.trans hw') (hc ▸ hpos) ((hr o).trans (hc ▸ hcount))
      (fun a ha ↦ (hr a).trans (hr' a ha)) (fun a ↦ (hx a).trans (hx' a))
  | writtenBy o hown' hw' hcount hr' hone hx' =>
    exact .writtenBy o (hown.trans hown') (hw.trans hw') (hc.trans hcount)
      (fun a ↦ (hr a).trans (hr' a)) ((hx o).trans hone) (fun a ha ↦ (hx a).trans (hx' a ha))

omit [DecidableEq ι] in
/-- Under the free word there is no guard. -/
theorem guards_of_zero (h : Exact ids s) (hs : s.state = 0) :
    (∀ a, tally (s.reads a) = 0) ∧ ∀ a, tally (s.writes a) = 0 := by
  cases h with
  | free _ hr hx => exact ⟨hr, hx⟩
  | readBy o hown => exact absurd hs (ne_zero_of_own hown)
  | writtenBy o hown => exact absurd hs (ne_zero_of_own hown)

/-- The compare-exchange from the free word to a first read guard keeps the word exact. -/
theorem firstRead (h : Exact ids s) (t : ι) (hfree : s.state = 0) :
    Exact ids (s.gainRead t (ownerBits (ids.id t) ||| 1)) := by
  obtain ⟨hr, hx⟩ := h.guards_of_zero hfree
  obtain ⟨ho, -, hw, hc⟩ := fields_first_reader (ids.id t)
  have ht := tally_setShare s.reads t t (s.reads t t + 1)
  have hr0 := hr t
  refine .readBy t ho hw (by rw [Store.gainRead, hc]; omega) ?_ ?_ hx
  · rw [Store.gainRead, hc]
    dsimp only
    omega
  · intro a ha
    rw [Store.gainRead]
    dsimp only
    rw [setShare_of_ne _ _ _ ha]
    exact hr a

/-- One more read guard of the owner keeps the word exact, below the count's limit. -/
theorem nestRead (h : Exact ids s) {t : ι} (hown : own s.state = (ids.id t).toNat)
    (hw : writing s.state = false) (hmax : readers s.state ≠ 2 ^ 30 - 1) :
    Exact ids (s.gainRead t (s.state + 1)) := by
  obtain ⟨hf₁, -, hf₂, hf₃⟩ := fields_add_one hmax
  cases h with
  | free hs => exact absurd hs (ne_zero_of_own hown)
  | writtenBy o _ hw' =>
    rw [hw] at hw'
    cases hw'
  | readBy o hown' _ hpos hcount hr hx =>
    have hto : o = t := OwnerIds.toNat_inj.1 (hown'.symm.trans hown)
    subst hto
    have ht := tally_setShare s.reads o o (s.reads o o + 1)
    refine .readBy o (hf₁.trans hown) (hf₂.trans hw) ?_ ?_ ?_ hx
    · rw [Store.gainRead, hf₃]
      omega
    · rw [Store.gainRead, hf₃]
      dsimp only
      omega
    · intro a ha
      rw [Store.gainRead]
      dsimp only
      rw [setShare_of_ne _ _ _ ha]
      exact hr a ha

/-- The compare-exchange from the free word to a write guard keeps the word exact. -/
theorem write (h : Exact ids s) (t : ι) (hfree : s.state = 0) :
    Exact ids (s.gainWrite t (ownerBits (ids.id t) ||| writeFlag)) := by
  obtain ⟨hr, hx⟩ := h.guards_of_zero hfree
  obtain ⟨ho, -, hw, hc⟩ := fields_writer (ids.id t)
  have ht := tally_setShare s.writes t t (s.writes t t + 1)
  have hx0 := hx t
  refine .writtenBy t ho hw hc hr ?_ ?_
  · rw [Store.gainWrite]
    dsimp only
    omega
  · intro a ha
    rw [Store.gainWrite]
    dsimp only
    rw [setShare_of_ne _ _ _ ha]
    exact hx a

/-- The drop of a read guard keeps the word exact, whichever thread drops it. -/
theorem dropRead (h : Exact ids s) {a t : ι} (hpos : 0 < s.reads a t) :
    Exact ids (s.dropRead a t (if readers s.state = 1 then 0 else s.state - 1)) := by
  obtain ⟨hown, hw, hcount, hcpos, hr, hx⟩ := h.of_reads hpos
  have ht := tally_setShare s.reads a t (s.reads a t - 1)
  have hother : ∀ b, b ≠ a → tally (setShare s.reads a t (s.reads a t - 1) b) = 0 := by
    intro b hb
    rw [setShare_of_ne _ _ _ hb]
    exact hr b hb
  by_cases hone : readers s.state = 1
  · rw [if_pos hone]
    refine .free rfl (fun b ↦ ?_) hx
    by_cases hb : b = a
    · subst hb
      rw [Store.dropRead]
      dsimp only
      omega
    · exact hother b hb
  · rw [if_neg hone]
    obtain ⟨hf₁, -, hf₂, hf₃⟩ := fields_sub_one (s := s.state) (by omega)
    refine .readBy a (hf₁.trans hown) (hf₂.trans hw) ?_ ?_ hother hx
    · rw [Store.dropRead]
      dsimp only
      omega
    · rw [Store.dropRead]
      dsimp only
      omega

/-- The drop of the write guard keeps the word exact, whichever thread drops it. -/
theorem dropWrite (h : Exact ids s) {a t : ι} (hpos : 0 < s.writes a t) :
    Exact ids (s.dropWrite a t 0) := by
  obtain ⟨-, -, hr, hone, hx⟩ := h.of_writes hpos
  have ht := tally_setShare s.writes a t (s.writes a t - 1)
  refine .free rfl hr (fun b ↦ ?_)
  rw [Store.dropWrite]
  dsimp only
  by_cases hb : b = a
  · subst hb
    omega
  · rw [setShare_of_ne _ _ _ hb]
    exact hx b hb

end Exact

/-- Every effect of the list keeps the decoding. -/
theorem WordStep.exact {t : ι} {s s' : Store ι} {o : Outcome (Pc ι) Ret} (h : WordStep ids t s s' o)
    (hE : Exact ids s) : Exact ids s' := by
  cases h with
  | same hw hr hx =>
    exact hE.of_fields_eq (fun h ↦ hw ▸ h) (by rw [hw]) (by rw [hw]) (by rw [hw]) (by simp [hr])
      (by simp [hx])
  | register hne hw hr hx =>
    obtain ⟨h₁, -, h₂, h₃⟩ := fields_or_waitFlag s.state
    exact hE.of_fields_eq (fun h ↦ absurd h hne) (by rw [hw, h₁]) (by rw [hw, h₂])
      (by rw [hw, h₃]) (by simp [hr]) (by simp [hx])
  | firstRead hfree hs => exact hs ▸ hE.firstRead t hfree
  | nestRead hown hw hmax hs => exact hs ▸ hE.nestRead hown hw hmax
  | write hfree hs => exact hs ▸ hE.write t hfree
  | dropRead a hown hs ho => exact hs ▸ hE.dropRead hown
  | dropWrite a hown hs ho => exact hs ▸ hE.dropWrite hown

/-! ### What a thread knows

Facts about a thread's own guards, stable under the steps of the others. The word itself is not
among them: it may have changed by the time of the next access. -/

/-- `t` has acquired no guard that is still live. -/
def NoGuards (s : Store ι) (t : ι) : Prop := tally (s.reads t) = 0 ∧ tally (s.writes t) = 0

/-- What a thread knows at a program point: the test that led to an exchange, the guard a release
still holds, and, once a foreign owner was found, that no guard of its own is live. -/
def Knows (ids : OwnerIds ι) (t : ι) (s : Store ι) : Pc ι → Prop
  | .slowCas read _ state next =>
    (state = 0 ∧ next = desired ids t read) ∨
    (read = true ∧ own state = (ids.id t).toNat ∧ writing state = false ∧
      readers state ≠ 2 ^ 30 - 1 ∧ next = state + 1)
  | .slowRegister _ _ _ state => state ≠ 0 ∧ NoGuards s t
  | .slowWait _ _ _ | .slowParked _ _ => NoGuards s t
  | .unlockReadFast a => 0 < s.reads a t
  | .unlockReadCas a _ => 0 < s.reads a t
  | .unlockWrite a => 0 < s.writes a t
  | _ => True

/-- What a step of another thread may do to the guards of `u`: add to those it holds, take from
those it acquired. -/
structure Foreign (u : ι) (s s' : Store ι) : Prop where
  reads : ∀ a, s.reads a u ≤ s'.reads a u
  writes : ∀ a, s.writes a u ≤ s'.writes a u
  acquired_reads : tally (s'.reads u) ≤ tally (s.reads u)
  acquired_writes : tally (s'.writes u) ≤ tally (s.writes u)

omit [DecidableEq ι] in
theorem Foreign.refl (u : ι) (s : Store ι) : Foreign u s s :=
  ⟨fun _ ↦ le_rfl, fun _ ↦ le_rfl, le_rfl, le_rfl⟩

omit [DecidableEq ι] in
theorem Foreign.of_eq {u : ι} {s s' : Store ι} (hr : s'.reads = s.reads)
    (hx : s'.writes = s.writes) : Foreign u s s' :=
  ⟨fun _ ↦ by rw [hr], fun _ ↦ by rw [hx], by rw [hr], by rw [hx]⟩

omit [DecidableEq ι] in
/-- What a thread relies on between two accesses survives the steps of the others. -/
theorem Knows.mono {u : ι} {s s' : Store ι} {p : Pc ι} (h : Knows ids u s p)
    (hf : Foreign u s s') : Knows ids u s' p := by
  have hno : NoGuards s u → NoGuards s' u := fun hn ↦
    ⟨Nat.le_zero.1 (hn.1 ▸ hf.acquired_reads), Nat.le_zero.1 (hn.2 ▸ hf.acquired_writes)⟩
  cases p with
  | slowRegister read b k state => exact ⟨h.1, hno h.2⟩
  | slowWait read b k => exact hno h
  | slowParked read b => exact hno h
  | unlockReadFast a => exact Nat.lt_of_lt_of_le h (hf.reads a)
  | unlockReadCas a state => exact Nat.lt_of_lt_of_le h (hf.reads a)
  | unlockWrite a => exact Nat.lt_of_lt_of_le h (hf.writes a)
  | _ => exact h

/-- A share that shrinks does not raise the tally. -/
theorem tally_setShare_le (f : ι → ι → ℕ) {a h : ι} (b : ι) {n : ℕ} (hn : n ≤ f a h) :
    tally (setShare f a h n b) ≤ tally (f b) := by
  by_cases hb : b = a
  · subst hb
    have := tally_setShare f b h n
    omega
  · rw [setShare_of_ne _ _ _ hb]

/-- Whatever an access does to the word and the record, it is foreign to the other threads. -/
theorem WordStep.foreign {t u : ι} {s s' : Store ι} {o : Outcome (Pc ι) Ret}
    (h : WordStep ids t s s' o) (hu : u ≠ t) : Foreign u s s' := by
  cases h with
  | same hw hr hx => exact .of_eq hr hx
  | register hne hw hr hx => exact .of_eq hr hx
  | firstRead hfree hs | nestRead hown hw hmax hs =>
    subst hs
    refine ⟨fun a ↦ ?_, fun a ↦ le_rfl, ?_, le_rfl⟩
    · exact (setShare_holder_of_ne _ _ _ hu _).ge
    · exact (congrArg tally (setShare_of_ne _ _ _ hu)).le
  | write hfree hs =>
    subst hs
    refine ⟨fun a ↦ le_rfl, fun a ↦ ?_, le_rfl, ?_⟩
    · exact (setShare_holder_of_ne _ _ _ hu _).ge
    · exact (congrArg tally (setShare_of_ne _ _ _ hu)).le
  | dropRead a hown hs ho =>
    subst hs
    refine ⟨fun b ↦ ?_, fun b ↦ le_rfl, ?_, le_rfl⟩
    · exact (setShare_holder_of_ne _ _ _ hu _).ge
    · exact tally_setShare_le _ _ (Nat.sub_le _ _)
  | dropWrite a hown hs ho =>
    subst hs
    refine ⟨fun b ↦ le_rfl, fun b ↦ ?_, le_rfl, ?_⟩
    · exact (setShare_holder_of_ne _ _ _ hu _).ge
    · exact tally_setShare_le _ _ (Nat.sub_le _ _)

omit [Fintype ι] in
/-- The acquisition of a free word. -/
theorem wordStep_of_free {t : ι} {s : Store ι} (read : Bool) (o : Outcome (Pc ι) Ret)
    (hs : s.state = 0) : WordStep ids t s (gain t read s (desired ids t read)) o := by
  cases read with
  | true => exact .firstRead hs rfl
  | false => exact .write hs rfl

/-- **Every access is one of the listed effects.** -/
theorem exec_word {t : ι} {ch : Choice ι} {s s' : Store ι} {p : Pc ι} {o : Outcome (Pc ι) Ret}
    (hE : Exact ids s) (hk : Knows ids t s p) (h : exec ids adaptive t ch s p = some (s', o)) :
    WordStep ids t s s' o := by
  cases p with
  | lockFast read =>
    simp only [exec] at h
    split at h
    · rename_i w hw
      obtain ⟨hz, rfl⟩ := cas_eq_ok.1 hw
      cases h
      exact wordStep_of_free read _ hz
    · cases h
      exact .same rfl rfl rfl
  | slowCas read b state next =>
    simp only [exec] at h
    split at h
    · rename_i w hw
      obtain ⟨hz, rfl⟩ := casWeak_eq_ok hw
      subst hz
      cases h
      rcases hk with ⟨hz, rfl⟩ | ⟨rfl, hown, hnw, hmax, rfl⟩
      · exact wordStep_of_free read _ hz
      · exact .nestRead hown hnw hmax rfl
    · cases h
      exact .same rfl rfl rfl
  | slowRegister read b sequence state =>
    simp only [exec] at h
    split at h
    · rename_i w hw
      obtain ⟨hz, rfl⟩ := cas_eq_ok.1 hw
      subst hz
      cases h
      exact .register hk.1 rfl rfl rfl
    · cases h
      exact .same rfl rfl rfl
  | tryWriteGuard =>
    simp only [exec] at h
    split at h
    · rename_i w hw
      obtain ⟨hz, rfl⟩ := cas_eq_ok.1 hw
      cases h
      exact .write hz rfl
    · cases h
      exact .same rfl rfl rfl
  | unlockReadFast a =>
    simp only [exec] at h
    split at h
    · rename_i w hw
      obtain ⟨hz, rfl⟩ := cas_eq_ok.1 hw
      cases h
      obtain ⟨-, hf₁, -, hf₂⟩ := fields_first_reader (ids.id a)
      refine .dropRead a hk ?_ ?_
      · rw [hz, if_pos hf₂]
      · rw [hz, hf₁, if_neg (by simp)]
    · cases h
      exact .same rfl rfl rfl
  | unlockReadCas a state =>
    simp only [exec] at h
    split at h
    · rename_i w hw
      obtain ⟨hz, rfl⟩ := casWeak_eq_ok hw
      subst hz
      cases h
      refine .dropRead a hk ?_ ?_
      · simp only [and_countMask_eq_one_iff]
      · simp only [and_countMask_eq_one_iff, ne_eq, and_waitFlag_eq_zero_iff, Bool.not_eq_false]
    · cases h
      exact .same rfl rfl rfl
  | unlockWrite a =>
    simp only [exec] at h
    cases h
    obtain ⟨-, hw, -⟩ := hE.of_writes hk
    refine .dropWrite a hk rfl ?_
    rw [if_neg (by rw [and_writeFlag_eq_zero_iff, hw]; simp)]
    simp only [ne_eq, and_waitFlag_eq_zero_iff, Bool.not_eq_false]
  | slowSequence | slowLoad | slowWait | slowParked | notifyBump | notifyWake =>
    simp only [exec] at h
    repeat' split at h
    all_goals
      cases h
      try exact .same rfl rfl rfl

omit [DecidableEq ι] in
theorem knows_slowLoop {t : ι} {s : Store ι} (hE : Exact ids s) (read : Bool) (b : Backoff)
    (sequence : ℕ) :
    ∀ p, (slowLoop ids t read b sequence s.state).pc = some p → Knows ids t s p := by
  intro p hp
  unfold slowLoop at hp
  split_ifs at hp with hz hown hread hmax hb <;> cases hp
  · exact Or.inl ⟨hz, rfl⟩
  · exact Or.inr ⟨hread.1, and_ownerMask_eq_iff.1 hown, and_writeFlag_eq_zero_iff.1 hread.2,
      fun hm ↦ hmax (and_countMask_eq_countMask_iff.2 hm), rfl⟩
  · exact ⟨hz, hE.no_guards_of_own_ne fun ho ↦ hown (and_ownerMask_eq_iff.2 ho)⟩
  · trivial

omit [DecidableEq ι] in
theorem knows_unlockReadLoop {t a : ι} {s : Store ι} (h : 0 < s.reads a t)
    (state : SerialWord.Word) :
    ∀ p, (unlockReadLoop a state).pc = some p → Knows ids t s p := by
  intro p hp
  unfold unlockReadLoop at hp
  split_ifs at hp <;> cases hp
  exact h

/-- A thread that performs an access knows what its next program point asks for. -/
theorem exec_knows {t : ι} {ch : Choice ι} {s s' : Store ι} {p p' : Pc ι} {o : Outcome (Pc ι) Ret}
    (hE : Exact ids s) (hk : Knows ids t s p) (h : exec ids adaptive t ch s p = some (s', o))
    (hp' : o.pc = some p') : Knows ids t s' p' := by
  cases p with
  | slowLoad read b sequence =>
    simp only [exec] at h
    cases h
    exact knows_slowLoop hE read b sequence p' hp'
  | unlockReadFast | unlockReadCas =>
    simp only [exec] at h
    split at h
    · cases h
      first
        | cases hp'
        | split_ifs at hp' <;> cases hp'; trivial
    · cases h
      exact knows_unlockReadLoop hk _ p' hp'
  | slowRegister =>
    simp only [exec] at h
    split at h
    · cases h
      cases hp'
      exact hk.2
    · cases h
      cases hp'
      trivial
  | unlockWrite =>
    simp only [exec] at h
    cases h
    split_ifs at hp' <;> cases hp'
    trivial
  | slowWait | slowParked =>
    simp only [exec] at h
    repeat' split at h
    all_goals cases h
    all_goals cases hp'
    all_goals first
      | exact hk
      | trivial
  | lockFast | slowSequence | slowCas | tryWriteGuard | notifyBump | notifyWake =>
    simp only [exec] at h
    repeat' split at h
    all_goals cases h
    all_goals cases hp'
    all_goals trivial

/-! ### Write guards, for callers that only write

A `Coord` serialises its writers by this lock, and needs no more of it than this. -/

/-- The access asked for at a program point of `lock`. -/
def asks : Pc ι → Option Bool
  | .lockFast read | .slowSequence read _ | .slowLoad read _ _ | .slowCas read _ _ _ => some read
  | .slowRegister read _ _ _ | .slowWait read _ _ | .slowParked read _ => some read
  | _ => none

omit [Fintype ι] in
/-- An access of `lock_write` leaves the write guards alone and stays in the call or panics, or it
acquires. -/
theorem exec_lockWrite {t : ι} {ch : Choice ι} {s s' : Store ι} {p : Pc ι} {o : Outcome (Pc ι) Ret}
    (hp : asks p = some false) (h : exec ids adaptive t ch s p = some (s', o)) :
    s'.reads = s.reads ∧
    ((s'.writes = s.writes ∧ ((∃ p', o = .goto p' ∧ asks p' = some false) ∨
      o = .ret .conflict ∧ own s.state = (ids.id t).toNat)) ∨
    (s'.writes = setShare s.writes t t (s.writes t t + 1) ∧ ∃ k, o = .ret (.token k))) := by
  cases p with
  | lockFast read | slowCas read b state next =>
    cases hp
    simp only [exec] at h
    split at h
    · cases h
      exact ⟨rfl, Or.inr ⟨rfl, _, rfl⟩⟩
    · cases h
      exact ⟨rfl, Or.inl ⟨rfl, Or.inl ⟨_, rfl, rfl⟩⟩⟩
  | slowLoad read b sequence =>
    cases hp
    simp only [exec, slowLoop] at h
    split_ifs at h with hz hown hread hmax hb <;> cases h
    · exact ⟨rfl, Or.inl ⟨rfl, Or.inl ⟨_, rfl, rfl⟩⟩⟩
    · cases hread.1
    · cases hread.1
    · exact ⟨rfl, Or.inl ⟨rfl, Or.inr ⟨rfl, and_ownerMask_eq_iff.1 hown⟩⟩⟩
    · exact ⟨rfl, Or.inl ⟨rfl, Or.inl ⟨_, rfl, rfl⟩⟩⟩
    · exact ⟨rfl, Or.inl ⟨rfl, Or.inl ⟨_, rfl, rfl⟩⟩⟩
  | slowSequence read b | slowRegister read b sequence state | slowWait read b sequence
  | slowParked read b =>
    cases hp
    simp only [exec] at h
    repeat' split at h
    all_goals cases h
    all_goals exact ⟨rfl, Or.inl ⟨rfl, Or.inl ⟨_, rfl, rfl⟩⟩⟩
  | _ => cases hp

omit [Fintype ι] in
/-- `try_write_guard` reports a guard exactly when one was put on record. -/
theorem exec_tryWriteGuard {t : ι} {ch : Choice ι} {s s' : Store ι} {o : Outcome (Pc ι) Ret}
    (h : exec ids adaptive t ch s .tryWriteGuard = some (s', o)) :
    s'.reads = s.reads ∧ ((s'.writes = s.writes ∧ o = .ret (.acquired false)) ∨
    (s'.writes = setShare s.writes t t (s.writes t t + 1) ∧ o = .ret (.acquired true))) := by
  simp only [exec] at h
  split at h
  · cases h
    exact ⟨rfl, Or.inr ⟨rfl, rfl⟩⟩
  · cases h
    exact ⟨rfl, Or.inl ⟨rfl, rfl⟩⟩

/-- A release of a live write guard goes on to notify or returns. -/
theorem exec_unlockWrite {t a : ι} {ch : Choice ι} {s s' : Store ι} {o : Outcome (Pc ι) Ret}
    (hE : Exact ids s) (hpos : 0 < s.writes a t)
    (h : exec ids adaptive t ch s (.unlockWrite a) = some (s', o)) :
    s'.reads = s.reads ∧ s'.writes = setShare s.writes a t (s.writes a t - 1) ∧
      (o = .goto .notifyBump ∨ o = .ret .unit) := by
  obtain ⟨-, hw, -⟩ := hE.of_writes hpos
  simp only [exec] at h
  rw [if_neg (by rw [and_writeFlag_eq_zero_iff, hw]; simp)] at h
  cases h
  refine ⟨rfl, rfl, ?_⟩
  split_ifs
  · exact Or.inl rfl
  · exact Or.inr rfl

omit [DecidableEq ι] in
/-- A word that carries the number of `t` stands for guards that `t` has acquired. -/
theorem Exact.guards_of_own {s : Store ι} (hE : Exact ids s) {t : ι}
    (h : own s.state = (ids.id t).toNat) : 0 < tally (s.reads t) + tally (s.writes t) := by
  cases hE with
  | free hs => exact absurd hs (ne_zero_of_own h)
  | readBy o hown hw hpos hcount =>
    obtain rfl : o = t := OwnerIds.toNat_inj.1 (hown.symm.trans h)
    omega
  | writtenBy o hown hw hcount hr hone =>
    obtain rfl : o = t := OwnerIds.toNat_inj.1 (hown.symm.trans h)
    omega

/-- There is one write guard at most. -/
theorem Exact.unique_writer {s : Store ι} (hE : Exact ids s) {a b h k : ι} (ha : 0 < s.writes a h)
    (hb : 0 < s.writes b k) : a = b ∧ h = k ∧ s.writes a h = 1 := by
  obtain ⟨-, -, -, hone, hother⟩ := hE.of_writes ha
  have hle := le_tally (s.writes a) h
  have hab : a = b := by
    by_contra hne
    have hz := hother b (Ne.symm hne)
    have := le_tally (s.writes b) k
    omega
  subst hab
  refine ⟨rfl, ?_, by omega⟩
  by_contra hne
  have := add_le_tally (s.writes a) hne
  omega

/-- Starting a call or handing a guard over leaves the word and the futex alone, and moves no guard
to another acquirer. -/
theorem enter_spec (ids : OwnerIds ι) {t : ι} {op : Op ι} {s s' : Store ι} {o : Outcome (Pc ι) Ret}
    (h : enter t op s = some (s', o)) :
    s'.state = s.state ∧ s'.wake = s.wake ∧ (∀ a, tally (s'.reads a) = tally (s.reads a)) ∧
      (∀ a, tally (s'.writes a) = tally (s.writes a)) ∧ (∀ u, u ≠ t → Foreign u s s') ∧
      ∀ p, o.pc = some p → Knows ids t s' p := by
  have hmove : ∀ (f : ι → ι → ℕ) (a u : ι), 0 < f a t → u ≠ t → ∀ b,
      tally (Function.update f a (transfer (f a) t u) b) = tally (f b) := by
    intro f a u hpos hne b
    by_cases hb : b = a
    · subst hb
      rw [Function.update_self, tally_transfer hpos hne]
    · rw [Function.update_of_ne hb]
  have hkeep : ∀ (f : ι → ι → ℕ) (a u v : ι), v ≠ t → ∀ b,
      f b v ≤ Function.update f a (transfer (f a) t u) b v := by
    intro f a u v hv b
    by_cases hb : b = a
    · subst hb
      rw [Function.update_self]
      exact le_transfer (f b) hv
    · rw [Function.update_of_ne hb]
  cases op with
  | lockRead | lockWrite | tryWriteGuard =>
    simp only [enter] at h
    cases h
    exact ⟨rfl, rfl, fun _ ↦ rfl, fun _ ↦ rfl, fun u _ ↦ .refl u s, by rintro p ⟨⟩; trivial⟩
  | unlockRead a | unlockWrite a =>
    simp only [enter] at h
    split_ifs at h with hpos
    cases h
    exact ⟨rfl, rfl, fun _ ↦ rfl, fun _ ↦ rfl, fun u _ ↦ .refl u s, by rintro p ⟨⟩; exact hpos⟩
  | sendRead a u =>
    simp only [enter] at h
    split_ifs at h with hpos
    cases h
    refine ⟨rfl, rfl, hmove s.reads a u hpos.1 hpos.2, fun _ ↦ rfl, fun v hv ↦ ?_, by simp⟩
    exact ⟨hkeep s.reads a u v hv, fun _ ↦ le_rfl, (hmove s.reads a u hpos.1 hpos.2 v).le, le_rfl⟩
  | sendWrite a u =>
    simp only [enter] at h
    split_ifs at h with hpos
    cases h
    refine ⟨rfl, rfl, fun _ ↦ rfl, hmove s.writes a u hpos.1 hpos.2, fun v hv ↦ ?_, by simp⟩
    exact ⟨fun _ ↦ le_rfl, hkeep s.writes a u v hv, le_rfl, (hmove s.writes a u hpos.1 hpos.2 v).le⟩

/-! ### Runs

The decoding along a run, and the panics it excludes. -/

section Runs

variable {ok : Config ι (Store ι) (Pc ι) → Label ι (Op ι) → Prop} {c : Config ι (Store ι) (Pc ι)}

omit [DecidableEq ι] in
/-- A new lock is exact: no word, no guards. -/
theorem exact_new : Exact ids (.new : Store ι) :=
  .free rfl (fun _ ↦ tally_zero) (fun _ ↦ tally_zero)

/-- **Along every run** the word decodes to the live guards, and every thread's knowledge holds. -/
theorem reach_exact (h : Reach (serialMutex ids adaptive) ok init c) :
    Exact ids c.shared ∧ ∀ t p, c.pcs t = some p → Knows ids t c.shared p := by
  refine h.invariant_local exact_new (by simp [init]) ?_ ?_
  · intro t op s s' o hE he
    obtain ⟨hw, -, hr, hx, hforeign, hself⟩ := enter_spec ids he
    exact ⟨hE.of_fields_eq (fun h ↦ hw ▸ h) (by rw [hw]) (by rw [hw]) (by rw [hw]) hr hx, hself,
      fun u q hu hq ↦ hq.mono (hforeign u hu)⟩
  · intro t ch s p s' o hE hk he
    have hw := exec_word hE hk he
    exact ⟨hw.exact hE, fun p' ↦ exec_knows hE hk he, fun u q hu hq ↦ hq.mono (hw.foreign hu)⟩

/-- All live read guards. -/
def liveReads (s : Store ι) : ℕ := tally fun a ↦ tally (s.reads a)

/-- All live write guards. -/
def liveWrites (s : Store ι) : ℕ := tally fun a ↦ tally (s.writes a)

/-- The word, read with the masks of the code, against the live guards. -/
structure Decodes (ids : OwnerIds ι) (s : Store ι) : Prop where
  zero_iff : s.state = 0 ↔ liveReads s = 0 ∧ liveWrites s = 0
  write_iff : s.state &&& writeFlag ≠ 0 ↔ liveWrites s = 1
  write_le : liveWrites s ≤ 1
  count_of_write : s.state &&& writeFlag ≠ 0 → s.state &&& countMask = 0
  count : (s.state &&& countMask).toNat = liveReads s
  owner : ∀ a, 0 < tally (s.reads a) + tally (s.writes a) →
    s.state &&& ownerMask = ownerBits (ids.id a)

/-- An exact word decodes to the live guards, in the terms of the source. -/
theorem Exact.decodes {s : Store ι} (h : Exact ids s) : Decodes ids s := by
  have hW : s.state &&& writeFlag ≠ 0 ↔ writing s.state = true := by
    rw [ne_eq, and_writeFlag_eq_zero_iff, Bool.not_eq_false]
  cases h with
  | free hs hr hx =>
    have hr' : liveReads s = 0 := tally_eq_zero_iff.2 hr
    have hx' : liveWrites s = 0 := tally_eq_zero_iff.2 hx
    have hnw : writing s.state = false := by rw [hs, writing_zero]
    refine ⟨by simp [hs, hr', hx'], ?_, by omega, ?_, ?_, ?_⟩
    · rw [hW, hnw, hx']
      simp
    · rw [hW, hnw]
      simp
    · rw [toNat_and_countMask, hr', hs, readers_zero]
    · intro a ha
      have := hr a
      have := hx a
      omega
  | readBy o hown hw hpos hcount hr hx =>
    have hr' : liveReads s = readers s.state := (tally_eq_of_forall_ne hr).trans hcount
    have hx' : liveWrites s = 0 := tally_eq_zero_iff.2 hx
    refine ⟨?_, ?_, by omega, ?_, ?_, ?_⟩
    · refine ⟨fun hz ↦ absurd hz (ne_zero_of_own hown), fun hz ↦ ?_⟩
      omega
    · rw [hW, hw, hx']
      simp
    · rw [hW, hw]
      simp
    · rw [toNat_and_countMask, hr']
    · intro a ha
      have hxa := hx a
      have hao : a = o := by
        by_contra hne
        have := hr a hne
        omega
      rw [and_ownerMask_eq_iff, hown, hao]
  | writtenBy o hown hw hcount hr hone hx =>
    have hr' : liveReads s = 0 := tally_eq_zero_iff.2 hr
    have hx' : liveWrites s = 1 := (tally_eq_of_forall_ne hx).trans hone
    refine ⟨?_, ?_, by omega, ?_, ?_, ?_⟩
    · refine ⟨fun hz ↦ absurd hz (ne_zero_of_own hown), fun hz ↦ ?_⟩
      omega
    · rw [hW, hw, hx']
      simp
    · intro _
      rw [and_countMask_eq_zero_iff, hcount]
    · rw [toNat_and_countMask, hr', hcount]
    · intro a ha
      have hra := hr a
      have hao : a = o := by
        by_contra hne
        have := hx a hne
        omega
      rw [and_ownerMask_eq_iff, hown, hao]

/-- The consistency checks of the release paths do not fail. -/
theorem exec_consistent {t : ι} {ch : Choice ι} {s s' : Store ι} {p : Pc ι}
    (hE : Exact ids s) (hk : Knows ids t s p) :
    exec ids adaptive t ch s p ≠ some (s', .ret .inconsistent) := by
  have hloop : ∀ a, 0 < s.reads a t → unlockReadLoop a s.state ≠ .ret .inconsistent := by
    intro a hpos
    obtain ⟨-, hw, -, hc, -⟩ := hE.of_reads hpos
    unfold unlockReadLoop
    rw [if_pos ⟨and_writeFlag_eq_zero_iff.2 hw, by rw [ne_eq, and_countMask_eq_zero_iff]; omega⟩]
    simp
  intro h
  cases p with
  | unlockReadFast a =>
    simp only [exec] at h
    split at h
    · simp at h
    · rename_i e he
      obtain ⟨-, rfl⟩ := cas_eq_error.1 he
      exact hloop a hk (congrArg Prod.snd (Option.some.inj h))
  | unlockReadCas a state =>
    simp only [exec] at h
    split at h
    · split_ifs at h <;> simp at h
    · rename_i e he
      obtain rfl := casWeak_eq_error he
      exact hloop a hk (congrArg Prod.snd (Option.some.inj h))
  | unlockWrite a =>
    simp only [exec] at h
    obtain ⟨-, hw, -⟩ := hE.of_writes hk
    rw [if_neg (by rw [and_writeFlag_eq_zero_iff, hw]; simp)] at h
    split_ifs at h <;> simp at h
  | slowLoad read b sequence =>
    simp only [exec, slowLoop] at h
    split_ifs at h <;> simp at h
  | _ =>
    simp only [exec] at h
    repeat' split at h
    all_goals simp at h

/-! ### Conflicting reentrance

A thread that asks for what conflicts with its own guard is told so. -/

/-- The access that `t` asks for conflicts with a live guard that `t` has acquired. -/
def Conflicts (s : Store ι) (t : ι) (read : Bool) : Prop :=
  0 < tally (s.writes t) ∨ read = false ∧ 0 < tally (s.reads t)

/-- How many accesses separate a program point from the test for a conflict. -/
def beforeTest : Pc ι → ℕ
  | .lockFast _ | .slowCas _ _ _ _ => 2
  | .slowSequence _ _ => 1
  | _ => 0

/-- A conflict shows in the word. -/
theorem Conflicts.word {s : Store ι} {t : ι} {read : Bool} (h : Conflicts s t read)
    (hE : Exact ids s) : own s.state = (ids.id t).toNat ∧
      ¬ (read = true ∧ writing s.state = false) := by
  cases hE with
  | free hs hr hx =>
    have := hr t
    have := hx t
    unfold Conflicts at h
    omega
  | readBy o hown hw hpos hcount hr hx =>
    obtain ⟨hread, hposr⟩ := h.resolve_left (by rw [hx t]; omega)
    have hto : t = o := by
      by_contra hne
      have := hr t hne
      omega
    exact ⟨hto ▸ hown, by simp [hread]⟩
  | writtenBy o hown hw hcount hr hone hx =>
    have hto : t = o := by
      by_contra hne
      have h₁ := hx t hne
      have h₂ := hr t
      unfold Conflicts at h
      omega
    exact ⟨hto ▸ hown, by simp [hw]⟩

/-- **A conflicting call changes nothing and panics**: each of its accesses leaves the store as it
is and is the panic, or comes closer to the test that panics. -/
theorem exec_of_conflicts {t : ι} {ch : Choice ι} {s : Store ι} {p : Pc ι} {read : Bool}
    (hE : Exact ids s) (hk : Knows ids t s p) (hp : asks p = some read)
    (hc : Conflicts s t read) :
    ∃ o, exec ids adaptive t ch s p = some (s, o) ∧ (o = .ret .conflict ∨
      ∃ p', o = .goto p' ∧ asks p' = some read ∧ beforeTest p' < beforeTest p) := by
  obtain ⟨hown, hconf⟩ := hc.word hE
  have hne := ne_zero_of_own hown
  -- a thread that found a foreign owner has no guard to conflict with
  have hguards : ¬ NoGuards s t := by
    rintro ⟨h₁, h₂⟩
    unfold Conflicts at hc
    omega
  cases p with
  | lockFast r =>
    cases hp
    refine ⟨_, ?_, Or.inr ⟨.slowSequence read (.new adaptive), rfl, rfl, by simp [beforeTest]⟩⟩
    simp only [exec]
    split
    · rename_i w hw
      exact absurd (cas_eq_ok.1 hw).1 hne
    · rfl
  | slowSequence r b =>
    cases hp
    exact ⟨_, rfl, Or.inr ⟨_, rfl, rfl, by simp [beforeTest]⟩⟩
  | slowLoad r b k =>
    cases hp
    refine ⟨_, rfl, Or.inl ?_⟩
    unfold slowLoop
    rw [if_neg hne, if_pos (and_ownerMask_eq_iff.2 hown),
      if_neg (by rwa [and_writeFlag_eq_zero_iff])]
  | slowCas r b state next =>
    cases hp
    refine ⟨_, ?_, Or.inr ⟨.slowSequence read b, rfl, rfl, by simp [beforeTest]⟩⟩
    simp only [exec]
    split
    · rename_i w hw
      obtain ⟨rfl, -⟩ := casWeak_eq_ok hw
      rcases hk with ⟨hz, -⟩ | ⟨hr, -, hnw, -⟩
      · exact absurd hz hne
      · exact absurd ⟨hr, hnw⟩ hconf
    · rfl
  | slowRegister r b k state => exact absurd hk.2 hguards
  | slowWait r b k => exact absurd hk hguards
  | slowParked r b => exact absurd hk hguards
  | _ => cases hp

/-! ### The record follows the calls

The record of live guards is a ghost of the model, so it is tied to what the calls return: a call
that reports a guard has put one there, and nothing else has. -/

/-- What a call does to the record of the live guards. -/
inductive Duty (ι : Type*) where
  | acquire (read : Bool)
  | release (read : Bool) (acquirer : ι)
  deriving DecidableEq

/-- The duty that a call at a program point still has; after a release it only notifies. -/
def duty : Pc ι → Option (Duty ι)
  | .lockFast read | .slowSequence read _ | .slowLoad read _ _ | .slowCas read _ _ _ =>
    some (.acquire read)
  | .slowRegister read _ _ _ | .slowWait read _ _ | .slowParked read _ => some (.acquire read)
  | .tryWriteGuard => some (.acquire false)
  | .unlockReadFast a | .unlockReadCas a _ => some (.release true a)
  | .unlockWrite a => some (.release false a)
  | .notifyBump | .notifyWake => none

/-- The live read and write guards after a duty of thread `t`. -/
def Duty.effect (t : ι) (k : Duty ι) (_ : Outcome (Pc ι) Ret) (l : (ι → ι → ℕ) × (ι → ι → ℕ)) :
    (ι → ι → ℕ) × (ι → ι → ℕ) :=
  match k with
  | .acquire true => (setShare l.1 t t (l.1 t t + 1), l.2)
  | .acquire false => (l.1, setShare l.2 t t (l.2 t t + 1))
  | .release true a => (setShare l.1 a t (l.1 a t - 1), l.2)
  | .release false a => (l.1, setShare l.2 a t (l.2 a t - 1))

/-- How a call that has done its duty returns. -/
def Duty.Reports : Duty ι → Ret → Prop
  | .acquire _, r => r = .acquired true ∨ ∃ k, r = .token k
  | .release _ _, r => r = .unit

/-- The live guards. -/
def Store.holdings (s : Store ι) : (ι → ι → ℕ) × (ι → ι → ℕ) := (s.reads, s.writes)

omit [Fintype ι] in
/-- **The record follows the calls**, except where a release finds its word inconsistent. -/
theorem exec_follows {t : ι} {ch : Choice ι} {s s' : Store ι} {p : Pc ι} {o : Outcome (Pc ι) Ret}
    (hne : o ≠ .ret .inconsistent) (he : exec ids adaptive t ch s p = some (s', o)) :
    Follows duty (Duty.effect t) Duty.Reports p s.holdings s'.holdings o := by
  have hloop : ∀ a state, duty p = some (.release true a) →
      unlockReadLoop a state ≠ .ret .inconsistent →
      Follows duty (Duty.effect t) Duty.Reports p s.holdings s.holdings
        (unlockReadLoop a state) := by
    intro a state hduty hcons
    unfold unlockReadLoop at hcons ⊢
    split_ifs at hcons ⊢
    · exact .stay hduty.symm
    · exact absurd rfl hcons
  cases p with
  | lockFast read | slowCas read b state next =>
    simp only [exec] at he
    split at he <;> cases he
    · exact .finish rfl (Or.inr ⟨_, rfl⟩) (by cases read <;> rfl)
    · exact .stay rfl
  | slowLoad read b sequence =>
    simp only [exec, slowLoop] at he
    split_ifs at he <;> cases he
    · exact .stay rfl
    · exact .stay rfl
    · exact .refused rfl (by simp [Duty.Reports])
    · exact .refused rfl (by simp [Duty.Reports])
    · exact .stay rfl
    · exact .stay rfl
  | tryWriteGuard =>
    simp only [exec] at he
    split at he <;> cases he
    · exact .finish rfl (Or.inl rfl) rfl
    · exact .refused rfl (by simp [Duty.Reports])
  | unlockReadFast a =>
    simp only [exec] at he
    split at he <;> cases he
    · exact .finish rfl rfl rfl
    · exact hloop a _ rfl hne
  | unlockReadCas a state =>
    simp only [exec] at he
    split at he
    · split_ifs at he <;> cases he
      · exact .proceed rfl rfl rfl
      · exact .finish rfl rfl rfl
    · cases he
      exact hloop a _ rfl hne
  | unlockWrite a =>
    simp only [exec] at he
    split_ifs at he <;> cases he
    · exact absurd rfl hne
    · exact .proceed rfl rfl rfl
    · exact .finish rfl rfl rfl
  | notifyWake =>
    cases he
    exact .over rfl
  | _ =>
    simp only [exec] at he
    repeat' split at he
    all_goals cases he
    all_goals exact .stay rfl

/-- **The word is exact.** In every reachable state the word decodes to the live guards, no
consistency check of a release fails, and a conflicting reentrant acquisition ends in its panic with
the store, hence the word, unchanged. The guards that are live are those that the calls have
returned and that no release has given back. -/
theorem word_exact (h : Reach (serialMutex ids adaptive) Always init c) :
    Decodes ids c.shared ∧
    (∀ t ch p s', c.pcs t = some p →
      exec ids adaptive t ch c.shared p ≠ some (s', .ret .inconsistent)) ∧
    (∀ t ch p read, c.pcs t = some p → asks p = some read → Conflicts c.shared t read →
      ∃ o, exec ids adaptive t ch c.shared p = some (c.shared, o) ∧ (o = .ret .conflict ∨
        ∃ p', o = .goto p' ∧ asks p' = some read ∧ beforeTest p' < beforeTest p)) ∧
    (∀ t ch p s' o, c.pcs t = some p → exec ids adaptive t ch c.shared p = some (s', o) →
      Follows duty (Duty.effect t) Duty.Reports p c.shared.holdings s'.holdings o) := by
  obtain ⟨hE, hk⟩ := reach_exact h
  refine ⟨hE.decodes, ?_, ?_, ?_⟩
  · intro t ch p s' hp
    exact exec_consistent hE (hk t p hp)
  · intro t ch p read hp hread hc
    exact exec_of_conflicts hE (hk t p hp) hread hc
  · intro t ch p s' o hp he
    refine exec_follows ?_ he
    rintro rfl
    exact exec_consistent hE (hk t p hp) he

end Runs

/-- The threads `0` and `1` with the numbers `1` and `2`. -/
def twoIds : OwnerIds (Fin 2) where
  id t := BitVec.ofNat 32 (t.val + 1)
  injective := by decide
  ne_zero := by decide

/-- Thread `0` holds one of its two read guards, thread `1` the other, and thread `0` asks to
write. -/
theorem word_exact_foreign_reader :
    ∃ c, Reach (serialMutex twoIds 4) Always
    (init : Config (Fin 2) (Store (Fin 2)) (Pc (Fin 2))) c ∧
      c.shared.reads 0 1 = 1 ∧ c.pcs 0 = some (.lockFast false) ∧ Decodes twoIds c.shared := by
  obtain ⟨c, hc, ht⟩ := Reach.exists_of_replay (serialMutex twoIds 4) Always
    (init : Config (Fin 2) (Store (Fin 2)) (Pc (Fin 2)))
    [.call 0 .lockRead, .exec 0 .go, .call 0 .lockRead, .exec 0 .go, .exec 0 .go, .exec 0 .go,
      .exec 0 .go, .call 0 (.sendRead 0 1), .call 0 .lockWrite]
    (fun c ↦ decide (c.shared.reads 0 1 = 1 ∧ c.pcs 0 = some (.lockFast false))) (by decide)
  obtain ⟨h₁, h₂⟩ := of_decide_eq_true ht
  exact ⟨c, hc, h₁, h₂, (word_exact hc).1⟩

end SerialMutex

end Crossync
