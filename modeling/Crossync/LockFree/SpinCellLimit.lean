import Crossync.LockFree.SpinCellFlags

/-!
# The limit of `SpinCell`

The writer pattern is the largest reader count, so the last reader that fits is the one that leaves
a count one below it. The two paths of `lock_shared` test for this differently. The fast one refuses
the word that it would *write*, if that is the pattern; the slow one refuses the word that it has
*read*, if that is the pattern or if the sum overflows, which it does on the pattern only. On every
word but one kind the tests agree: with `maxReaders` readers and no writer queued the fast path
turns away and the slow one lets in, and the word becomes the pattern of a writer that does not
exist (`phantom_writer`).

Guards that are forgotten are guards that are never dropped, so the count is not bounded by what
threads hold at once, and the word is reached by acquisitions alone (`reach_full`). Everywhere else
an acquisition adds one reader and nothing else (`shared_acquisition_safe`).

## What the equivalence says

`shared_acquisition_safe` is about every reachable configuration and every acquisition that can take
place there. On one side are the three things that an acquisition should do to the word, on the
other the absence of one combination of path and word. So the fault is exactly this combination, and
no other state of the word or the cell leads to it.
-/

open Interleave

namespace Crossync

namespace SpinCell

open Word

variable {ι : Type*} [Fintype ι] [DecidableEq ι] {adaptive : ℕ}

/-- A word without a writer has one reader more, still without a writer and with the same flags. -/
def Admits (w w' : Word) : Prop :=
  isWriterLocked w = false ∧ isWriterLocked w' = false ∧ readersCount w' = readersCount w + 1 ∧
    w' &&& readersParked = w &&& readersParked ∧ w' &&& writersParked = w &&& writersParked

/-- The step is no acquisition of the slow path on a word with `maxReaders` readers. -/
def Roomy (c : Config ι (Store ι) Pc) : Label ι (Op ι) → Prop
  | .exec t _ => ∀ b state newState, c.pcs t = some (.lockSharedCas b state newState) →
    readersCount c.shared.state ≠ maxReaders
  | .call _ _ => True

section Words

variable {w w' : Word}

theorem and_eq_and_of_fields {m : Word} (hm : count m = 0) (hr : rp w' = rp w) (hw : wp w' = wp w) :
    w' &&& m = w &&& m := by
  refine ext_fields ?_ ?_ ?_
  · rw [count_and, count_and, hm, Nat.and_zero, Nat.and_zero]
  · rw [wp_and, wp_and, hw]
  · rw [rp_and, rp_and, hr]

/-- **One more reader is safe exactly up to the limit.** -/
theorem admits_iff (h : count w ≠ writerCount) :
    Admits w (w + oneReader) ↔ readersCount w ≠ maxReaders := by
  have hlt : count w < writerCount := lt_of_le_of_ne (count_le w) h
  obtain ⟨hc, hwp, hrp⟩ := count_add_oneReader hlt
  have hlocked : ∀ {x : Word}, isWriterLocked x = false ↔ count x ≠ writerCount := by
    intro x
    rw [Bool.eq_false_iff, ne_eq, isWriterLocked_iff]
  rw [readersCount_eq h]
  refine ⟨?_, fun hmax ↦ ?_⟩
  · rintro ⟨-, hfree, -⟩ hmax
    rw [hlocked, hc, hmax] at hfree
    exact hfree rfl
  · have hfree : count (w + oneReader) ≠ writerCount := by
      rw [hc]
      unfold maxReaders at hmax
      unfold writerCount
      omega
    refine ⟨hlocked.2 h, hlocked.2 hfree, ?_, and_eq_and_of_fields rfl hrp hwp,
      and_eq_and_of_fields rfl hrp hwp⟩
    rw [readersCount_eq hfree, readersCount_eq h, hc]

/-- What the slow path lets in. -/
theorem lockSharedLoop_eq_cas_iff {b : Backoff} :
    lockSharedLoop b w = .lockSharedCas b w w' ↔
      count w < writerCount ∧ wp w = false ∧ w' = w + oneReader := by
  have hle := count_le w
  have hone : oneReader.toNat = 4 := rfl
  have hfree : isWriterLocked w = false ↔ count w ≠ writerCount := by
    rw [Bool.eq_false_iff, ne_eq, isWriterLocked_iff]
  unfold lockSharedLoop
  by_cases hin : isWriterLocked w = false ∧ w &&& writersParked = 0
  · have hlt : count w < writerCount := lt_of_le_of_ne hle (hfree.1 hin.1)
    have hroom : w.toNat + oneReader.toNat < 2 ^ 64 := by
      unfold count writerCount at hlt
      omega
    rw [if_pos hin, checkedAdd, if_pos hroom]
    refine ⟨fun h ↦ ?_, fun h ↦ ?_⟩
    · cases h
      exact ⟨hlt, and_writersParked_eq_zero_iff.1 hin.2, rfl⟩
    · rw [h.2.2]
  · rw [if_neg hin]
    refine ⟨fun h ↦ ?_, fun h ↦ absurd ⟨hfree.2 h.1.ne, and_writersParked_eq_zero_iff.2 h.2.1⟩ hin⟩
    split_ifs at h

/-- **The two paths agree exactly off the limit.** -/
theorem paths_agree_iff (b : Backoff) :
    (∀ w', admitShared w = some w' ↔ lockSharedLoop b w = .lockSharedCas b w w') ↔
      ¬ (readersCount w = maxReaders ∧ w &&& writersParked = 0) := by
  simp only [admitShared_eq_some_iff, lockSharedLoop_eq_cas_iff, and_writersParked_eq_zero_iff]
  have hle := count_le w
  refine ⟨fun h ⟨hmax, hw⟩ ↦ ?_, fun h w' ↦ ?_⟩
  · have hne : count w ≠ writerCount := fun hc ↦ by
      rw [readersCount_eq_zero_of_writer hc] at hmax
      exact absurd hmax (by decide)
    rw [readersCount_eq hne] at hmax
    have := ((h (w + oneReader)).2 ⟨lt_of_le_of_ne hle hne, hw, rfl⟩).1
    rw [hmax] at this
    exact absurd this (by decide)
  · refine ⟨fun ⟨hlt, hw, he⟩ ↦ ⟨by omega, hw, he⟩, fun ⟨hlt, hw, he⟩ ↦ ⟨?_, hw, he⟩⟩
    have hmax : count w ≠ maxReaders := fun hc ↦ h ⟨by rw [readersCount_eq hlt.ne]; exact hc, hw⟩
    unfold maxReaders at hmax
    unfold writerCount at hlt ⊢
    omega

end Words

section Runs

variable {ok : Config ι (Store ι) Pc → Label ι (Op ι) → Prop} {c : Config ι (Store ι) Pc}

theorem reach_knows (h : Reach (spinCell adaptive) ok init c) :
    ∀ t p, c.pcs t = some p → Knows t c.shared p := by
  refine (h.invariant_local (G := fun _ ↦ True) (L := Knows) trivial (by simp [init]) ?_ ?_).2
  · rintro t op s s' o - he
    obtain ⟨-, -, -, hk, hle⟩ := enter_spec he
    exact ⟨trivial, hk, fun u q hu hq ↦ hq.mono (hle u hu).1 (hle u hu).2⟩
  · rintro t ch s p s' o - hk he
    obtain ⟨heff, hk'⟩ := exec_effect hk he
    exact ⟨trivial, hk', fun u q hu hq ↦ hq.mono (heff.shares_le hu).1 (heff.shares_le hu).2⟩

/-- **Shared acquisition is safe off the limit.** In every reachable configuration, a successful
acquisition adds one reader, leaves the word without a writer and keeps both flags exactly if it is
not one of the slow path on a word with `maxReaders` readers; and the two paths admit the same
words, with the same result, except for the words with `maxReaders` readers and no writer queued. -/
theorem shared_acquisition_safe (hc : Reach (spinCell adaptive) ok init c) :
    (∀ t ch p s', c.pcs t = some p → exec adaptive t ch c.shared p = some (s', .ret .sharedGuard) →
      (Admits c.shared.state s'.state ↔ Roomy c (.exec t ch))) ∧
    ∀ b w, (∀ w', admitShared w = some w' ↔ lockSharedLoop b w = .lockSharedCas b w w') ↔
      ¬ (readersCount w = maxReaders ∧ w &&& writersParked = 0) := by
  refine ⟨fun t ch p s' hpc he ↦ ?_, fun b w ↦ paths_agree_iff b⟩
  have hknow := reach_knows hc t p hpc
  cases p with
  | lockSharedFastCas state newState =>
    simp only [exec] at he
    split at he
    · rename_i w hw
      obtain ⟨hs, rfl⟩ := cas_eq_ok.1 hw
      cases he
      obtain ⟨hlt, -, hnew⟩ := admitShared_eq_some_iff.1 hknow
      have hmax : readersCount state ≠ maxReaders := by
        rw [readersCount_eq (by omega)]
        unfold maxReaders
        unfold writerCount at hlt
        omega
      refine ⟨fun _ b st st' hp ↦ ?_, fun _ ↦ ?_⟩
      · rw [hpc] at hp
        cases hp
      · rw [hs]
        show Admits state w
        rw [hnew]
        exact (admits_iff (by omega)).2 hmax
    · cases he
  | lockSharedCas b state newState =>
    simp only [exec] at he
    split at he
    · rename_i w hw
      obtain ⟨hs, rfl⟩ := casWeak_eq_ok hw
      cases he
      obtain ⟨hne, -, hnew⟩ := hknow
      have hroomy : Roomy c (.exec t ch) ↔ readersCount c.shared.state ≠ maxReaders :=
        ⟨fun h ↦ h b _ _ hpc, fun h _ _ _ _ ↦ h⟩
      rw [hroomy, hs]
      show Admits state w ↔ _
      rw [hnew]
      exact admits_iff hne
    · cases he
  | _ =>
    simp only [exec] at he
    repeat' split at he
    all_goals cases he

end Runs

/-! ### The phantom writer

The word at the limit is reached by acquisitions whose guards are never dropped. -/

section Phantom

variable {c : Config ι (Store ι) Pc} (t : ι)

omit [Fintype ι] in
/-- A thread outside acquires once more on the fast path. -/
theorem reach_acquire (hc : Reach (spinCell adaptive) Always init c) (hpc : c.pcs t = none)
    (hroom : count c.shared.state + 1 < writerCount) (hw : wp c.shared.state = false) :
    ∃ c', Reach (spinCell adaptive) Always init c' ∧ c'.pcs t = none ∧
      c'.shared.state = c.shared.state + oneReader := by
  have hadmit : admitShared c.shared.state = some (c.shared.state + oneReader) :=
    admitShared_eq_some_iff.2 ⟨hroom, hw, rfl⟩
  have hload : exec adaptive t .go c.shared .lockSharedFastLoad =
      some (c.shared, .goto (.lockSharedFastCas c.shared.state (c.shared.state + oneReader))) := by
    simp only [exec, hadmit]
  have hcas : exec adaptive t .go c.shared
    (.lockSharedFastCas c.shared.state (c.shared.state + oneReader)) =
      some (c.shared.gainShared t (c.shared.state + oneReader), .ret .sharedGuard) := by
    simp only [exec, cas, if_true]
  have h₁ := hc.tail (l := .call t .lockShared) trivial (Object.next_call hpc rfl)
  have h₂ := h₁.tail (l := .exec t .go) trivial (Object.next_exec (Config.put_pcs_self ..) hload)
  have h₃ := h₂.tail (l := .exec t .go) trivial (Object.next_exec (Config.put_pcs_self ..) hcas)
  exact ⟨_, h₃, Config.put_pcs_self .., rfl⟩

omit [Fintype ι] in
/-- **Acquisitions alone fill the word**, by induction on their number. -/
theorem reach_full {n : ℕ} (hn : n ≤ maxReaders) :
    ∃ c : Config ι (Store ι) Pc, Reach (spinCell adaptive) Always init c ∧ c.pcs t = none ∧
      count c.shared.state = n ∧ wp c.shared.state = false := by
  induction n with
  | zero => exact ⟨init, .refl, rfl, count_unlocked, wp_unlocked⟩
  | succ n ih =>
    obtain ⟨c, hc, hpc, hcount, hw⟩ := ih (Nat.le_of_succ_le hn)
    have hroom : count c.shared.state + 1 < writerCount := by
      unfold maxReaders at hn
      unfold writerCount
      omega
    obtain ⟨c', hc', hpc', hstate⟩ := reach_acquire t hc hpc hroom hw
    obtain ⟨hc₁, hw₁, -⟩ := count_add_oneReader (Nat.lt_of_succ_lt hroom)
    refine ⟨c', hc', hpc', ?_, ?_⟩
    · rw [hstate, hc₁, hcount]
    · rw [hstate, hw₁, hw]

end Phantom

/-- **A phantom writer.** With `2 ^ 62 - 2` readers the fast path turns away, and the slow path then
lets the reader in and writes the pattern of a writer. -/
theorem phantom_writer :
    ∃ (c : Config (Fin 1) (Store (Fin 1)) Pc) (b : Backoff) (s' : Store (Fin 1)),
      Reach (spinCell 4) Always init c ∧ admitShared c.shared.state = none ∧
      lockSharedLoop b c.shared.state =
        .lockSharedCas b c.shared.state (c.shared.state + oneReader) ∧
      c.pcs 0 = some (.lockSharedCas b c.shared.state (c.shared.state + oneReader)) ∧
      exec 4 0 .go c.shared (.lockSharedCas b c.shared.state (c.shared.state + oneReader)) =
        some (s', .ret .sharedGuard) ∧
      isWriterLocked c.shared.state = false ∧ readersCount c.shared.state = 2 ^ 62 - 2 ∧
      isWriterLocked s'.state = true ∧ readersCount s'.state = 0 := by
  obtain ⟨c, hc, hpc, hcount, hw⟩ : ∃ c : Config (Fin 1) (Store (Fin 1)) Pc,
      Reach (spinCell 4) Always init c ∧ c.pcs 0 = none ∧ count c.shared.state = maxReaders ∧
        wp c.shared.state = false := reach_full 0 (le_refl maxReaders)
  have hlt : count c.shared.state < writerCount := by
    rw [hcount]
    decide
  have hadmit : admitShared c.shared.state = none :=
    admitShared_eq_none_iff.2 (Or.inl (by rw [hcount]; decide))
  have hloop : lockSharedLoop (.new 4) c.shared.state =
      .lockSharedCas (.new 4) c.shared.state (c.shared.state + oneReader) :=
    lockSharedLoop_eq_cas_iff.2 ⟨hlt, hw, rfl⟩
  have hfast : exec 4 (0 : Fin 1) .go c.shared .lockSharedFastLoad =
      some (c.shared, .goto (.lockSharedLoad (.new 4))) := by
    simp only [exec, hadmit]
  have hslow : exec 4 (0 : Fin 1) .go c.shared (.lockSharedLoad (.new 4)) =
      some (c.shared,
        .goto (.lockSharedCas (.new 4) c.shared.state (c.shared.state + oneReader))) := by
    simp only [exec, hloop]
  have h₁ := hc.tail (l := .call 0 .lockShared) trivial (Object.next_call hpc rfl)
  have h₂ := h₁.tail (l := .exec 0 .go) trivial (Object.next_exec (Config.put_pcs_self ..) hfast)
  have h₃ := h₂.tail (l := .exec 0 .go) trivial (Object.next_exec (Config.put_pcs_self ..) hslow)
  have hfull : count (c.shared.state + oneReader) = writerCount := by
    rw [(count_add_oneReader hlt).1, hcount]
    rfl
  refine ⟨_, .new 4, c.shared.gainShared 0 (c.shared.state + oneReader), h₃, hadmit, hloop,
    Config.put_pcs_self .., ?_, ?_, ?_, ?_, ?_⟩
  · simp only [exec, casWeak, cas, Config.put_shared, if_true]
  · rw [Bool.eq_false_iff, ne_eq, isWriterLocked_iff]
    exact hlt.ne
  · exact (readersCount_eq hlt.ne).trans hcount
  · exact isWriterLocked_iff.2 hfull
  · exact readersCount_eq_zero_of_writer hfull

/-- The first reader of a new cell. -/
theorem shared_acquisition_safe_first :
    ∃ (c : Config (Fin 1) (Store (Fin 1)) Pc)
    (s' : Store (Fin 1)), Reach (spinCell 4) Always init c ∧
      exec 4 0 .go c.shared (.lockSharedFastCas 0 4) = some (s', .ret .sharedGuard) ∧
      Admits c.shared.state s'.state := by
  obtain ⟨c, hc, ht⟩ := Reach.exists_of_replay (spinCell 4) Always
    (init : Config (Fin 1) (Store (Fin 1)) Pc) (.call 0 .lockShared :: steps 0 1)
    (fun c ↦ decide (c.pcs 0 = some (.lockSharedFastCas 0 4) ∧ c.shared.state = 0)) (by decide)
  obtain ⟨hpc, hs⟩ := of_decide_eq_true ht
  have he : exec 4 0 .go c.shared (.lockSharedFastCas 0 4) =
      some (c.shared.gainShared 0 4, .ret .sharedGuard) := by
    simp only [exec, cas, hs, if_true]
  refine ⟨c, _, hc, he, ((shared_acquisition_safe hc).1 0 .go _ _ hpc he).2 ?_⟩
  intro b state newState hp
  rw [hpc] at hp
  cases hp

end SpinCell

end Crossync
