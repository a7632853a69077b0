import Crossync.Atomic.BufferPlaces

/-!
# The verdicts of an `AtomicBuffer`

A `pop` that gives up has read a position, a sequence word and `tail` at three different moments,
and a `push` that gives up a position and a sequence word at two. Each of the words may be stale by
then.

A `pop` that gives up is right **at its last access**: the position it has in hand is at most `head`
and at least `tail`, so both are the position (`empty_at_last`). A `push` can be misled: a slot that
was used a number of laps after its position, and emptied again, may show a word that is half the
range ahead and looks behind. But then a pop has come and gone during the call. So it gives up only
if the ring was full at some moment of the call, or a pop was in between its reservation and its
release (`verdicts_justified`).

## Which instant

A verdict is about an instant of the call, so it is stated over the run of the call (`Calls`): some
store that one of its own accesses found has `head = tail`, or has the ring full, or has a pop
between its reservation and its release. For a pop the instant is its last access. For a push it
need not be, and it is found by following the slot back to the access at which the word was loaded.
-/

open Interleave

namespace Crossync

namespace AtomicBuffer

variable {ι α : Type*} [DecidableEq ι] [DecidableEq α]

/-- A pop that has reserved a slot and not released it. -/
def releasing : Option (Pc α) → Bool
  | some (.popTake _) | some (.popPublish _ _) => true
  | _ => false

/-- The ring is full, or a pop holds a slot. -/
def Occupied (c : Config ι (Store α) (Pc α)) : Prop :=
  c.shared.tail - c.shared.head = c.shared.cap ∨ ∃ u, releasing (c.pcs u) = true

/-- Nobody is delayed, and `t` does not start another call. -/
def During (t : ι) (c : Config ι (Store α) (Pc α)) (l : Label ι (Op α)) : Prop :=
  Prompt c l ∧ ∀ op, l ≠ .call t op

section Runs

variable {c c₁ c₂ : Config ι (Store α) (Pc α)} {cap : ℕ} {s₀ : Store α} {t : ι} {ch : Choice ι}
  {s' : Store α} {p : Pc α} {o : Outcome (Pc α) (Ret α)} {φ : ℕ → Phase ι}

/-! ### Pops

The word of `tail` is loaded last and `tail` is at least the position in hand, so equality at the
end is equality then. -/

omit [DecidableEq ι] in
/-- Reservations only add up. -/
theorem exec_head_le (he : exec t ch c.shared p = some (s', o)) : c.shared.head ≤ s'.head := by
  cases p <;> simp only [exec] at he
  all_goals repeat' split at he
  all_goals cases he
  all_goals first | exact le_rfl | exact Nat.le_succ _

/-- The position that a `pop` has in hand was `head`. -/
theorem reach_popTail (hs : withCapacity cap = some s₀) (hcap : 2 ≤ cap)
    (h : Reach (atomicBuffer : Object ι _ _ _ _) Prompt ⟨s₀, fun _ ↦ none⟩ c) :
    ∀ t pos, c.pcs t = some (.popTail pos) → pos ≤ c.shared.head := by
  refine h.invariant (I := fun c ↦ ∀ t pos, c.pcs t = some (.popTail pos) → pos ≤ c.shared.head)
    (fun t pos hpc ↦ by cases hpc) ?_ ?_
  · rintro c t op ⟨s', o⟩ - hI - - he u pos hu
    simp only [atomicBuffer, enter] at he
    by_cases hut : u = t
    · subst hut
      rw [Config.put_pcs_self] at hu
      repeat' split at he
      all_goals
        cases he
        simp only [pushPc, popPc] at hu
        try split_ifs at hu
        all_goals cases hu
    · rw [Config.put_pcs_of_ne _ _ hut] at hu
      have := hI u pos hu
      repeat' split at he
      all_goals cases he
      all_goals exact this
  · rintro c t ch q ⟨s', o⟩ hr hI - hpc he u pos hu
    have hle := exec_head_le (t := t) he
    by_cases hut : u = t
    · subst hut
      rw [Config.put_pcs_self] at hu
      obtain ⟨φ, hinv⟩ := reach_inv hs hcap hr
      have hk := hinv.knows u q hpc
      -- only the look at the sequence leads there
      cases q <;> simp only [atomicBuffer, exec] at he
      all_goals repeat' split at he
      all_goals
        cases he
        try cases hu
      exact hk
    · rw [Config.put_pcs_of_ne _ _ hut] at hu
      exact (hI u pos hu).trans hle

/-- **A `pop` that finds nothing is right at its last access.** -/
theorem empty_at_last (hs : withCapacity cap = some s₀) (hcap : 2 ≤ cap)
    (h : Reach (atomicBuffer : Object ι _ _ _ _) Prompt ⟨s₀, fun _ ↦ none⟩ c)
    (hok : Prompt c (.exec t ch)) (hpc : c.pcs t = some p)
    (he : exec t ch c.shared p = some (s', .ret .empty)) : c.shared.head = c.shared.tail := by
  obtain ⟨φ, hinv⟩ := reach_inv hs hcap h
  have hk := hinv.knows t p hpc
  cases p with
  | popTail pos =>
    have hle := reach_popTail hs hcap h t pos hpc
    have hhead := hinv.agrees.head_le
    have htail := hinv.agrees.tail_le
    have hbound := hinv.agrees.cap_le
    simp only [Prompt, hpc] at hok
    simp only [exec] at he
    split_ifs at he with hword
    · have := eq_of_word_eq hword.symm (by omega) (by omega)
      omega
    · cases he
  | popSingle => exact hk.elim
  | _ =>
    simp only [exec] at he
    repeat' split at he
    all_goals cases he

/-! ### Pushes

The position, the word of the slot and the position again are three loads. What can happen between
the first two is that a whole lap goes by, and then a pop has gone through the slot. -/

/-- The position that a `push` has in hand is not behind `head`. -/
def Late (h : ℕ) : Pc α → Prop
  | .pushSequence _ pos | .pushCas _ pos => h ≤ pos
  | _ => True

/-- Since `head` was `h`, a pop has come in or `head` has not moved, and the push of `t` is not
behind it. -/
def Steady (t : ι) (h : ℕ) (c : Config ι (Store α) (Pc α)) : Prop :=
  (∃ u, releasing (c.pcs u) = true) ∨ c.shared.head = h ∧ ∀ q, c.pcs t = some q → Late h q

omit [DecidableEq ι] in
/-- An access moves `head` only by a reservation. -/
theorem exec_head (he : exec t ch c.shared p = some (s', o)) :
    releasing o.pc = true ∨ s'.head = c.shared.head := by
  cases p <;> simp only [exec] at he
  all_goals repeat' split at he
  all_goals cases he
  all_goals first | exact Or.inr rfl | exact Or.inl rfl

omit [DecidableEq ι] in
/-- What a push has in hand after an access. -/
theorem exec_late {h : ℕ} (hinv : Inv φ c) (hh : c.shared.head = h) (hl : Late h p)
    (he : exec t ch c.shared p = some (s', o)) : ∀ q, o.pc = some q → Late h q := by
  intro q ho
  have hle : h ≤ c.shared.tail := hh ▸ hinv.agrees.head_le
  cases p <;> simp only [exec] at he
  all_goals repeat' split at he
  all_goals
    cases he
    cases ho
  all_goals first | exact hl | exact hle | trivial

theorem steady (hs : withCapacity cap = some s₀) (hcap : 2 ≤ cap)
    (hc : Reach (atomicBuffer : Object ι _ _ _ _) Prompt ⟨s₀, fun _ ↦ none⟩ c₁)
    (hpc : ∃ v, c₁.pcs t = some (.pushTail v))
    (h : Reach (atomicBuffer : Object ι _ _ _ _) (fun d l ↦ During t d l ∧ ¬ Occupied d) c₁ c₂) :
    Steady t c₁.shared.head c₂ := by
  refine h.invariant (I := Steady t c₁.shared.head) ?_ ?_ ?_
  · obtain ⟨v, hpc⟩ := hpc
    refine Or.inr ⟨rfl, fun q hq ↦ ?_⟩
    rw [hpc] at hq
    cases hq
    trivial
  · rintro d u op ⟨s', o⟩ - hI ⟨⟨-, hcall⟩, hfree⟩ - he
    obtain hrel | ⟨hh, hl⟩ := hI
    · exact absurd (Or.inr hrel) hfree
    have hut : t ≠ u := by
      rintro rfl
      exact hcall op rfl
    have hsame : s' = d.shared := by
      simp only [atomicBuffer, enter] at he
      repeat' split at he
      all_goals
        cases he
        rfl
    refine Or.inr ⟨?_, fun q hq ↦ ?_⟩
    · rw [Config.put_shared, hsame]
      exact hh
    · rw [Config.put_pcs_of_ne _ _ hut] at hq
      exact hl q hq
  · rintro d u ch q ⟨s', o⟩ hr hI ⟨-, hfree⟩ hpc' he
    obtain hrel | ⟨hh, hl⟩ := hI
    · exact absurd (Or.inr hrel) hfree
    obtain ⟨φ, hinv⟩ := reach_inv hs hcap (hc.trans (hr.mono fun _ _ hok ↦ hok.1.1))
    rcases exec_head (t := u) he with hrel | hhead
    · exact Or.inl ⟨u, by rw [Config.put_pcs_self]; exact hrel⟩
    · refine Or.inr ⟨hhead.trans hh, fun q' hq' ↦ ?_⟩
      by_cases hut : t = u
      · subst hut
        rw [Config.put_pcs_self] at hq'
        exact exec_late (t := t) hinv hh (hl q hpc') he q' hq'
      · rw [Config.put_pcs_of_ne _ _ hut] at hq'
        exact hl q' hq'

omit [DecidableEq ι] [DecidableEq α] in
/-- A position that has been popped, in a buffer where no pop holds a slot, is done. -/
theorem Inv.done_of_popped (hinv : Inv φ c) (hfree : ¬ Occupied c) {q : ℕ}
    (hq : q < c.shared.head) :
    φ q = .done := by
  have hpop := (hinv.agrees.popped_iff q).2 hq
  cases hφ : φ q with
  | done => rfl
  | free | full =>
    rw [hφ] at hpop
    exact hpop.elim
  | held st u =>
    have hclaim := (hinv.staked u q st).1 hφ
    obtain ⟨r, hr, hrc⟩ := Option.bind_eq_some_iff.1 hclaim
    rw [hφ] at hpop
    refine absurd (Or.inr ⟨u, ?_⟩) hfree
    rw [hr]
    cases st with
    | writing | written => exact hpop.elim
    | taking | taken =>
      cases r <;>
        simp only [claim, reduceCtorEq, Option.some.injEq, Prod.mk.injEq, and_false] at hrc
      rfl

/-- A word that is ahead of another by less than half of the range does not look behind it. -/
theorem sub_word_nonneg {a d : ℕ} (hd : d < 2 ^ 63) : ¬ (word (a + d) - word a).toInt < 0 := by
  have hnat : (word (a + d) - word a).toNat = d := by
    rw [word, word, BitVec.toNat_sub, BitVec.toNat_ofNat, BitVec.toNat_ofNat]
    omega
  rw [BitVec.toInt_eq_toNat_cond, hnat, if_pos (by omega)]
  omega

omit [DecidableEq ι] [DecidableEq α] in
/-- With no pop around and room in the ring, the slot of a recent position that is not behind `head`
does not look behind. -/
theorem Inv.not_behind (hinv : Inv φ c) (hfree : ¬ Occupied c) {pos : ℕ} (hle : pos ≤ c.shared.tail)
    (hlt : c.shared.tail < pos + 2 ^ 63) (hhead : c.shared.head ≤ pos)
    (hdiff : word (c.shared.sequence (slot c.shared pos)) - word pos ≠ 0) :
    ¬ (word (c.shared.sequence (slot c.shared pos)) - word pos).toInt < 0 := by
  have ha := hinv.agrees
  have htwo := ha.two_le
  have htail := ha.tail_le
  rw [slot_eq_mod ha.pow] at hdiff ⊢
  rcases Nat.lt_or_eq_of_le hle with hpt | hpt
  · -- another push has reserved the position: the slot shows it, or a later lap
    obtain ⟨q, hqi, hqt, hqc⟩ := exists_lap (Nat.mod_lt pos (by omega : 0 < c.shared.cap))
      (lt_of_le_of_lt (Nat.mod_le pos _) hpt)
    have hge : pos ≤ q := by
      by_contra hlt'
      have := eq_of_mod_eq hqi (by omega) (by omega)
      omega
    have hdone : φ q ≠ .done := by
      intro hd
      have := (ha.popped_iff q).1 (by rw [hd]; trivial)
      omega
    obtain ⟨d, rfl⟩ := Nat.exists_eq_add_of_le hge
    -- whole laps apart, so an even number of positions
    have heven : 2 ∣ d := by
      have hdvd : c.shared.cap ∣ d := by
        have := (Nat.modEq_iff_dvd' hge).1 hqi.symm
        rwa [Nat.add_sub_cancel_left] at this
      obtain ⟨k, -, hk⟩ := ha.pow
      have hk0 : k ≠ 0 := by
        rintro rfl
        omega
      exact ((hk ▸ dvd_pow_self 2 hk0 : 2 ∣ c.shared.cap)).trans hdvd
    have hseq := congrArg Prod.fst (ha.cells _ hqt hqc)
    rw [hqi] at hseq
    dsimp only at hseq
    rw [hseq]
    rcases cell_sequence c.shared.cap (pos + d) (brought c.shared (pos + d)) _ hdone
      with hv | hv <;>
      rw [hv]
    · exact sub_word_nonneg (by omega)
    · exact sub_word_nonneg (a := pos) (d := d + 1) (by omega)
  · -- nobody has: the slot shows the lap before, which is done
    exfalso
    apply hdiff
    rw [sub_word_eq_zero_iff]
    by_cases hfresh : pos < c.shared.cap
    · rw [Nat.mod_eq_of_lt hfresh, (ha.fresh pos (by omega) hfresh).1]
    · have hroom : c.shared.tail - c.shared.head ≠ c.shared.cap := fun h ↦ hfree (Or.inl h)
      have hdone : φ (pos - c.shared.cap) = .done := hinv.done_of_popped hfree (by omega)
      have hseq := congrArg Prod.fst (ha.cells (pos - c.shared.cap) (by omega) (by omega))
      rw [hdone, show (pos - c.shared.cap) % c.shared.cap = pos % c.shared.cap from
        (Nat.mod_eq_sub_mod (not_lt.1 hfresh)).symm] at hseq
      simp only [cell] at hseq
      rw [hseq, Nat.sub_add_cancel (not_lt.1 hfresh)]

/-- **The verdicts of the buffer are justified.** With a capacity of at least two, in every run in
which no thread is delayed: a `pop` returns `None` only if `head = tail` at an instant of the call,
its last access; and a `push` of a non-null pointer returns `Err` only if at some instant of the
call `tail - head = cap` or a pop has reserved a slot and not released it. The instants of a call
are those its run passes through, from the start of the call to its last access. -/
theorem verdicts_justified (hs : withCapacity cap = some s₀) (hcap : 2 ≤ cap) :
    (∀ c t ch p s', Reach (atomicBuffer : Object ι _ _ _ _) Prompt ⟨s₀, fun _ ↦ none⟩ c →
      Prompt c (.exec t ch) → c.pcs t = some p →
      exec t ch c.shared p = some (s', .ret .empty) → c.shared.head = c.shared.tail) ∧
    ∀ c t v c₁ cs c₂ ch p s' x,
      Reach (atomicBuffer : Object ι _ _ _ _) Prompt ⟨s₀, fun _ ↦ none⟩ c →
      (atomicBuffer : Object ι _ _ _ _).next c (.call t (.push (some v))) = some c₁ →
      Passes (atomicBuffer : Object ι _ _ _ _) (During t) c₁ cs c₂ →
      Prompt c₂ (.exec t ch) → c₂.pcs t = some p →
      exec t ch c₂.shared p = some (s', .ret (.err x)) → ∃ d ∈ cs, Occupied d := by
  refine ⟨fun c t ch p s' h hok hpc he ↦ empty_at_last hs hcap h hok hpc he, ?_⟩
  intro c t v c₁ cs c₂ ch p s' x hc hcall hrun hok hpc he
  by_contra hnot
  have hfree : ∀ d ∈ cs, ¬ Occupied d := fun d hd hocc ↦ hnot ⟨d, hd, hocc⟩
  have hcalm := hrun.reach_of_avoids hfree
  have hc₁ : Reach (atomicBuffer : Object ι _ _ _ _) Prompt ⟨s₀, fun _ ↦ none⟩ c₁ :=
    hc.tail (l := .call t (.push (some v))) trivial hcall
  obtain ⟨φ, hinv⟩ := reach_inv hs hcap (hc₁.trans (hcalm.mono fun _ _ h ↦ h.1.1))
  obtain ⟨φ₀, hinv₀⟩ := reach_inv hs hcap hc
  have hstart : ∃ w, c₁.pcs t = some (.pushTail w) := by
    have hne : c.shared.cap ≠ 1 := by
      have := hinv₀.agrees.two_le
      omega
    obtain ⟨u, op, r, hl, -, hr, rfl⟩ | ⟨u, ch', q, r, hl, -⟩ := Object.next_cases hcall
    · cases hl
      simp only [atomicBuffer, enter, pushPc, if_neg hne] at hr
      cases hr
      exact ⟨v, by rw [Config.put_pcs_self]; rfl⟩
    · cases hl
  have hlast := hfree c₂ hrun.mem_last
  obtain hrel | ⟨hhead, hlate⟩ := steady hs hcap hc₁ hstart hcalm
  · exact hlast (Or.inr hrel)
  have hk := hinv.knows t p hpc
  have hl := hlate p hpc
  cases p with
  | pushSequence w pos =>
    simp only [Prompt, hpc] at hok
    simp only [exec] at he
    split_ifs at he with hdiff hneg
    · cases he
    · exact hinv.not_behind hlast hk hok (hhead.trans_le hl) hdiff hneg
    · cases he
  | pushSingle w => exact hk
  | _ =>
    simp only [exec] at he
    repeat' split at he
    all_goals cases he

end Runs

/-- Two pushes fill a ring of two slots, and a third one is refused after two accesses. -/
theorem verdicts_justified_full :
    ∃ (cs : List (Config (Fin 2) (Store ℕ) (Pc ℕ))) (c₁ c₂ : Config (Fin 2) (Store ℕ) (Pc ℕ)),
      Passes (atomicBuffer : Object (Fin 2) _ _ _ _) (During 1) c₁ cs c₂ ∧
      (exec (1 : Fin 2) .go c₂.shared (.pushSequence 9 2)).map Prod.snd =
        some (.ret (.err (some 9))) ∧
      ∃ d ∈ cs, Occupied d := by
  obtain ⟨c, hc, ht⟩ := Reach.exists_of_replay
    (atomicBuffer : Object (Fin 2) (Store ℕ) _ _ _) Prompt ⟨.empty 2, fun _ ↦ none⟩
    (.call 0 (.push (some 7)) :: List.replicate 5 (.exec 0 .go) ++
      .call 0 (.push (some 8)) :: List.replicate 5 (.exec 0 .go))
    (fun c ↦ (atomicBuffer.next c (.call 1 (.push (some 9)))).any fun c₁ ↦
      (atomicBuffer.next c₁ (.exec 1 .go)).any fun c₂ ↦
        decide (Prompt c₁ (.exec 1 .go) ∧ Prompt c₂ (.exec 1 .go) ∧
          c₂.pcs 1 = some (.pushSequence 9 2) ∧
          (exec (1 : Fin 2) .go c₂.shared (.pushSequence 9 2)).map Prod.snd =
            some (.ret (.err (some 9))))) (by decide)
  obtain ⟨c₁, hcall, ht⟩ := (Option.any_eq_true _ _).1 ht
  obtain ⟨c₂, hstep, ht⟩ := (Option.any_eq_true _ _).1 ht
  obtain ⟨hok₁, hok, hpc, herr⟩ := of_decide_eq_true ht
  obtain ⟨⟨s', o⟩, he, ho⟩ := Option.map_eq_some_iff.1 herr
  cases ho
  have hrun : Passes (atomicBuffer : Object (Fin 2) _ _ _ _) (During 1) c₁ _ c₂ :=
    .tail .refl ⟨hok₁, by simp⟩ hstep
  exact ⟨_, c₁, c₂, hrun, herr,
    (verdicts_justified (rfl : withCapacity 2 = _) le_rfl).2 c 1 9 c₁ _ c₂
    .go _ s' _ hc hcall hrun hok hpc he⟩

end AtomicBuffer

end Crossync
