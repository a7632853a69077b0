import Crossync.Core.CoordExclusion

/-!
# Registration in a `Coord`

`register` looks for a lane from a start of its own, and takes the first one that is free or already
its own. Claims are never given up, so a lane that a scan has passed stays taken by somebody else,
and a later scan of the same thread passes it again: it ends where the first one ended. `Placed`
says where that is, and what the scan has seen on the way is the assertion of the thread in the
middle of it (`Scanned`).

## Why the first scan settles it

A scan goes through the lanes in a fixed order from a start that depends on the thread alone. It
passes a lane only if another thread owns it, and owners never change. So the lanes before the one
it took are foreign for ever, a later scan passes exactly these, and finds its own. The common lane
is where a scan ends that has passed all others, and by the same argument it ends there again.

The cache of the thread decides whether a scan is made at all. It is left out of `Placed`, which
speaks of where a scan ends if one is made.
-/

open Interleave

namespace Crossync

namespace Coord

variable {ι : Type*} [DecidableEq ι] {ids : ThreadIds ι} {adaptive : ℕ}

/-- The lanes that `t` tries before the one at `offset` are taken by other threads. -/
def Scanned (ids : ThreadIds ι) (t : ι) (s : Store ι) (offset : ℕ) : Prop :=
  ∀ j < offset, s.owners (laneAt ids t j) ≠ 0 ∧ s.owners (laneAt ids t j) ≠ ids.lane t

/-- Where the scans of `t` end: at the first lane that is its own, or at the common one. -/
def Placed (ids : ThreadIds ι) (t : ι) (s : Store ι) (l : ℕ) : Prop :=
  (∃ k < lanes, l = laneAt ids t k ∧ Scanned ids t s k ∧ s.owners l = ids.lane t) ∨
    l = lanes ∧ Scanned ids t s lanes

section Claims

variable {t u : ι} {s s' : Store ι} {l m k : ℕ}

/-- Claims are never given up. -/
def Keeps (s s' : Store ι) : Prop := ∀ l, s.owners l ≠ 0 → s'.owners l = s.owners l

omit [DecidableEq ι] in
theorem Scanned.mono (h : Scanned ids t s k) (hk : Keeps s s') : Scanned ids t s' k := by
  intro j hj
  obtain ⟨hne, hother⟩ := h j hj
  rw [hk _ hne]
  exact ⟨hne, hother⟩

omit [DecidableEq ι] in
theorem Placed.mono (h : Placed ids t s l) (hk : Keeps s s') : Placed ids t s' l := by
  rcases h with ⟨k, hlt, hl, hs, hown⟩ | ⟨hl, hs⟩
  · refine Or.inl ⟨k, hlt, hl, hs.mono hk, ?_⟩
    rw [hk l (by rw [hown]; exact ids.lane_ne_zero t), hown]
  · exact Or.inr ⟨hl, hs.mono hk⟩

omit [DecidableEq ι] in
/-- A scan does not pass the lane of its thread. -/
theorem Scanned.le (h : Scanned ids t s m) (hown : s.owners (laneAt ids t k) = ids.lane t) :
    m ≤ k := by
  by_contra hlt
  exact (h k (Nat.lt_of_not_le hlt)).2 hown

omit [DecidableEq ι] in
/-- **All scans of a thread end at the same lane.** -/
theorem Placed.unique (h : Placed ids t s l) (h' : Placed ids t s m) : m = l := by
  rcases h with ⟨k, hk, hl, hs, hown⟩ | ⟨hl, hs⟩
  · rcases h' with ⟨k', hk', hm, hs', hown'⟩ | ⟨hm, hs'⟩
    · have hle := hs.le (hm ▸ hown')
      have hge := hs'.le (hl ▸ hown)
      rw [hl, hm, Nat.le_antisymm hge hle]
    · exact absurd (hs'.le (hl ▸ hown)) (Nat.not_le.2 hk)
  · rcases h' with ⟨k', hk', hm, hs', hown'⟩ | ⟨hm, hs'⟩
    · exact absurd (hs.le (hm ▸ hown')) (Nat.not_le.2 hk')
    · rw [hl, hm]

omit [DecidableEq ι] in
/-- A lane below the common one is the lane of one thread. -/
theorem Placed.thread_unique (h : Placed ids t s l) (h' : Placed ids u s l) (hl : l < lanes) :
    u = t := by
  have howns : ∀ {v}, Placed ids v s l → s.owners l = ids.lane v := by
    rintro v (⟨-, -, -, -, hown⟩ | ⟨rfl, -⟩)
    · exact hown
    · exact absurd hl (lt_irrefl _)
  exact ids.lane_injective ((howns h').symm.trans (howns h))

end Claims

/-! ### Steps

A scan asks one lane after the other. -/

section Steps

variable {t : ι} {ch : Choice ι} {s s' : Store ι} {p : Pc ι} {o : Outcome (Pc ι) Ret} {offset l : ℕ}

/-- **What a probe of the scan does**: it takes a free lane, finds its own, goes on, or gives up at
the end. -/
theorem exec_register (hs : Scanned ids t s offset) (hlt : offset < lanes)
    (h : exec ids adaptive t ch s (.register offset) = some (s', o)) :
    Keeps s s' ∧ ((∃ l, o = .goto (.add l) ∧ Placed ids t s' l) ∨
      o = .goto (.register (offset + 1)) ∧ Scanned ids t s' (offset + 1) ∧ offset + 1 < lanes) := by
  have hkeep : Keeps s s := fun _ _ ↦ rfl
  -- the scan goes on when the lane is taken by another thread
  have hnext : s.owners (laneAt ids t offset) ≠ 0 → s.owners (laneAt ids t offset) ≠ ids.lane t →
      Scanned ids t s (offset + 1) := by
    intro hne hother j hj
    rcases Nat.lt_succ_iff_lt_or_eq.1 hj with hj | rfl
    · exact hs j hj
    · exact ⟨hne, hother⟩
  simp only [exec] at h
  split at h
  · -- a free lane
    rename_i w hw
    obtain ⟨hfree, rfl⟩ := cas_eq_ok.1 hw
    cases h
    have hclaim : ∀ {x : Store ι}, x.owners =
      Function.update s.owners (laneAt ids t offset) (ids.lane t) →
        Keeps s x := by
      intro x hx m hm
      rw [hx]
      refine Function.update_of_ne ?_ _ _
      rintro rfl
      exact hm hfree
    refine ⟨hclaim rfl, Or.inl ⟨_, rfl, Or.inl ⟨offset, hlt, rfl, hs.mono (hclaim rfl), ?_⟩⟩⟩
    exact Function.update_self _ _ _
  · rename_i w hw
    obtain ⟨hne, rfl⟩ := cas_eq_error.1 hw
    split_ifs at h with hown hmore
    · cases h
      exact ⟨hkeep, Or.inl ⟨_, rfl, Or.inl ⟨offset, hlt, rfl, hs, hown⟩⟩⟩
    · cases h
      exact ⟨hkeep, Or.inr ⟨rfl, hnext hne hown, hmore⟩⟩
    · cases h
      refine ⟨hkeep, Or.inl ⟨_, rfl, Or.inr ⟨rfl, ?_⟩⟩⟩
      have hend : offset + 1 = lanes := by omega
      exact hend ▸ hnext hne hown

/-- The other accesses leave the claims alone, and none of them starts a scan. -/
theorem exec_owners (hp : ∀ k, p ≠ .register k) (h : exec ids adaptive t ch s p = some (s', o)) :
    s'.owners = s.owners ∧ ∀ k, o.pc ≠ some (.register k) := by
  cases p with
  | register k => exact absurd rfl (hp k)
  | locking q | trying q | unlocking r q =>
    simp only [exec] at h
    split at h
    all_goals cases h
    all_goals exact ⟨rfl, by simp⟩
  | _ =>
    simp only [exec] at h
    repeat' split at h
    all_goals cases h
    all_goals exact ⟨rfl, by simp⟩

/-- The start of a call leaves the claims alone, and a scan starts at its first lane. -/
theorem enter_owners {op : Op ι} (h : enter t op s = some (s', o)) :
    s'.owners = s.owners ∧ ∀ k, o.pc = some (.register k) → k = 0 := by
  cases op with
  | shared =>
    cases h
    refine ⟨rfl, fun k hk ↦ ?_⟩
    cases hl : s.last t with
    | none =>
      rw [hl] at hk
      cases hk
      rfl
    | some l =>
      rw [hl] at hk
      cases hk
  | dropShared l =>
    simp only [enter] at h
    split_ifs at h
    cases h
    refine ⟨rfl, fun k hk ↦ ?_⟩
    unfold dropPc at hk
    split_ifs at hk <;> cases hk
  | exclusive | tryExclusive | evict =>
    cases h
    exact ⟨rfl, by simp⟩
  | dropExclusive | sendExclusive =>
    simp only [enter] at h
    split_ifs at h
    cases h
    exact ⟨rfl, by simp⟩

end Steps

/-! ### Runs

What a scan has passed stays passed. -/

section Runs

variable {ok : Config ι (Store ι) (Pc ι) → Label ι (Op ι) → Prop} {c c' : Config ι (Store ι) (Pc ι)}

/-- What a thread in the middle of a scan has seen. -/
def Scanning (ids : ThreadIds ι) (t : ι) (s : Store ι) : Pc ι → Prop
  | .register offset => Scanned ids t s offset ∧ offset < lanes
  | _ => True

omit [DecidableEq ι] in
theorem Scanning.mono {u : ι} {s s' : Store ι} {q : Pc ι} (h : Scanning ids u s q)
    (hk : Keeps s s') :
    Scanning ids u s' q := by
  cases q with
  | register k => exact ⟨h.1.mono hk, h.2⟩
  | _ => trivial

omit [DecidableEq ι] in
theorem scanning_of_ne {u : ι} {s : Store ι} {q : Pc ι} (h : ∀ k, q ≠ .register k) :
    Scanning ids u s q := by
  cases q with
  | register k => exact absurd rfl (h k)
  | _ => trivial

/-- **Every step keeps the claims**, and leaves its thread with what it has seen. -/
theorem exec_scanning {t : ι} {ch : Choice ι} {s s' : Store ι} {p : Pc ι} {o : Outcome (Pc ι) Ret}
    (hp : Scanning ids t s p) (h : exec ids adaptive t ch s p = some (s', o)) :
    Keeps s s' ∧ ∀ q, o.pc = some q → Scanning ids t s' q := by
  by_cases hreg : ∃ k, p = .register k
  · obtain ⟨k, rfl⟩ := hreg
    obtain ⟨hkeep, ⟨l, rfl, -⟩ | ⟨rfl, hnext⟩⟩ := exec_register hp.1 hp.2 h
    · exact ⟨hkeep, by rintro _ ⟨⟩; trivial⟩
    · exact ⟨hkeep, by rintro _ ⟨⟩; exact hnext⟩
  · obtain ⟨hown, hno⟩ := exec_owners (fun k hk ↦ hreg ⟨k, hk⟩) h
    exact ⟨fun m _ ↦ by rw [hown], fun q hq ↦ scanning_of_ne fun k hk ↦ hno k (hk ▸ hq)⟩

variable (ids) in
theorem enter_scanning {t : ι} {op : Op ι} {s s' : Store ι} {o : Outcome (Pc ι) Ret}
    (h : enter t op s = some (s', o)) : Keeps s s' ∧ ∀ q, o.pc = some q → Scanning ids t s' q := by
  obtain ⟨hown, hstart⟩ := enter_owners h
  refine ⟨fun m _ ↦ by rw [hown], fun q hq ↦ ?_⟩
  cases q with
  | register k =>
    obtain rfl := hstart k hq
    exact ⟨fun j hj ↦ absurd hj (Nat.not_lt_zero j), by decide⟩
  | _ => trivial

theorem reach_scanning (h : Reach (coord ids adaptive) ok init c) :
    ∀ t p, c.pcs t = some p → Scanning ids t c.shared p := by
  refine (h.invariant_local (G := fun _ ↦ True) (L := Scanning ids) trivial
    (by simp [init]) ?_ ?_).2
  · rintro t op s s' o - he
    obtain ⟨hkeep, hq⟩ := enter_scanning ids he
    exact ⟨trivial, hq, fun u q _ hu ↦ hu.mono hkeep⟩
  · rintro t ch s p s' o - hp he
    obtain ⟨hkeep, hq⟩ := exec_scanning hp he
    exact ⟨trivial, hq, fun u q _ hu ↦ hu.mono hkeep⟩

/-- A run keeps the claims that it starts with, by induction on its steps. -/
theorem reach_keeps (hc : Reach (coord ids adaptive) ok init c)
    (h : Reach (coord ids adaptive) ok c c') :
    Keeps c.shared c'.shared := by
  induction h with
  | refl => exact fun _ _ ↦ rfl
  | tail hrun hok hn ih =>
    rename_i d d' l
    have hscan := reach_scanning (hc.trans hrun)
    have hstep : Keeps d.shared d'.shared := by
      obtain ⟨t, op, r, rfl, hpc, hr, rfl⟩ | ⟨t, ch, p, r, rfl, hpc, hr, rfl⟩ :=
        Object.next_cases hn
      · exact (enter_scanning ids hr).1
      · exact (exec_scanning (hscan t p hpc) hr).1
    intro m hm
    rw [hstep m (by rw [ih m hm]; exact hm), ih m hm]

/-- Thread `t` ends a registration with lane `l`. -/
def Registers (ids : ThreadIds ι) (adaptive : ℕ) (c : Config ι (Store ι) (Pc ι)) (t : ι) (l : ℕ)
    (c' : Config ι (Store ι) (Pc ι)) : Prop :=
  ∃ ch offset s', c.pcs t = some (.register offset) ∧
    exec ids adaptive t ch c.shared (.register offset) = some (s', .goto (.add l)) ∧
    c' = c.put t (s', (.goto (.add l) : Outcome (Pc ι) Ret))

theorem registers_placed (hc : Reach (coord ids adaptive) ok init c) {t : ι} {l : ℕ}
    (h : Registers ids adaptive c t l c') : Placed ids t c'.shared l := by
  obtain ⟨ch, offset, s', hpc, he, rfl⟩ := h
  obtain ⟨hs, hlt⟩ := reach_scanning hc t _ hpc
  obtain ⟨-, ⟨m, ho, hm⟩ | ⟨ho, -⟩⟩ := exec_register hs hlt he
  · cases ho
    exact hm
  · cases ho

/-- **Registration is stable and exclusive.** Whatever happens between two registrations: the same
thread gets the same lane, the common one included, and two threads do not get the same lane below
the common one. -/
theorem registration_stable {t u : ι} {l m : ℕ} {c₀ c₁ c₂ c₃ : Config ι (Store ι) (Pc ι)}
    (hc : Reach (coord ids adaptive) Always init c₀) (h : Registers ids adaptive c₀ t l c₁)
    (hrun : Reach (coord ids adaptive) Always c₁ c₂) (h' : Registers ids adaptive c₂ u m c₃) :
    (u = t → m = l) ∧ (u ≠ t → l < lanes → m ≠ l) := by
  have hnext : ∀ {d d' : Config ι (Store ι) (Pc ι)} {v : ι} {k : ℕ},
    Reach (coord ids adaptive) Always init d →
      Registers ids adaptive d v k d' → Reach (coord ids adaptive) Always d d' := by
    rintro d d' v k - ⟨ch, offset, s', hpc, he, rfl⟩
    exact Reach.refl.tail (l := .exec v ch) trivial (Object.next_exec hpc he)
  have hc₁ := hc.trans (hnext hc h)
  have hc₂ := hc₁.trans hrun
  have hplaced : Placed ids t c₃.shared l :=
    (registers_placed hc h).mono (reach_keeps hc₁ (hrun.trans (hnext hc₂ h')))
  have hplaced' : Placed ids u c₃.shared m := registers_placed hc₂ h'
  refine ⟨?_, fun hut hl hml ↦ ?_⟩
  · rintro rfl
    exact hplaced.unique hplaced'
  · subst hml
    exact hut (hplaced.thread_unique hplaced' hl)

end Runs

/-- Thread `0` registers, pins, turns to another structure and registers again. -/
theorem registration_stable_evicted :
    ∃ (l m : ℕ) (c₀ c₁ c₂ c₃ : Config (Fin 2) (Store (Fin 2)) (Pc (Fin 2))),
      Reach (coord twoIds 4) Always init c₀ ∧ Registers twoIds 4 c₀ 0 l c₁ ∧
      Reach (coord twoIds 4) Always c₁ c₂ ∧ Registers twoIds 4 c₂ 0 m c₃ ∧ m = l := by
  have hlane : laneAt twoIds 0 0 = 1 := rfl
  have hid : twoIds.lane 0 = 1 := rfl
  have hstart : Reach (coord twoIds 4) Always init
      (init.put 0 (.new, (.goto (.register 0) : Outcome (Pc (Fin 2)) Ret))) :=
    Reach.refl.tail (l := .call 0 .shared) trivial rfl
  -- the first scan claims the lane
  have hfirst : Registers twoIds 4
      (init.put 0 (.new, (.goto (.register 0) : Outcome (Pc (Fin 2)) Ret))) 0 1 _ :=
    ⟨.go, 0, _, rfl, rfl, rfl⟩
  obtain ⟨c₂, hrun, ht⟩ := Reach.exists_of_replay (coord twoIds 4) Always
    (Config.put (init.put 0 (.new, (.goto (.register 0) : Outcome (Pc (Fin 2)) Ret))) 0
      ({ (Store.new : Store (Fin 2)) with owners := Function.update (fun _ ↦ 0) 1 1 }.remember 0 1,
        (.goto (.add 1) : Outcome (Pc (Fin 2)) Ret)))
    [.exec 0 .go, .exec 0 .go, .call 0 .evict, .call 0 .shared]
    (fun c ↦ decide (c.pcs 0 = some (.register 0) ∧ c.shared.owners 1 = 1)) (by decide)
  obtain ⟨hpc, hown⟩ := of_decide_eq_true ht
  -- the second one finds it
  have hsecond : exec twoIds 4 0 .go c₂.shared (.register 0) =
      some (c₂.shared.remember 0 1, .goto (.add 1)) := by
    simp only [exec, hlane, hid, hown, cas, Nat.one_ne_zero, if_false, if_true]
  have hagain : Registers twoIds 4 c₂ 0 1 _ := ⟨.go, 0, _, hpc, hsecond, rfl⟩
  exact ⟨1, 1, _, _, c₂, _, hstart, hfirst, hrun, hagain,
    (registration_stable hstart hfirst hrun hagain).1 rfl⟩

end Coord

end Crossync
