import Crossync.Core.CoordGuards
import Crossync.Atomic.Vec

/-!
# The coordination of `AtomicVec`

The accesses a queue makes to its `Coord` are a run of the `Coord`, so the exclusion of pins and
exclusive sections holds inside the queue: a thread that has loaded a word of `head` or `tail` is
pinned until it has made its last access to a block, and a thread in the loop of `reclaim_retired`
holds the exclusive guard. While somebody is in that loop, nobody else is in it and nobody is pinned
(`inside_alone`).

A pop that reclaims has its value in hand while it waits for the exclusive guard; it has no
exclusive guard yet, so the lock does not panic and the value is not lost (`enter_not_panicked`).

## What the pin is for

A pop that was delayed may load from a block after everybody else is done with it. It does so
pinned, and the reclamation frees and reuses blocks with the exclusive guard, which it gets when
nobody is pinned. `Coordinated` has both halves in the terms of the queue's program points.
-/

open Interleave

namespace Crossync

namespace AtomicVec

variable {ι α : Type*} [DecidableEq ι] {ids : Coord.ThreadIds ι} {adaptive : ℕ}

/-- The program point of the coordination inside a program point. -/
def coordPc : Pc ι α → Option (Coord.Pc ι)
  | .pushPin _ p | .pushUnpin p | .popPin p | .popUnpin _ _ p | .reclaim _ (.enter p)
  | .reclaim _ (.leave p) => some p
  | _ => none

/-- The lane of the pin that a push or a pop has while it may access blocks. -/
def pinned : Pc ι α → Option ℕ
  | .pushTail _ lane | .pushBlock _ lane _ | .popHead lane | .popBlock lane _ => some lane
  | .push f _ => some f.lane
  | .pop f _ => some f.lane
  | _ => none

/-- The thread is inside the exclusive section. -/
def inside : Pc ι α → Bool
  | .reclaim _ .count | .reclaim _ (.enter _) => false
  | .reclaim _ (.leave (.dropExclusive _)) => true
  | .reclaim _ (.leave _) => false
  | .reclaim _ _ => true
  | _ => false

/-- A thread outside all calls is not inside. -/
def insideAt (q : Option (Pc ι α)) : Bool := q.elim false inside

/-- Where a thread stands with the coordination. -/
def Stage (t : ι) (s : Coord.Store ι) : Pc ι α → Prop
  | .pushPin _ p | .popPin p => Coord.Sharing p
  | .pushUnpin p | .popUnpin _ _ p => Coord.Dropping p
  | .reclaim _ (.enter p) => Coord.Entering t p
  | .reclaim _ (.leave p) => Coord.Leaving t p
  | p => ∀ lane, pinned p = some lane → 0 < s.pins t lane

omit [DecidableEq ι] in
theorem Stage.pin {t : ι} {s : Coord.Store ι} {p : Pc ι α} {lane : ℕ} (h : Stage t s p)
    (hp : pinned p = some lane) : 0 < s.pins t lane := by
  cases p with
  | pushTail | pushBlock | push | popHead | popBlock | pop => exact h lane hp
  | _ => cases hp

omit [DecidableEq ι] in
theorem Stage.of_pins {t : ι} {s : Coord.Store ι} {p : Pc ι α} (hp : coordPc p = none)
    (h : ∀ lane, pinned p = some lane → 0 < s.pins t lane) : Stage t s p := by
  cases p with
  | reclaim r pt => cases pt <;> first | exact h | cases hp
  | pushPin | pushUnpin | popPin | popUnpin => cases hp
  | _ => exact h

omit [DecidableEq ι] in
/-- Only the pins of the thread itself matter. -/
theorem Stage.mono {t : ι} {s s' : Coord.Store ι} {p : Pc ι α} (h : Stage t s p)
    (hs : s'.pins t = s.pins t) : Stage t s' p := by
  cases p with
  | reclaim r pt => cases pt <;> first | exact h | exact fun _ hl ↦ by cases hl
  | pushPin | pushUnpin | popPin | popUnpin => exact h
  | _ => exact fun lane hl ↦ hs ▸ h lane hl

/-- **The queue keeps to the protocol of its coordination**: what it does there is a run, the pins
and the exclusive guards are those its program points say. -/
structure Coordinated (ids : Coord.ThreadIds ι) (adaptive : ℕ)
    (c : Config ι (Store ι α) (Pc ι α)) : Prop where
  run : Reach (Coord.coord ids adaptive) Always Coord.init (c.view Store.coordLock coordPc)
  stage : ∀ t p, c.pcs t = some p → Stage t c.shared.coordLock p
  exclusives : ∀ a h, c.shared.coordLock.exclusives a h =
    if a = h ∧ insideAt (c.pcs h) = true then 1 else 0

/-! ### Steps outside the coordination

These leave the coordinator's store alone and do not change what their thread has there. -/

/-- How a step outside the coordination may go on: outside it with the same pin, or by starting to
drop the pin, by starting an exclusive section, or by starting to leave it. -/
def Follows (t : ι) (p q : Pc ι α) : Prop :=
  (coordPc q = none ∧ (pinned q = pinned p ∨ pinned q = none)) ∨
  (∃ lane, pinned p = some lane ∧
    (q = .pushUnpin (Coord.dropPc lane) ∨ ∃ res b, q = .popUnpin res b (Coord.dropPc lane))) ∨
  (∃ r, q = .reclaim r (.enter (.locking (.lockFast false))) ∨
    q = .reclaim r (.enter (.trying .tryWriteGuard))) ∨
  (inside p = true ∧ ∃ r, q = .reclaim r (.leave (.dropExclusive t)))

/-- What a step outside the coordination does to it: nothing. -/
structure Apart (t : ι) (s s' : Store ι α) (p : Pc ι α) (o : Outcome (Pc ι α) (Ret α)) : Prop where
  lock : s'.coordLock = s.coordLock
  inside : insideAt o.pc = inside p
  follows : ∀ q, o.pc = some q → Follows t p q

section Apart

variable {t : ι} {ch : Choice ι} {s s' : Store ι α} {p : Pc ι α} {o : Outcome (Pc ι α) (Ret α)}

omit [DecidableEq ι] in
theorem Apart.goto {q : Pc ι α} (hs : s'.coordLock = s.coordLock) (hin : AtomicVec.inside q =
    AtomicVec.inside p) (hq : Follows t p q) : Apart t s s' p (.goto q) :=
  ⟨hs, hin, by rintro _ ⟨⟩; exact hq⟩

omit [DecidableEq ι] in
theorem apart_reclaimLoop {r : Ret α} {block : ℕ} (hs : s'.coordLock = s.coordLock)
    (hp : AtomicVec.inside p = true) : Apart t s s' p (.goto (reclaimLoop t r block)) := by
  unfold reclaimLoop
  split_ifs
  · exact .goto hs hp.symm (Or.inr (Or.inr (Or.inr ⟨hp, r, rfl⟩)))
  · exact .goto hs hp.symm (Or.inl ⟨rfl, Or.inr rfl⟩)

omit [DecidableEq ι] in
theorem execPush_apart {f : PushFrame α} {pt : PushPoint}
    (h : execPush t ch s f pt = some (s', o)) : Apart t s s' (.push f pt) o := by
  cases pt with
  | publish =>
    cases h
    exact .goto rfl rfl (Or.inr (Or.inl ⟨f.lane, rfl, Or.inl rfl⟩))
  | _ =>
    simp only [execPush] at h
    repeat' split at h
    all_goals cases h
    all_goals exact .goto rfl rfl (Or.inl ⟨rfl, Or.inl rfl⟩)

omit [DecidableEq ι] in
theorem execPop_apart {f : PopFrame} {pt : PopPoint α} (h : execPop ch s f pt = some (s', o)) :
    Apart t s s' (.pop f pt) o := by
  cases pt with
  | retireCount v =>
    cases h
    exact .goto rfl rfl (Or.inr (Or.inl ⟨f.lane, rfl, Or.inr ⟨_, _, rfl⟩⟩))
  | count v =>
    cases h
    split_ifs
    · exact .goto rfl rfl (Or.inl ⟨rfl, Or.inl rfl⟩)
    · exact .goto rfl rfl (Or.inr (Or.inl ⟨f.lane, rfl, Or.inr ⟨_, _, rfl⟩⟩))
  | tail =>
    simp only [execPop] at h
    split_ifs at h
    · cases h
      exact .goto rfl rfl (Or.inr (Or.inl ⟨f.lane, rfl, Or.inr ⟨_, _, rfl⟩⟩))
    · cases h
      exact .goto rfl rfl (Or.inl ⟨rfl, Or.inl rfl⟩)
    · cases h
      exact .goto rfl rfl (Or.inl ⟨rfl, Or.inl rfl⟩)
  | _ =>
    simp only [execPop] at h
    repeat' split at h
    all_goals cases h
    all_goals exact .goto rfl rfl (Or.inl ⟨rfl, Or.inl rfl⟩)

omit [DecidableEq ι] in
/-- A call that returns. -/
theorem finish_apart {r : Ret α} (hin : AtomicVec.inside p = false) (h : finish s r = (s', o)) :
    Apart t s s' p o := by
  unfold finish at h
  split at h
  all_goals cases h
  all_goals exact ⟨rfl, hin.symm, by simp⟩

theorem execReclaim_apart {r : Ret α} {pt : ReclaimPoint ι}
    (hp : coordPc (.reclaim r pt : Pc ι α) = none)
    (h : execReclaim ids adaptive t ch s r pt = some (s', o)) : Apart t s s' (.reclaim r pt) o := by
  cases pt with
  | count =>
    simp only [execReclaim] at h
    split_ifs at h
    · exact finish_apart rfl (Option.some.inj h)
    · cases h
      exact .goto rfl rfl (Or.inr (Or.inr (Or.inl ⟨r, Or.inl rfl⟩)))
    · cases h
      exact .goto rfl rfl (Or.inr (Or.inr (Or.inl ⟨r, Or.inr rfl⟩)))
  | enter p | leave p => cases hp
  | zero block | free block next =>
    cases h
    exact apart_reclaimLoop rfl rfl
  | resetSlot block next i =>
    cases h
    split_ifs
    all_goals exact .goto rfl rfl (Or.inl ⟨rfl, Or.inl rfl⟩)
  | poolPush block next p =>
    simp only [execReclaim] at h
    split at h
    all_goals cases h
    · exact .goto rfl rfl (Or.inl ⟨rfl, Or.inl rfl⟩)
    · exact apart_reclaimLoop rfl rfl
    · exact .goto rfl rfl (Or.inl ⟨rfl, Or.inl rfl⟩)
  | _ =>
    simp only [execReclaim] at h
    repeat' split at h
    all_goals cases h
    all_goals exact .goto rfl rfl (Or.inl ⟨rfl, Or.inl rfl⟩)

theorem exec_apart (hp : coordPc p = none) (h : exec ids adaptive t ch s p = some (s', o)) :
    Apart t s s' p o := by
  cases p with
  | pushPin | pushUnpin | popPin | popUnpin => cases hp
  | push f pt => exact execPush_apart h
  | pop f pt => exact execPop_apart h
  | reclaim r pt => exact execReclaim_apart hp h
  | pushBlock v lane tail =>
    cases h
    unfold pushLoop
    split_ifs
    all_goals exact .goto rfl rfl (Or.inl ⟨rfl, Or.inl rfl⟩)
  | popBlock lane head =>
    cases h
    unfold popLoop
    split_ifs
    all_goals exact .goto rfl rfl (Or.inl ⟨rfl, Or.inl rfl⟩)
  | pushTail | popHead | lenHead =>
    cases h
    exact .goto rfl rfl (Or.inl ⟨rfl, Or.inl rfl⟩)
  | lenTail =>
    cases h
    exact ⟨rfl, rfl, by simp⟩

end Apart

/-! ### Runs

The view of the coordinator, and the guards that the queue's program points have. -/

section Runs

variable {ok : Config ι (Store ι α) (Pc ι α) → Label ι (Op α) → Prop}
  {c : Config ι (Store ι α) (Pc ι α)} {t : ι} {ch : Choice ι} {s' : Store ι α} {p : Pc ι α}
  {o : Outcome (Pc ι α) (Ret α)}

/-- The exclusive guards after a step that leaves them alone. -/
theorem Coordinated.exclusives_put (h : Coordinated ids adaptive c)
    (hx : s'.coordLock.exclusives = c.shared.coordLock.exclusives)
    (hin : insideAt o.pc = insideAt (c.pcs t)) (a k : ι) :
    s'.coordLock.exclusives a k =
      if a = k ∧ insideAt ((c.put t (s', o)).pcs k) = true then 1 else 0 := by
  rw [hx, h.exclusives a k]
  by_cases hk : k = t
  · subst hk
    rw [Config.put_pcs_self, hin]
  · rw [Config.put_pcs_of_ne _ _ hk]

/-- A step outside the coordination. -/
theorem Coordinated.put_apart (h : Coordinated ids adaptive c) (hpc : c.pcs t = some p)
    (hp : coordPc p = none) (ha : Apart t c.shared s' p o) :
    Coordinated ids adaptive (c.put t (s', o)) := by
  have hlock : s'.coordLock = c.shared.coordLock := ha.lock
  have hnone : (c.pcs t).bind coordPc = none := by rw [hpc]; exact hp
  have hstage := h.stage t p hpc
  refine ⟨?_, ?_, h.exclusives_put (congrArg Coord.Store.exclusives hlock)
    (by rw [ha.inside, hpc]; rfl)⟩
  · -- the component sees nothing, or the start of a call that the caller may make
    cases ho : o.pc with
    | none => exact h.run.view_same hlock (by rw [hnone]; simp [ho])
    | some q =>
      rcases ha.follows q ho with ⟨hq, -⟩ | ⟨lane, hl, hq⟩ | ⟨r, hq⟩ | ⟨hin, r, rfl⟩
      · exact h.run.view_same hlock (by rw [hnone]; simp [ho, hq])
      · refine h.run.view_call (.dropShared lane) (o := .goto (Coord.dropPc lane)) trivial
          hnone ?_ ?_
        · rw [hlock]
          exact if_pos (hstage.pin hl)
        · rcases hq with rfl | ⟨res, b, rfl⟩ <;> simp [ho, coordPc]
      · rcases hq with rfl | rfl
        · refine h.run.view_call .exclusive (o := .goto (.locking (.lockFast false))) trivial
            hnone ?_ (by simp [ho, coordPc])
          rw [hlock]
          rfl
        · refine h.run.view_call .tryExclusive (o := .goto (.trying .tryWriteGuard)) trivial
            hnone ?_ (by simp [ho, coordPc])
          rw [hlock]
          rfl
      · refine h.run.view_call (.dropExclusive t) (o := .goto (.dropExclusive t)) trivial
          hnone ?_ (by simp [ho, coordPc])
        rw [hlock]
        refine if_pos ?_
        rw [h.exclusives t t, if_pos ⟨rfl, by rw [hpc]; exact hin⟩]
        exact Nat.one_pos
  · refine Config.forall_put (L := fun u s q ↦ Stage u s.coordLock q) ?_
      fun u q _ hq ↦ (h.stage u q hq).mono (by rw [hlock])
    intro q hq
    rcases ha.follows q hq with ⟨hnq, hl⟩ | ⟨lane, -, rfl | ⟨res, b, rfl⟩⟩ | ⟨r, rfl | rfl⟩ |
        ⟨-, r, rfl⟩
    · refine .of_pins hnq fun lane hlane ↦ ?_
      rw [hlock]
      rcases hl with hl | hl
      · exact hstage.pin (hl ▸ hlane)
      · rw [hl] at hlane
        cases hlane
    · exact Coord.dropping_dropPc lane
    · exact Coord.dropping_dropPc lane
    · exact trivial
    · exact trivial
    · exact (rfl : t = t)

/-- A step of the coordination, with the exclusive guards it leaves. -/
theorem Coordinated.put_coord (h : Coordinated ids adaptive c) (hpc : c.pcs t = some p)
    {p' : Coord.Pc ι} {o' : Outcome (Coord.Pc ι) Coord.Ret} (hp : coordPc p = some p')
    (he : Coord.exec ids adaptive t ch c.shared.coordLock p' = some (s'.coordLock, o'))
    (ho : o'.pc = o.pc.bind coordPc) (hstage : ∀ q, o.pc = some q → Stage t s'.coordLock q)
    (hx : ∀ a k, s'.coordLock.exclusives a k =
      if a = k ∧ insideAt ((c.put t (s', o)).pcs k) = true then 1 else 0) :
    Coordinated ids adaptive (c.put t (s', o)) where
  run := h.run.view_exec ch trivial hpc hp he ho
  stage := Config.forall_put (L := fun u s q ↦ Stage u s.coordLock q) hstage
    fun u q hu hq ↦ (h.stage u q hq).mono (Coord.exec_others he u hu).1
  exclusives := hx

theorem exec_coordinated [Fintype ι] (h : Coordinated ids adaptive c) (hpc : c.pcs t = some p)
    (he : exec ids adaptive t ch c.shared p = some (s', o)) :
    Coordinated ids adaptive (c.put t (s', o)) := by
  have hI := Coord.reach_inv h.run
  have hE : SerialMutex.Exact ids.owner c.shared.coordLock.writers := hI.exact
  have hstage := h.stage t p hpc
  have hknows : ∀ p', coordPc p = some p' → Coord.Knows ids t c.shared.coordLock p' :=
    fun p' hp ↦ hI.knows t p' (by simp [hpc, hp])
  cases p with
  | pushPin v q | popPin q =>
    simp only [exec] at he
    obtain ⟨l, ⟨q', hq', rfl, rfl⟩ | ⟨e, hq', hdone⟩⟩ := coordStep_cases he
    · obtain ⟨hx, ⟨_, ⟨⟩, hsh⟩ | ⟨lane, ⟨⟩, -⟩ | ⟨⟨⟩⟩⟩ := Coord.exec_sharing hstage hq'
      exact h.put_coord hpc rfl hq' rfl (by rintro _ ⟨⟩; exact hsh)
        (h.exclusives_put hx (by rw [hpc]; rfl))
    · obtain ⟨hx, ⟨_, ⟨⟩, -⟩ | ⟨lane, ⟨⟩, hpos⟩ | ⟨⟨⟩⟩⟩ := Coord.exec_sharing hstage hq'
      all_goals cases hdone
      · exact h.put_coord hpc rfl hq' rfl (by rintro _ ⟨⟩ _ ⟨⟩; exact hpos)
          (h.exclusives_put hx (by rw [hpc]; rfl))
      · exact h.put_coord hpc rfl hq' rfl (by simp) (h.exclusives_put hx (by rw [hpc]; rfl))
  | pushUnpin q =>
    simp only [exec] at he
    obtain ⟨l, ⟨q', hq', rfl, rfl⟩ | ⟨e, hq', hdone⟩⟩ := coordStep_cases he
    · obtain ⟨hx, ⟨_, ⟨⟩, hdr⟩ | ⟨⟨⟩⟩⟩ := Coord.exec_dropping hstage hq'
      exact h.put_coord hpc rfl hq' rfl (by rintro _ ⟨⟩; exact hdr)
        (h.exclusives_put hx (by rw [hpc]; rfl))
    · obtain ⟨hx, -⟩ := Coord.exec_dropping hstage hq'
      cases hdone
      exact h.put_coord hpc rfl hq' rfl (by simp) (h.exclusives_put hx (by rw [hpc]; rfl))
  | popUnpin res b q =>
    simp only [exec] at he
    obtain ⟨l, ⟨q', hq', rfl, rfl⟩ | ⟨e, hq', hdone⟩⟩ := coordStep_cases he
    · obtain ⟨hx, ⟨_, ⟨⟩, hdr⟩ | ⟨⟨⟩⟩⟩ := Coord.exec_dropping hstage hq'
      exact h.put_coord hpc rfl hq' rfl (by rintro _ ⟨⟩; exact hdr)
        (h.exclusives_put hx (by rw [hpc]; rfl))
    · obtain ⟨hx, -⟩ := Coord.exec_dropping hstage hq'
      split_ifs at hdone with hb
      · cases hdone
        exact h.put_coord hpc rfl hq' rfl (by rintro _ ⟨⟩ _ ⟨⟩)
          (h.exclusives_put hx (by rw [hpc]; rfl))
      · unfold finish at hdone
        split at hdone
        all_goals cases hdone
        all_goals
          exact h.put_coord hpc rfl hq' rfl (by simp) (h.exclusives_put hx (by rw [hpc]; rfl))
  | reclaim r pt =>
    cases pt with
    | enter q =>
      have hk := hknows q rfl
      simp only [exec, execReclaim] at he
      obtain ⟨l, ⟨q', hq', rfl, rfl⟩ | ⟨e, hq', hdone⟩⟩ := coordStep_cases he
      · obtain ⟨hx, ⟨_, ⟨⟩, hen⟩ | ⟨⟨⟩⟩ | ⟨_, _, -, ⟨⟩⟩⟩ | ⟨-, ⟨⟩⟩ :=
          Coord.exec_entering hE hk hstage hq'
        exact h.put_coord hpc rfl hq' rfl (by rintro _ ⟨⟩; exact hen)
          (h.exclusives_put hx (by rw [hpc]; rfl))
      · obtain ⟨hx, ⟨_, ⟨⟩, -⟩ | ⟨⟨⟩⟩ | ⟨_, _, -, ⟨⟩⟩⟩ | ⟨hx, ⟨⟩⟩ :=
          Coord.exec_entering hE hk hstage hq'
        · unfold finish at hdone
          dsimp only at hdone
          split at hdone
          all_goals cases hdone
          all_goals
            exact h.put_coord hpc rfl hq' rfl (by simp) (h.exclusives_put hx (by rw [hpc]; rfl))
        · cases hdone
          exact h.put_coord hpc rfl hq' rfl (by simp) (h.exclusives_put hx (by rw [hpc]; rfl))
        · -- the exclusive guard is handed out
          cases hdone
          refine h.put_coord hpc rfl hq' rfl (by rintro _ ⟨⟩ _ ⟨⟩) fun a k ↦ ?_
          dsimp only
          rw [hx]
          by_cases hk : k = t
          · subst hk
            rw [Config.put_pcs_self, Coord.setShare_holder_self, h.exclusives, h.exclusives, hpc]
            by_cases hak : a = k <;> simp [hak, insideAt, inside]
          · rw [Config.put_pcs_of_ne _ _ hk, SerialMutex.setShare_holder_of_ne _ _ _ hk,
              h.exclusives]
    | leave q =>
      have hk := hknows q rfl
      simp only [exec, execReclaim] at he
      have hback : ∀ q', Coord.Leaving t q' → q' ≠ .dropExclusive t →
          inside (.reclaim r (.leave q') : Pc ι α) = false := by
        intro q' hq' hne
        cases q' with
        | dropExclusive a => exact absurd (congrArg Coord.Pc.dropExclusive hq') hne
        | _ => rfl
      obtain ⟨l, ⟨q', hq', rfl, rfl⟩ | ⟨e, hq', hdone⟩⟩ := coordStep_cases he
      · obtain ⟨rfl, hx, _, ⟨⟩, hlv, hne⟩ | ⟨hne, hx, ⟨_, ⟨⟩, hlv, hne'⟩ | ⟨⟨⟩⟩⟩ :=
          Coord.exec_leaving hE hk hstage hq'
        · -- the exclusive guard is taken back
          refine h.put_coord hpc rfl hq' rfl (by rintro _ ⟨⟩; exact hlv) fun a k ↦ ?_
          dsimp only
          rw [hx]
          by_cases hk : k = t
          · subst hk
            rw [Config.put_pcs_self, Coord.setShare_holder_self, h.exclusives, h.exclusives, hpc]
            have hout : insideAt (some (.reclaim r (.leave q') : Pc ι α)) = false :=
              hback q' hlv hne
            have hin : insideAt (some (.reclaim r (.leave (.dropExclusive k)) : Pc ι α)) =
              true := rfl
            by_cases hak : a = k <;> simp [hak, hout, hin]
          · rw [Config.put_pcs_of_ne _ _ hk, SerialMutex.setShare_holder_of_ne _ _ _ hk,
              h.exclusives]
        · refine h.put_coord hpc rfl hq' rfl (by rintro _ ⟨⟩; exact hlv) (h.exclusives_put hx ?_)
          rw [hpc]
          exact (hback q' hlv hne').trans (hback q hstage hne).symm
      · obtain ⟨-, -, _, ⟨⟩, -⟩ | ⟨hne, hx, -⟩ := Coord.exec_leaving hE hk hstage hq'
        have hin : insideAt (c.pcs t) = false := by
          rw [hpc]
          exact hback q hstage hne
        unfold finish at hdone
        split at hdone
        all_goals cases hdone
        all_goals exact h.put_coord hpc rfl hq' rfl (by simp) (h.exclusives_put hx hin.symm)
    | _ => exact h.put_apart hpc rfl (exec_apart rfl he)
  | _ => exact h.put_apart hpc rfl (exec_apart rfl he)

theorem reach_coordinated [Fintype ι] {first : ℕ}
    (h : Reach (atomicVec ids adaptive) ok (init first) c) :
    Coordinated ids adaptive c := by
  refine h.invariant (I := Coordinated ids adaptive) ?_ ?_ ?_
  · exact ⟨.refl, by simp [init], fun _ _ ↦ by simp [init, Store.new, Coord.Store.new, insideAt]⟩
  · rintro c t op ⟨s', o⟩ - hc - hpc he
    have hnone : (c.pcs t).bind coordPc = none := by rw [hpc]; rfl
    cases op with
    | push v | pop =>
      cases he
      refine ⟨?_, ?_, hc.exclusives_put rfl (by rw [hpc]; rfl)⟩
      · exact hc.run.view_call .shared trivial hnone rfl rfl
      · refine Config.forall_put (L := fun u s q ↦ Stage u s.coordLock q) ?_
          fun u q _ hq ↦ hc.stage u q hq
        rintro q ⟨⟩
        exact Coord.sharing_sharedPc _
    | tryReclaim | len =>
      cases he
      refine ⟨?_, ?_, hc.exclusives_put rfl (by rw [hpc]; rfl)⟩
      · exact hc.run.view_same rfl (by rw [hnone]; rfl)
      · refine Config.forall_put (L := fun u s q ↦ Stage u s.coordLock q) ?_
          fun u q _ hq ↦ hc.stage u q hq
        rintro q ⟨⟩ _ ⟨⟩
    | evict =>
      cases he
      refine ⟨?_, ?_, hc.exclusives_put rfl (by rw [hpc]; rfl)⟩
      · exact hc.run.view_call .evict (o := .ret .unit) trivial hnone rfl rfl
      · exact Config.forall_put (L := fun u s q ↦ Stage u s.coordLock q)
          (o := .ret (Ret.unit : Ret α))
          (by simp)
          fun u q _ hq ↦ (hc.stage u q hq).mono rfl
  · rintro c t ch p ⟨s', o⟩ - hc - hpc he
    exact exec_coordinated hc hpc he

/-- **A thread in the exclusive section is alone**: no other thread is in it, and no push or pop has
a pin. -/
theorem Coordinated.inside_alone [Fintype ι] (h : Coordinated ids adaptive c) {q : Pc ι α} {u : ι}
    (hpc : c.pcs t = some p) (hp : inside p = true) (hq : c.pcs u = some q) :
    (inside q = true → u = t) ∧ pinned q = none := by
  have hone : ∀ v r, c.pcs v = some r → inside r = true →
      c.shared.coordLock.exclusives v v = 1 := by
    intro v r hr hin
    rw [h.exclusives, if_pos ⟨rfl, by rw [hr]; exact hin⟩]
  have hpos : 0 < c.shared.coordLock.exclusives t t := (hone t p hpc hp).ge
  have hI := Coord.reach_inv h.run
  refine ⟨fun hin ↦ ?_, ?_⟩
  · have hu : 0 < c.shared.coordLock.exclusives u u := (hone u q hq hin).ge
    exact (hI.exact.unique_writer (hu.trans_le (hI.valid.backed u u))
      (hpos.trans_le (hI.valid.backed t t))).1
  · by_contra hne
    obtain ⟨lane, hlane⟩ := Option.ne_none_iff_exists'.1 hne
    have hpin := (h.stage u q hq).pin hlane
    have := (Coord.reach_flagged h.run).no_pin hI (t := u) (l := lane) hpos
    simp only [Config.view_shared] at this
    omega

/-- **A reclaiming call does not panic**: it has no exclusive guard when it asks for one. -/
theorem Coordinated.enter_not_panicked [Fintype ι] (h : Coordinated ids adaptive c) {r : Ret α}
    {q : Coord.Pc ι} (hpc : c.pcs t = some (.reclaim r (.enter q))) {l : Coord.Store ι}
    {e : Coord.Ret} (he : Coord.exec ids adaptive t ch c.shared.coordLock q = some (l, .ret e)) :
    e = .exclusive ∨ e = .busy := by
  have hI := Coord.reach_inv h.run
  have hview : (c.view Store.coordLock coordPc).pcs t = some q := by simp [hpc, coordPc]
  obtain ⟨-, ⟨_, ⟨⟩, -⟩ | ⟨⟨⟩⟩ | ⟨q, x, rfl, ⟨⟩⟩⟩ | ⟨-, ⟨⟩⟩ :=
    Coord.exec_entering hI.exact (hI.knows t q hview) (h.stage t _ hpc) he
  · exact Or.inr rfl
  · refine absurd he (Coord.locking_not_poisoned h.run hview ?_ ?_)
    · -- write guards in hand are the caller's own, and this caller has none
      intro u p' hp'
      obtain ⟨p, hp, hpp'⟩ := Option.bind_eq_some_iff.1 hp'
      have hst := h.stage u p hp
      by_cases hut : u = t
      · subst hut
        obtain rfl := Option.some.inj (hp'.symm.trans hview)
        rfl
      · cases p with
        | reclaim r' pt =>
          cases pt with
          | enter q' | leave q' =>
            obtain rfl := Option.some.inj hpp'
            cases q' with
            | unlocking r q' =>
              cases q' with
              | unlockWrite a =>
                obtain rfl : a = u := hst.2
                exact if_neg (Ne.symm hut)
              | _ => rfl
            | storeWriting | scan | abort => exact if_neg (Ne.symm hut)
            | _ => rfl
          | _ => cases hpp'
        | pushPin v q' | popPin q' =>
          obtain rfl := Option.some.inj hpp'
          cases q' <;> first | rfl | exact absurd hst id
        | pushUnpin q' | popUnpin _ _ q' =>
          obtain rfl := Option.some.inj hpp'
          cases q' <;> first | rfl | exact absurd hst id
        | _ => cases hpp'
    · intro u
      show c.shared.coordLock.exclusives t u = 0
      rw [h.exclusives]
      refine if_neg ?_
      rintro ⟨rfl, hin⟩
      rw [hpc] at hin
      cases hin
  · exact Or.inl rfl

end Runs

end AtomicVec

end Crossync
