import Crossync.Core.RawMutexParking
import Crossync.Core.SerialParking
import Crossync.Atomic.HashMapGuards

/-!
# Who waits for whom in a shared `AtomicHashMap`

A call sleeps at two places: on the lock of a shard, behind a `clear` that has the shard, and on the
mutex of a slot, behind whoever has the slot. `clear` itself never sleeps with a lock in its hands:
it only tries the locks, and a thread that inspects the slots holds the shard shared and no slot. So
whoever a sleeper waits for can go on, unless it is the program, which still has a guard.

For the slots this needs that `SerialMutex` loses no wakeup, for the shards that `RawMutex` loses
none; the latter holds while the recheck of a reader does not miss its flag, and no further.

## Two futexes and a `try`

Calls on a key sleep on a shard's lock or on a slot's; `clear` tries both and backs out. So nobody
sleeps on the second lock with the first one held exclusively, and there is no cycle: a call that
sleeps on a slot has a share of its shard, a call that sleeps on a shard has nothing.
-/

open Interleave Linked

namespace Crossync

namespace AtomicHashMap

namespace Shared

variable {ι K V : Type*} [DecidableEq ι]

/-! ### Roles on the futexes

For every futex of the map, whether a program point sleeps on it, is about to wake it, or neither.
-/

/-- What a thread owes or expects of the readers' futex of shard `i`. -/
def shardRole (i : ℕ) : Option (Pc ι K V) → Role
  | some (.shard p k) => if k.target = i then RawMutex.readerRole (some p) else .out
  | _ => .out

/-- What a thread owes or expects of the futex of a slot. -/
def slotRole (x : ℕ × ℕ) : Option (Pc ι K V) → Role
  | some (.slot p k) => if k.target = x then SerialMutex.role (some p) else .out
  | _ => .out

/-- No futex is concerned. -/
def Calm (q : Option (Pc ι K V)) : Prop := (∀ i, shardRole i q = .out) ∧ ∀ x, slotRole x q = .out

omit [DecidableEq ι] in
theorem calm_none : Calm (none : Option (Pc ι K V)) := ⟨fun _ ↦ rfl, fun _ ↦ rfl⟩

omit [DecidableEq ι] in
/-- No operation of a lock starts on a futex. -/
theorem Pc.Opens.calm {t : ι} {q : Pc ι K V} (h : q.Opens t) : Calm (some q) := by
  cases q with
  | shard p k =>
    refine ⟨fun i ↦ ?_, fun _ ↦ rfl⟩
    rcases h with rfl | rfl | rfl | rfl
    all_goals exact ite_self _
  | slot p k =>
    refine ⟨fun _ ↦ rfl, fun x ↦ ?_⟩
    rcases h with ⟨read, rfl⟩ | rfl | rfl
    · exact ite_self _
    · exact ite_self _
    · unfold releasePc
      split_ifs <;> exact ite_self _
  | _ => exact ⟨fun _ ↦ rfl, fun _ ↦ rfl⟩

omit [DecidableEq ι] in
theorem calm_sharing (k : After ι K V) : Calm (some (sharing k)) :=
  ⟨fun _ ↦ ite_self _, fun _ ↦ rfl⟩

omit [DecidableEq ι] in
theorem calm_leave (k : After ι K V) : Calm (some (leave k)) :=
  ⟨fun _ ↦ ite_self _, fun _ ↦ rfl⟩

omit [DecidableEq ι] in
theorem calm_own {p : Pc ι K V} (hp : p.Own) : Calm (some p) := by
  cases p with
  | shard q k | slot q k => exact hp.elim
  | _ => exact ⟨fun _ ↦ rfl, fun _ ↦ rfl⟩

variable [Fintype ι] {L : Layout} {ids : SerialMutex.OwnerIds ι} {adaptive : ℕ} {t : ι}
  {ch : Choice ι}
  {s s' : Store ι K V}

omit [Fintype ι] [DecidableEq ι] in
/-- The points a call goes on at sleep nowhere. -/
theorem Stands.calm {q : Pc ι K V} {shares seals : Option ℕ} {hands : List (Hold ι)}
    (h : Stands L t q shares seals hands) : Calm (some q) :=
  h.opens.calm

omit [Fintype ι] [DecidableEq ι] in
/-- Nor do those between two shards. -/
theorem Free.calm {o : Outcome (Pc ι K V) (Ret ι K V)} (h : Free L t o) : Calm o.pc := by
  cases o with
  | goto q => exact (h q rfl).calm
  | ret r => exact calm_none

omit [Fintype ι] in
/-- After an operation of a shard lock. -/
theorem calm_resume (s : Store ι K V) (k : After ι K V) (r : RawMutex.Ret) :
    Calm (resume L t s k r).2.pc := by
  unfold resume
  split
  · exact (stands_visit (L := L) (t := t)).calm
  · exact (free_asVecNext (L := L) (t := t) _ _).calm
  · exact (stands_lenLoad (L := L) (t := t)).calm
  · exact (free_lenNext (L := L) (t := t) _ _).calm
  · exact calm_none
  · exact calm_none
  · exact (stands_detachNext (Nat.zero_le _)).calm
  · exact calm_sharing _
  · exact (stands_inspectNext (L := L) (t := t) 0).calm
  · exact (stands_tryLock (L := L) (t := t) _).calm
  · exact calm_none
  · exact (stands_tryLock (L := L) (t := t) _).calm
  · exact (stands_dropChains (L := L) (t := t)).calm

omit [Fintype ι] [DecidableEq ι] in
/-- After an operation of a slot mutex. -/
theorem calm_resumeSlot (s : Store ι K V) {k : Next ι K V} {ph : SerialMutex.Phase ι}
    (hk : k.Expects L t ph) (r : SerialMutex.Ret) : Calm (resumeSlot L t s k r).2.pc := by
  unfold resumeSlot
  split
  · exact ⟨fun _ ↦ rfl, fun _ ↦ rfl⟩
  · exact calm_leave _
  · exact (stands_visited (t := t) _).calm
  · exact calm_leave _
  · exact calm_none
  · exact calm_none
  · exact (stands_detachNext hk.2).calm
  · exact ⟨fun _ ↦ rfl, fun _ ↦ rfl⟩
  · exact (stands_backOutNext (L := L) _).calm
  · exact (stands_releaseNext _).calm

section Keys

variable [BEq K] [Hashable K] {o : Outcome (Pc ι K V) (Ret ι K V)}

omit [Fintype ι] [DecidableEq ι] in
/-- After an access of the map's own. -/
theorem Access.calm {p : Pc ι K V} (h : Access L ids t s p s' o) : Calm o.pc := by
  cases h with
  | astray hp _ => exact calm_own hp.own
  | loadHead | pass => exact (stands_walkNext (L := L) (t := t) _ _).calm
  | hit => exact (stands_hit (L := L) (t := t) _ _).calm
  | replace | countUp | freeEntry => exact (stands_unlock (L := L) (t := t) _).calm
  | newEntry | linkEntry | unlinkLoad | unlinkHead | unlinkAfter | countDown =>
    exact ⟨fun _ ↦ rfl, fun _ ↦ rfl⟩
  | lenLoad | reentrant => exact calm_leave _
  | owned => exact (stands_backOutNext (L := L) _).calm
  | detachSwap | detachCount => exact (stands_countNext (L := L) (t := t) _ _ _ _).calm
  | detachSub => exact (stands_swapNext _ _).calm
  | inspect => exact (stands_inspectNext (t := t) _).calm
  | dropped => exact (free_clearNext (t := t) _).calm
  | dropNull | dropEntry => exact (stands_dropChains (L := L) (t := t)).calm

omit [Fintype ι] [DecidableEq ι] in
/-- The map's own accesses are made outside the calls of its locks. -/
theorem Access.own {p : Pc ι K V} (h : Access L ids t s p s' o) : p.Own := by
  cases h with
  | astray hp _ => exact hp.own
  | _ => trivial

omit [DecidableEq ι] [Fintype ι] in
/-- The map's own accesses touch no lock. -/
theorem Access.sameLocks {p : Pc ι K V} (h : Access L ids t s p s' o) : SameLocks s s' := by
  cases h <;> exact ⟨rfl, rfl, rfl⟩

/-- Where an access of a shard lock leads: on inside the operation, or to what the call does
next. -/
theorem exec_shard_next {q : RawMutex.Pc} {k : After ι K V}
    (h : exec L ids adaptive t ch s (.shard q k) = some (s', o)) :
    ∃ l e, RawMutex.exec adaptive t ch (s.shardLock k.target) q = some (l, e) ∧
      s'.shardLock = (s.setShardLock k.target l).shardLock ∧ s'.slotLock = s.slotLock ∧
      ((∃ q', e = .goto q' ∧ o.pc = some (.shard q' k)) ∨ e.pc = none ∧ Calm o.pc) := by
  simp only [exec] at h
  split at h
  · cases h
  · rename_i l q' hr
    cases h
    exact ⟨l, _, hr, rfl, rfl, Or.inl ⟨q', rfl, rfl⟩⟩
  · rename_i l e hr
    have hcalm := calm_resume (L := L) (t := t) (s.setShardLock k.target l) k e
    have hstore := resume_store (L := L) (t := t) (s.setShardLock k.target l) k e
    rw [Option.some.inj h] at hcalm hstore
    refine ⟨l, _, hr, ?_, ?_, Or.inr ⟨rfl, hcalm⟩⟩
    all_goals
      rcases hstore with rfl | ⟨g, -, rfl⟩
      · rfl
      · rfl

/-- Where an access of a slot mutex leads. -/
theorem exec_slot_next {q : SerialMutex.Pc ι} {k : Next ι K V} {ph : SerialMutex.Phase ι}
    (hk : k.Expects L t ph) (h : exec L ids adaptive t ch s (.slot q k) = some (s', o)) :
    ∃ l e, SerialMutex.exec ids adaptive t ch (s.slotLock k.target.1 k.target.2) q = some (l, e) ∧
      s' = s.setSlotLock k.target.1 k.target.2 l ∧
      ((∃ q', e = .goto q' ∧ o.pc = some (.slot q' k)) ∨ e.pc = none ∧ Calm o.pc) := by
  simp only [exec] at h
  split at h
  · cases h
  · rename_i l q' hr
    cases h
    exact ⟨l, _, hr, rfl, Or.inl ⟨q', rfl, rfl⟩⟩
  · rename_i l e hr
    have hcalm := calm_resumeSlot (s.setSlotLock k.target.1 k.target.2 l) hk e
    have hstore := resumeSlot_store (L := L) (t := t) (s.setSlotLock k.target.1 k.target.2 l) k e
    rw [Option.some.inj h] at hcalm hstore
    exact ⟨l, _, hr, hstore, Or.inr ⟨rfl, hcalm⟩⟩

/-! ### The steps on the futexes

An access of one lock plays its role on that lock's futex and none on the others. -/

/-- The shard whose lock a reader is about to recheck before it sleeps. -/
def Pc.rechecks : Pc ι K V → Option ℕ
  | .shard (.lockSharedCheck _ _) k => some k.target
  | _ => none

/-- **An access is a step of the parking pattern** on the readers' futex of every shard. -/
theorem exec_shardPark {p : Pc ι K V} (hs : Sound ids s) (hm : Mine L ids t s (some p))
    (hflag : ∀ i ∈ p.rechecks, Word.isWriterLocked (s.shardLock i).state = true →
      (s.shardLock i).state &&& Word.readersParked ≠ 0)
    (h : exec L ids adaptive t ch s p = some (s', o)) (i : ℕ) :
    Park t (s.shardLock i).readersFutex (s'.shardLock i).readersFutex
      (RawMutex.ReaderQueued (s.shardLock i))
      (RawMutex.ReaderQueued (s'.shardLock i)) (shardRole i (some p)) (shardRole i o.pc) := by
  -- an access that leaves this lock alone
  have hidle : s'.shardLock i = s.shardLock i → shardRole i (some p) = .out →
    shardRole i o.pc = .out →
      Park t (s.shardLock i).readersFutex (s'.shardLock i).readersFutex
        (RawMutex.ReaderQueued (s.shardLock i))
        (RawMutex.ReaderQueued (s'.shardLock i)) (shardRole i (some p)) (shardRole i o.pc) := by
    intro hl hr hr'
    rw [hl, hr, hr']
    exact .rest
  obtain ⟨q, k, rfl⟩ | ⟨q, k, rfl⟩ | ha := exec_cases h
  · obtain ⟨l, e, hr, hshard, -, hnext⟩ := exec_shard_next h
    have hl : s'.shardLock i = if i = k.target then l else s.shardLock i := by
      rw [hshard, shardLock_setShardLock]
    by_cases hi : k.target = i
    · subst hi
      have hrole : shardRole k.target o.pc = RawMutex.readerRole e.pc := by
        rcases hnext with ⟨q', rfl, ho⟩ | ⟨he, hcalm⟩
        · rw [ho]
          exact if_pos rfl
        · rw [he, hcalm.1]
          rfl
      have hrole' : shardRole k.target (some (.shard q k : Pc ι K V)) =
        RawMutex.readerRole (some q) := if_pos rfl
      rw [hl, if_pos rfl, hrole, hrole']
      refine RawMutex.exec_parkBehind (hs.accounts _) (hm.knows _ rfl) (hs.unparked _)
        (fun hq ↦ ?_) hr
      cases q with
      | lockSharedCheck b key => exact hflag _ rfl
      | _ => cases hq
    · refine hidle (hl.trans (if_neg (Ne.symm hi))) (if_neg hi) ?_
      rcases hnext with ⟨q', -, ho⟩ | ⟨-, hcalm⟩
      · rw [ho]
        exact if_neg hi
      · exact hcalm.1 i
  · obtain ⟨l, e, -, rfl, hnext⟩ := exec_slot_next (hm.phased _ rfl) h
    refine hidle rfl rfl ?_
    rcases hnext with ⟨q', -, ho⟩ | ⟨-, hcalm⟩
    · rw [ho]
      rfl
    · exact hcalm.1 i
  · exact hidle (congrFun ha.sameLocks.shardLock i) ((calm_own ha.own).1 i) (ha.calm.1 i)

/-- **An access is a step of the parking pattern** on the futex of every slot. -/
theorem exec_slotPark {p : Pc ι K V} (hs : Sound ids s) (hm : Mine L ids t s (some p))
    (h : exec L ids adaptive t ch s p = some (s', o)) (x : ℕ × ℕ) :
    Park t (s.slotLock x.1 x.2).wake (s'.slotLock x.1 x.2).wake
      (SerialWord.waiting (s.slotLock x.1 x.2).state = true)
      (SerialWord.waiting (s'.slotLock x.1 x.2).state = true) (slotRole x (some p))
        (slotRole x o.pc) := by
  have hidle : s'.slotLock x.1 x.2 = s.slotLock x.1 x.2 → slotRole x (some p) = .out →
    slotRole x o.pc = .out →
      Park t (s.slotLock x.1 x.2).wake (s'.slotLock x.1 x.2).wake
        (SerialWord.waiting (s.slotLock x.1 x.2).state = true)
        (SerialWord.waiting (s'.slotLock x.1 x.2).state = true) (slotRole x (some p))
          (slotRole x o.pc) := by
    intro hl hr hr'
    rw [hl, hr, hr']
    exact .rest
  obtain ⟨q, k, rfl⟩ | ⟨q, k, rfl⟩ | ha := exec_cases h
  · obtain ⟨l, e, -, -, hslot, hnext⟩ := exec_shard_next h
    refine hidle (by rw [hslot]) rfl ?_
    rcases hnext with ⟨q', -, ho⟩ | ⟨-, hcalm⟩
    · rw [ho]
      rfl
    · exact hcalm.2 x
  · obtain ⟨l, e, hr, rfl, hnext⟩ := exec_slot_next (hm.phased _ rfl) h
    by_cases hx : k.target = x
    · subst hx
      have hrole : slotRole k.target o.pc = SerialMutex.role e.pc := by
        rcases hnext with ⟨q', rfl, ho⟩ | ⟨he, hcalm⟩
        · rw [ho]
          exact if_pos rfl
        · rw [he, hcalm.2]
          rfl
      have hrole' : slotRole k.target (some (.slot q k : Pc ι K V)) = SerialMutex.role (some q) :=
        if_pos rfl
      rw [slotLock_setSlotLock, if_pos ⟨rfl, rfl⟩, hrole, hrole']
      exact SerialMutex.exec_park (hs.exact _ _) (hm.knows _ rfl) hr
    · refine hidle ?_ (if_neg hx) ?_
      · rw [slotLock_setSlotLock, if_neg fun hij ↦ hx (Prod.ext hij.1.symm hij.2.symm)]
      · rcases hnext with ⟨q', -, ho⟩ | ⟨-, hcalm⟩
        · rw [ho]
          exact if_neg hx
        · exact hcalm.2 x
  · exact hidle (by rw [ha.sameLocks.slotLock]) ((calm_own ha.own).2 x) (ha.calm.2 x)

omit [BEq K] in
/-- The start of a call leaves the futexes alone. -/
theorem enter_calm (ids : SerialMutex.OwnerIds ι) {op : Op ι K V}
    (h : enter L t op s = some (s', o)) :
    Calm o.pc ∧ s'.shardLock = s.shardLock ∧ ∀ i j, (s'.slotLock i j).state =
      (s.slotLock i j).state ∧
      (s'.slotLock i j).wake = (s.slotLock i j).wake := by
  cases op with
  | insert key value | get key | getMut key | remove key | containsKey key =>
    cases h
    exact ⟨calm_sharing _, rfl, fun _ _ ↦ ⟨rfl, rfl⟩⟩
  | clear =>
    cases h
    exact ⟨(free_clearNext (L := L) (t := t) 0).calm, rfl, fun _ _ ↦ ⟨rfl, rfl⟩⟩
  | len =>
    cases h
    exact ⟨(free_lenNext (L := L) (t := t) 0 0).calm, rfl, fun _ _ ↦ ⟨rfl, rfl⟩⟩
  | asVec =>
    cases h
    exact ⟨(free_asVecNext (L := L) (t := t) 0 []).calm, rfl, fun _ _ ↦ ⟨rfl, rfl⟩⟩
  | deref g | write g v =>
    simp only [enter] at h
    split_ifs at h
    split at h <;> cases h <;> exact ⟨calm_none, rfl, fun _ _ ↦ ⟨rfl, rfl⟩⟩
  | dropGuard g =>
    simp only [enter] at h
    split_ifs at h
    cases h
    have hopens : Pc.Opens t
        (.slot (releasePc g.hold.read g.hold.acquirer) (.dropped g) : Pc ι K V) :=
      Or.inr (Or.inr rfl)
    exact ⟨hopens.calm, rfl, fun _ _ ↦ ⟨rfl, rfl⟩⟩
  | sendGuard g u =>
    simp only [enter] at h
    split_ifs at h
    obtain ⟨s₁, hsend, hs₁⟩ := Option.map_eq_some_iff.1 h
    cases hs₁
    unfold send at hsend
    split at hsend
    · cases hsend
    · rename_i l e hr
      cases hsend
      obtain ⟨hstate, hwake, -⟩ := SerialMutex.enter_spec ids hr
      refine ⟨calm_none, rfl, fun i j ↦ ?_⟩
      rw [slotLock_setSlotLock]
      split_ifs with hij
      · rw [hij.1, hij.2]
        exact ⟨hstate, hwake⟩
      · exact ⟨rfl, rfl⟩

/-! ### Runs

The parking invariants of all futexes of the map along a run. -/

/-- The condition under which readers are safe behind a `clear`: the recheck of a reader that is
about to sleep does not find a writer and the readers-parked flag gone. -/
def FlagsSurvive (c : Config ι (Store ι K V) (Pc ι K V)) : Label ι (Op ι K V) → Prop
  | .call _ _ => True
  | .exec t _ => ∀ i ∈ (c.pcs t).bind Pc.rechecks,
    Word.isWriterLocked (c.shared.shardLock i).state = true →
      (c.shared.shardLock i).state &&& Word.readersParked ≠ 0

instance (c : Config ι (Store ι K V) (Pc ι K V)) (l : Label ι (Op ι K V)) :
    Decidable (FlagsSurvive c l) :=
  match l with
  | .call _ _ => isTrue trivial
  | .exec _ _ => inferInstanceAs (Decidable (∀ _ ∈ _, _ → _))

/-- The parking invariants of all locks. -/
structure Parked (c : Config ι (Store ι K V) (Pc ι K V)) : Prop where
  shard : ∀ i, Lot (c.shared.shardLock i).readersFutex
    (RawMutex.ReaderQueued (c.shared.shardLock i))
    fun t ↦ shardRole i (c.pcs t)
  slot : ∀ x : ℕ × ℕ, Lot (c.shared.slotLock x.1 x.2).wake
    (SerialWord.waiting (c.shared.slotLock x.1 x.2).state = true) fun t ↦ slotRole x (c.pcs t)

variable {c : Config ι (Store ι K V) (Pc ι K V)}

/-- **No lock loses a wakeup** while the flags survive. -/
theorem reach_parked (h : Reach (atomicHashMap L ids adaptive) FlagsSurvive init c) : Parked c := by
  refine h.invariant (I := Parked) ⟨fun _ ↦ Lot.new 0 _, fun _ ↦ Lot.new 0 _⟩ ?_ ?_
  · rintro c t op ⟨s', o⟩ - hp - hpc he
    obtain ⟨hcalm, hshard, hslot⟩ := enter_calm ids he
    refine ⟨fun i ↦ ?_, fun x ↦ ?_⟩
    · rw [Config.comp_put_pcs, hcalm.1 i]
      refine (hp.shard i).step ?_
      rw [hpc, Config.put_shared, hshard]
      exact .rest
    · rw [Config.comp_put_pcs, hcalm.2 x]
      refine (hp.slot x).step ?_
      rw [hpc, Config.put_shared, (hslot x.1 x.2).1, (hslot x.1 x.2).2]
      exact .rest
  · rintro c t ch p ⟨s', o⟩ hc hp hok hpc he
    have hL := reach_locks hc
    have hm : Mine L ids t c.shared (some p) := hpc ▸ hL.mine t
    have hflag : ∀ i ∈ p.rechecks, Word.isWriterLocked (c.shared.shardLock i).state = true →
        (c.shared.shardLock i).state &&& Word.readersParked ≠ 0 := fun i hi ↦
      hok i (by rw [hpc]; exact hi)
    refine ⟨fun i ↦ ?_, fun x ↦ ?_⟩
    · rw [Config.comp_put_pcs]
      refine (hp.shard i).step ?_
      rw [hpc]
      exact exec_shardPark hL.sound hm hflag he i
    · rw [Config.comp_put_pcs]
      refine (hp.slot x).step ?_
      rw [hpc]
      exact exec_slotPark hL.sound hm he x

/-! ### Addresses

Slots beyond the capacity have no sleepers, so a stuck configuration waits at a slot that exists. -/

/-- The heap is finite: an allocation can always be served. -/
def Bounded (s : Store ι K V) : Prop := ∃ n, ∀ a, n ≤ a → s.heap a = none

omit [DecidableEq ι] [Fintype ι] [BEq K] [Hashable K] in
/-- A store of an entry touches no lock, so the addresses stay apart. -/
theorem Bounded.setEntry (h : Bounded s) (a : ℕ) (e : Option (Entry K V)) :
    Bounded (s.setEntry a e) := by
  obtain ⟨n, hn⟩ := h
  exact ⟨max n (a + 1), fun b hb ↦ (setEntry_of_ne s e (by omega)).trans (hn b (by omega))⟩

/-- Every access touches the futexes of existing slots only. -/
theorem exec_bounded {p : Pc ι K V} (hb : Bounded s)
    (h : exec L ids adaptive t ch s p = some (s', o)) :
    Bounded s' := by
  obtain ⟨q, k, rfl⟩ | ⟨q, k, rfl⟩ | ha := exec_cases h
  · obtain ⟨l, rfl | ⟨g, -, rfl⟩⟩ := exec_shard_store h
    · exact hb
    · exact hb
  · obtain ⟨l, e, -, rfl⟩ := exec_slot_store h
    exact hb
  · cases ha with
    | replace | newEntry | unlinkAfter | freeEntry | dropEntry => exact hb.setEntry _ _
    | _ => exact hb

omit [Fintype ι] [BEq K] in
/-- The start of a call touches no futex. -/
theorem enter_bounded {op : Op ι K V} (hb : Bounded s) (h : enter L t op s = some (s', o)) :
    Bounded s' := by
  cases op with
  | deref g | write g v =>
    simp only [enter] at h
    split_ifs at h
    split at h <;> cases h
    · first
        | exact hb
        | exact hb.setEntry _ _
    · exact hb
  | dropGuard g =>
    simp only [enter] at h
    split_ifs at h
    cases h
    exact hb
  | sendGuard g u =>
    simp only [enter] at h
    split_ifs at h
    obtain ⟨s₁, hsend, hs₁⟩ := Option.map_eq_some_iff.1 h
    cases hs₁
    unfold send at hsend
    split at hsend <;> cases hsend
    exact hb
  | _ =>
    cases h
    exact hb

/-- Along every run only the futexes of existing slots are in use. -/
theorem reach_bounded {ok : Config ι (Store ι K V) (Pc ι K V) → Label ι (Op ι K V) → Prop}
    (h : Reach (atomicHashMap L ids adaptive) ok init c) : Bounded c.shared := by
  refine h.invariant (I := fun c ↦ Bounded c.shared) ⟨0, fun _ _ ↦ rfl⟩ ?_ ?_
  · rintro c t op ⟨s', o⟩ - hb - - he
    exact enter_bounded hb he
  · rintro c t ch p ⟨s', o⟩ - hb - - he
    exact exec_bounded hb he

/-! ### Sleepers

Whom a sleeper waits for, and why that thread can go on. -/

/-- The thread sleeps, on the lock of a shard or on the mutex of a slot. -/
def Sleeps (t : ι) (s : Store ι K V) : Pc ι K V → Prop
  | .shard q k => (∃ b, q = .lockSharedParked b) ∧ t ∈ (s.shardLock k.target).readersFutex.waiters
  | .slot q k => (∃ read b, q = .slowParked read b) ∧
    t ∈ (s.slotLock k.target.1 k.target.2).wake.waiters
  | _ => False

/-- **Only a sleeper waits.** -/
theorem sleeps_of_stuck {p : Pc ι K V} (hb : Bounded s) (hm : Mine L ids t s (some p))
    (h : ∀ ch, ch ≠ .spurious → exec L ids adaptive t ch s p = none) : Sleeps t s p := by
  have hgo := h .go (by simp)
  cases p with
  | shard q k =>
    simp only [exec] at hgo
    split at hgo
    · rename_i hr
      exact RawMutex.exec_eq_none (After.Expects.ne_other (hm.phased _ rfl)) hr
    · cases hgo
    · cases hgo
  | slot q k =>
    simp only [exec] at hgo
    split at hgo
    · rename_i hr
      exact SerialMutex.exec_eq_none hr
    · cases hgo
    · cases hgo
  | newEntry v key value =>
    obtain ⟨n, hn⟩ := hb
    have haddr := h (.addr (n + 1)) (by simp)
    simp [exec, hn (n + 1) (by omega)] at haddr
  | walk | replace | unlinkLoad | countDown | freeEntry | detachCount =>
    simp only [exec] at hgo
    split at hgo
    · cases hgo
    · first
        | cases hgo
        | split_ifs at hgo
  | unlinkStore =>
    simp only [exec] at hgo
    split_ifs at hgo
    split at hgo <;> cases hgo
  | inspect =>
    simp only [exec] at hgo
    split_ifs at hgo
  | dropChains i chains =>
    cases chains with
    | nil => cases hgo
    | cons cur chains =>
      simp only [exec] at hgo
      split_ifs at hgo
      split at hgo <;> cases hgo
  | _ => cases hgo

/-- It waits until it is woken. -/
theorem Sleeps.stuck {p : Pc ι K V} (h : Sleeps t s p) (hch : ch ≠ .spurious) :
    exec L ids adaptive t ch s p = none := by
  have hresume : ∀ f : Futex ι ℕ, t ∈ f.waiters → f.resume t ch = none := by
    intro f hf
    cases ch with
    | spurious => exact absurd rfl hch
    | _ => exact if_pos hf
  cases p with
  | shard q k =>
    obtain ⟨⟨b, rfl⟩, hw⟩ := h
    simp only [exec, RawMutex.exec, hresume _ hw]
  | slot q k =>
    obtain ⟨⟨read, b, rfl⟩, hw⟩ := h
    simp only [exec, SerialMutex.exec, hresume _ hw]
  | _ => exact h.elim

omit [DecidableEq ι] [Fintype ι] [BEq K] [Hashable K] in
/-- A thread in the role of a sleeper, and among the sleepers. -/
theorem Sleeps.of_shardRole {q : Option (Pc ι K V)} {i : ℕ} (hr : shardRole i q = .asleep)
    (hw : t ∈ (s.shardLock i).readersFutex.waiters) : ∃ p, q = some p ∧ Sleeps t s p := by
  unfold shardRole at hr
  split at hr
  · rename_i p k
    split_ifs at hr with hi
    subst hi
    refine ⟨_, rfl, ?_, hw⟩
    cases p with
    | lockSharedParked b => exact ⟨b, rfl⟩
    | _ => cases hr
  · cases hr

omit [DecidableEq ι] [Fintype ι] [BEq K] [Hashable K] in
/-- A thread that a slot's futex knows as asleep is asleep in the map. -/
theorem Sleeps.of_slotRole {q : Option (Pc ι K V)} {x : ℕ × ℕ} (hr : slotRole x q = .asleep)
    (hw : t ∈ (s.slotLock x.1 x.2).wake.waiters) : ∃ p, q = some p ∧ Sleeps t s p := by
  unfold slotRole at hr
  split at hr
  · rename_i p k
    split_ifs at hr with hx
    subst hx
    refine ⟨_, rfl, ?_, hw⟩
    cases p with
    | slowParked read b => exact ⟨read, b, rfl⟩
    | _ => cases hr
  · cases hr

omit [DecidableEq ι] [Fintype ι] [BEq K] [Hashable K] in
/-- A sleeper owes no futex anything. -/
theorem Sleeps.role {q : Pc ι K V} (h : Sleeps t s q) :
    (∀ i, shardRole i (some q) = .out ∨ shardRole i (some q) = .asleep) ∧
      ∀ x, slotRole x (some q) = .out ∨ slotRole x (some q) = .asleep := by
  cases q with
  | shard q k =>
    obtain ⟨⟨b, rfl⟩, -⟩ := h
    refine ⟨fun i ↦ ?_, fun _ ↦ Or.inl rfl⟩
    by_cases hi : k.target = i
    · exact Or.inr (if_pos hi)
    · exact Or.inl (if_neg hi)
  | slot q k =>
    obtain ⟨⟨read, b, rfl⟩, -⟩ := h
    refine ⟨fun _ ↦ Or.inl rfl, fun x ↦ ?_⟩
    by_cases hx : k.target = x
    · exact Or.inr (if_pos hx)
    · exact Or.inl (if_neg hx)
  | _ => exact h.elim

omit [BEq K] [Hashable K] in
/-- Whoever has a shard exclusively is awake. -/
theorem Sleeps.sealed {q : Pc ι K V} (h : Sleeps t s q) (hm : Mine L ids t s (some q)) (i : ℕ) :
    q.sealed i = 0 := by
  cases q with
  | shard q k =>
    obtain ⟨⟨b, rfl⟩, -⟩ := h
    exact ite_self 0
  | slot q k =>
    obtain ⟨⟨read, b, rfl⟩, -⟩ := h
    have hexp : k.Expects L t (.acquire read) := hm.phased _ rfl
    cases k <;> simp [Next.Expects] at hexp
    rfl
  | _ => exact h.elim

omit [BEq K] [Hashable K] in
/-- Whoever has a slot inside a call is awake. -/
theorem Sleeps.hands {q : Pc ι K V} (h : Sleeps t s q) (hm : Mine L ids t s (some q)) :
    q.hands L t = [] := by
  cases q with
  | shard q k =>
    obtain ⟨⟨b, rfl⟩, -⟩ := h
    have hexp : k.Expects .acquire := hm.phased _ rfl
    cases k <;> simp [After.Expects] at hexp <;> rfl
  | slot q k =>
    obtain ⟨⟨read, b, rfl⟩, -⟩ := h
    have hexp : k.Expects L t (.acquire read) := hm.phased _ rfl
    cases k <;> simp [Next.Expects] at hexp
    rfl
  | _ => exact h.elim

/-- **No deadlock**, on a map whose builder needs no lock. While a thread is inside a call, some
thread inside a call can go on, or the thread sleeps on the mutex of a slot that the program keeps
with a guard of another thread's making. -/
theorem map_never_stuck (h : Reach (atomicHashMap L ids adaptive) FlagsSurvive init c)
    {p : Pc ι K V} (hpc : c.pcs t = some p) :
    (∃ u q ch r, c.pcs u = some q ∧ ch ≠ .spurious ∧ exec L ids adaptive u ch c.shared q = some r) ∨
      ∃ read b k, p = .slot (.slowParked read b) k ∧
        ∃ u, ∃ g ∈ c.shared.guards u, (g.hold.shard, g.hold.slot) = k.target ∧
          g.hold.acquirer ≠ t := by
  have hL := reach_locks h
  have hP := reach_parked h
  by_cases hgo : ∃ u q ch r, c.pcs u = some q ∧ ch ≠ .spurious ∧
    exec L ids adaptive u ch c.shared q = some r
  · exact Or.inl hgo
  right
  have hmine : ∀ {u q}, c.pcs u = some q → Mine L ids u c.shared (some q) :=
    fun {u q} hq ↦ hq ▸ hL.mine u
  have hsleeps : ∀ {u q}, c.pcs u = some q → Sleeps u c.shared q := by
    intro u q hq
    have hstuck : ∀ ch, ch ≠ .spurious → exec L ids adaptive u ch c.shared q = none := by
      intro ch hch
      by_contra hne
      obtain ⟨r, hr⟩ := Option.ne_none_iff_exists'.1 hne
      exact hgo ⟨u, q, ch, r, hq, hch, hr⟩
    exact sleeps_of_stuck (reach_bounded h) (hmine hq) hstuck
  -- nobody owes a wakeup
  have hshard : ∀ i u, shardRole i (c.pcs u) = .out ∨ shardRole i (c.pcs u) = .asleep := by
    intro i u
    cases hq : c.pcs u with
    | none => exact Or.inl rfl
    | some q => exact (hsleeps hq).role.1 i
  have hslot : ∀ x u, slotRole x (c.pcs u) = .out ∨ slotRole x (c.pcs u) = .asleep := by
    intro x u
    cases hq : c.pcs u with
    | none => exact Or.inl rfl
    | some q => exact (hsleeps hq).role.2 x
  cases p with
  | shard q k =>
    exfalso
    obtain ⟨-, hw⟩ := hsleeps hpc
    -- whoever has the shard does not sleep
    obtain ⟨u, hpos⟩ :=
      ((hP.shard k.target).queued (hshard k.target) ⟨t, hw⟩).held (hL.sound.accounts _)
    rw [(hL.mine u).exclusive] at hpos
    cases hq : c.pcs u with
    | none =>
      rw [hq] at hpos
      cases hpos
    | some q =>
      rw [hq, Option.elim_some, (hsleeps hq).sealed (hmine hq)] at hpos
      cases hpos
  | slot q k =>
    obtain ⟨⟨read, b, rfl⟩, hw⟩ := hsleeps hpc
    refine ⟨read, b, k, rfl, ?_⟩
    -- whoever has the slot does not sleep, so it is not inside a call
    have hq := (hP.slot k.target).queued (hslot k.target) ⟨t, hw⟩
    obtain ⟨read', a, u, hpos⟩ := (hL.sound.exact _ _).held hq
    have hmem : ⟨k.target.1, k.target.2, read', a⟩ ∈ c.shared.holds u := by
      have hrec : 0 < c.shared.record ⟨k.target.1, k.target.2, read', a⟩ u := hpos
      rw [(hL.mine u).record] at hrec
      cases hq : c.pcs u with
      | none =>
        rw [hq, Option.elim_none, List.append_nil] at hrec
        exact List.count_pos_iff.1 hrec
      | some q =>
        rw [hq, Option.elim_some, (hsleeps hq).hands (hmine hq), List.append_nil] at hrec
        exact List.count_pos_iff.1 hrec
    obtain ⟨g, hg, hhold⟩ := List.mem_map.1 hmem
    refine ⟨u, g, hg, by rw [hhold], ?_⟩
    intro ha
    obtain rfl : a = t := by
      rw [hhold] at ha
      exact ha
    -- the sleeper has no guard of its own making on the slot
    have hno : SerialMutex.NoGuards (c.shared.slotLock k.target.1 k.target.2) a :=
      (hmine hpc).knows _ rfl
    exact absurd hpos (hno.record read' u).le.not_gt
  | _ => exact (hsleeps hpc).elim

end Keys

/-! ### Two runs -/

/-- Thread `t` takes a guard, and `u` asks for the same slot. -/
def behindGuard (t u : Fin 2) : List (Label (Fin 2) (Op (Fin 2) ℕ ℕ)) :=
  .call t (.insert 0 8) :: List.replicate 9 (.exec t (.addr 2)) ++ .call t (.get 0) ::
    List.replicate 6 (.exec t .go) ++
    .call u (.getMut 0) :: List.replicate 33 (.exec u .go)

/-- A thread that waits for the guard of another one. -/
theorem map_never_stuck_behind_guard :
    ∃ c p, Reach smallMap FlagsSurvive init c ∧ c.pcs 1 = some p ∧ Sleeps 1 c.shared p ∧
      c.pcs 0 = none ∧
      ∃ u, ∃ g ∈ c.shared.guards u, g.hold.acquirer ≠ 1 := by
  obtain ⟨c, hc, ht⟩ := Reach.exists_of_replay smallMap FlagsSurvive init (behindGuard 0 1)
    (fun c ↦ decide (slotRole (0, 0) (c.pcs 1) = .asleep ∧
      1 ∈ (c.shared.slotLock 0 0).wake.waiters) &&
      (c.pcs 0).isNone) (by decide +kernel)
  obtain ⟨hasleep, hout⟩ := Bool.and_eq_true_iff.1 ht
  obtain ⟨hrole, hw⟩ := of_decide_eq_true hasleep
  obtain ⟨p, hp, hsleeps⟩ := Sleeps.of_slotRole hrole hw
  have hnone := Option.isNone_iff_eq_none.1 hout
  refine ⟨c, p, hc, hp, hsleeps, hnone, ?_⟩
  rcases map_never_stuck hc hp with ⟨u, q, ch, r, hq, hch, he⟩ | ⟨read, b, k, -, u, g, hg, -, hne⟩
  · -- the other thread is outside, and this one sleeps
    rcases Fin.exists_fin_two.1 ⟨u, rfl⟩ with rfl | rfl
    · rw [hnone] at hq
      cases hq
    · obtain rfl : p = q := Option.some.inj (hp.symm.trans hq)
      rw [hsleeps.stuck hch] at he
      cases he
  · exact ⟨u, g, hg, hne⟩

/-- Thread `t` finds the shard taken by a `clear` of `u` and sets the flag. The `clear` ends, `u`
clears again, and `t` goes to sleep behind the second `clear`, whose release of the shard finds no
flag. -/
def behindClears (t u : Fin 2) : List (Label (Fin 2) (Op (Fin 2) ℕ ℕ)) :=
  .call u .clear :: .exec u .go :: .call t (.get 0) :: List.replicate 16 (.exec t .go) ++
    List.replicate 19 (.exec u .go) ++ .call u .clear :: .exec u .go ::
      List.replicate 3 (.exec t .go) ++
    List.replicate 15 (.exec u .go)

/-- **Where the flag does not survive, the map gets stuck**: a `get` sleeps for good, with nobody
else inside a call and no guard live. -/
theorem stuck_behind_clears :
    ∃ c p, Reach smallMap Always init c ∧ c.pcs 0 = some p ∧ Sleeps 0 c.shared p ∧ c.pcs 1 = none ∧
      c.shared.guards 0 = [] ∧ c.shared.guards 1 = [] := by
  obtain ⟨c, hc, ht⟩ := Reach.exists_of_replay smallMap Always init (behindClears 0 1)
    (fun c ↦ decide (shardRole 0 (c.pcs 0) = .asleep ∧
      0 ∈ (c.shared.shardLock 0).readersFutex.waiters ∧
      c.shared.guards 0 = [] ∧ c.shared.guards 1 = []) && (c.pcs 1).isNone) (by decide +kernel)
  obtain ⟨hasleep, hout⟩ := Bool.and_eq_true_iff.1 ht
  obtain ⟨hrole, hw, h₀, h₁⟩ := of_decide_eq_true hasleep
  obtain ⟨p, hp, hsleeps⟩ := Sleeps.of_shardRole hrole hw
  exact ⟨c, p, hc, hp, hsleeps, Option.isNone_iff_eq_none.1 hout, h₀, h₁⟩

end Shared

end AtomicHashMap

end Crossync
