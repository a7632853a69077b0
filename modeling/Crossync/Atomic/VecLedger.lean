import Crossync.Interleave.Stake
import Crossync.Atomic.VecEnds

/-!
# The slots of an `AtomicVec`

Every data slot goes through the hands of one push and of one pop. Its *push phase* and its *pop
phase* say how far they are: the slot is free, a thread holds it at some stage, or that side is
done. A pop holds its slot beyond its last access to it, until the value is returned.

The `Ledger` says that the phases agree with the numbers of reservations, with the record of what
was returned, and with the program points: whoever is at a point that accesses a reserved slot is
the one thread that holds it there.

## Stages and holders

A phase is either a plain state or a stage together with the thread that is in it, and a thread is
in at most one stage of one slot on each side. This is the pattern of `Interleave.Stake`, used
twice: once for pushes and once for pops.
-/

open Interleave

namespace Crossync

namespace AtomicVec

variable {ι α : Type*} [DecidableEq ι] {ids : Coord.ThreadIds ι} {adaptive : ℕ}

/-- How far one side is with a slot. -/
inductive Phase (St ι : Type*) where
  | free
  | held (stage : St) (t : ι)
  | done

/-- A push has reserved its slot, or has also written the value. -/
inductive PushStage where
  | reserved
  | written
  deriving DecidableEq

/-- A pop has reserved its slot, has taken the value, has marked the slot as read, or has also
counted the read. -/
inductive PopStage where
  | reserved
  | taken
  | marked
  | counted
  deriving DecidableEq

/-- The slot that a push holds. -/
def pushClaim : Pc ι α → Option (ℕ × PushStage)
  | .push f pt =>
    match pt with
    | .cas => none
    | .publish => some (number (f.tail / 2), .written)
    | _ => some (number (f.tail / 2), .reserved)
  | _ => none

/-- The slot that a pop holds. -/
def popClaim : Pc ι α → Option (ℕ × PopStage)
  | .pop f pt =>
    match pt with
    | .tail | .cas _ => none
    | .mark _ => some (number (f.head / 2), .taken)
    | .count _ => some (number (f.head / 2), .marked)
    | .retireLoad _ | .retireNext _ _ | .retireCas _ _ | .retireCount _ =>
      some (number (f.head / 2), .counted)
    | _ => some (number (f.head / 2), .reserved)
  | .popUnpin (some (k, _)) _ _ | .reclaim (.popped (some (k, _))) _ => some (k, .counted)
  | _ => none

/-- The phases of all slots. -/
structure Phases (ι : Type*) where
  pushed : ℕ → Phase PushStage ι
  popped : ℕ → Phase PopStage ι

/-- **The phases agree with the reservations, the program points and the record of returns.** -/
structure Ledger (φ : Phases ι) (c : Config ι (Store ι α) (Pc ι α)) : Prop where
  pushed_free : ∀ k, φ.pushed k = .free ↔ c.shared.pushes.length ≤ k
  popped_free : ∀ k, φ.popped k = .free ↔ c.shared.pops ≤ k
  pushing : Staked .held pushClaim φ.pushed c.pcs
  popping : Staked .held popClaim φ.popped c.pcs
  returned : ∀ k, φ.popped k = .done ↔ ∃ x, (k, x) ∈ c.shared.returned
  nodup : (c.shared.returned.map Prod.fst).Nodup

namespace Ledger

variable {φ : Phases ι} {c : Config ι (Store ι α) (Pc ι α)} {t : ι} {s' : Store ι α} {p : Pc ι α}
  {o : Outcome (Pc ι α) (Ret α)} {k : ℕ}

omit [DecidableEq ι] in
theorem pushed_eq (h : Ledger φ c) {st : PushStage} (hpc : c.pcs t = some p)
    (hp : pushClaim p = some (k, st)) : φ.pushed k = .held st t :=
  h.pushing.phase hpc hp

omit [DecidableEq ι] in
theorem popped_eq (h : Ledger φ c) {st : PopStage} (hpc : c.pcs t = some p)
    (hp : popClaim p = some (k, st)) : φ.popped k = .held st t :=
  h.popping.phase hpc hp

/-- A step that moves no slot. -/
theorem put_same (h : Ledger φ c) (hpu : s'.pushes = c.shared.pushes)
    (hpo : s'.pops = c.shared.pops) (hre : s'.returned = c.shared.returned)
    (hq : o.pc.bind pushClaim = (c.pcs t).bind pushClaim)
    (hq' : o.pc.bind popClaim = (c.pcs t).bind popClaim) : Ledger φ (c.put t (s', o)) where
  pushed_free k := by rw [Config.put_shared, hpu]; exact h.pushed_free k
  popped_free k := by rw [Config.put_shared, hpo]; exact h.popped_free k
  pushing := h.pushing.same hq
  popping := h.popping.same hq'
  returned k := by rw [Config.put_shared, hre]; exact h.returned k
  nodup := by rw [Config.put_shared, hre]; exact h.nodup

/-- A push reserves the next slot. -/
theorem reservePush (h : Ledger φ c) (hpc : c.pcs t = some p) {v : α} {q : Pc ι α}
    (hpu : s'.pushes = c.shared.pushes ++ [v]) (hpo : s'.pops = c.shared.pops)
    (hre : s'.returned = c.shared.returned) (hp : pushClaim p = none) (hp' : popClaim p = none)
    (hq : pushClaim q = some (c.shared.pushes.length, .reserved)) (hq' : popClaim q = none) :
    Ledger { φ with pushed := Function.update φ.pushed c.shared.pushes.length (.held .reserved t) }
      (c.put t (s', (.goto q : Outcome (Pc ι α) (Ret α)))) where
  pushed_free k := by
    rw [Config.put_shared, hpu]
    dsimp only
    by_cases hk : k = c.shared.pushes.length
    · subst hk
      simp
    · rw [Function.update_of_ne hk, h.pushed_free, List.length_append, List.length_singleton]
      omega
  popped_free k := by rw [Config.put_shared, hpo]; exact h.popped_free k
  pushing := by
    refine h.pushing.update ?_ ?_ ?_ ?_
    · intro k' st hk'
      rw [hpc] at hk'
      exact absurd (hp.symm.trans hk') (by simp)
    · intro st u hu
      rw [(h.pushed_free _).2 le_rfl] at hu
      cases hu
    · rintro st u ⟨⟩
      rfl
    · intro k' st
      show pushClaim q = _ ↔ _
      rw [hq]
      simp only [Option.some.injEq, Prod.mk.injEq, Phase.held.injEq, and_true]
      exact ⟨fun hc ↦ ⟨hc.1.symm, hc.2⟩, fun hc ↦ ⟨hc.1.symm, hc.2⟩⟩
  popping := h.popping.same (by rw [hpc]; exact hq'.trans hp'.symm)
  returned k := by rw [Config.put_shared, hre]; exact h.returned k
  nodup := by rw [Config.put_shared, hre]; exact h.nodup

/-- A pop reserves the next slot. -/
theorem reservePop (h : Ledger φ c) (hpc : c.pcs t = some p) {q : Pc ι α}
    (hpu : s'.pushes = c.shared.pushes) (hpo : s'.pops = c.shared.pops + 1)
    (hre : s'.returned = c.shared.returned) (hp : pushClaim p = none) (hp' : popClaim p = none)
    (hq : pushClaim q = none) (hq' : popClaim q = some (c.shared.pops, .reserved)) :
    Ledger { φ with popped := Function.update φ.popped c.shared.pops (.held .reserved t) }
      (c.put t (s', (.goto q : Outcome (Pc ι α) (Ret α)))) where
  pushed_free k := by rw [Config.put_shared, hpu]; exact h.pushed_free k
  popped_free k := by
    rw [Config.put_shared, hpo]
    dsimp only
    by_cases hk : k = c.shared.pops
    · subst hk
      simp
    · rw [Function.update_of_ne hk, h.popped_free]
      omega
  pushing := h.pushing.same (by rw [hpc]; exact hq.trans hp.symm)
  popping := by
    refine h.popping.update ?_ ?_ ?_ ?_
    · intro k' st hk'
      rw [hpc] at hk'
      exact absurd (hp'.symm.trans hk') (by simp)
    · intro st u hu
      rw [(h.popped_free _).2 le_rfl] at hu
      cases hu
    · rintro st u ⟨⟩
      rfl
    · intro k' st
      show popClaim q = _ ↔ _
      rw [hq']
      simp only [Option.some.injEq, Prod.mk.injEq, Phase.held.injEq, and_true]
      exact ⟨fun hc ↦ ⟨hc.1.symm, hc.2⟩, fun hc ↦ ⟨hc.1.symm, hc.2⟩⟩
  returned k := by
    rw [Config.put_shared, hre, ← h.returned k]
    dsimp only
    by_cases hk : k = c.shared.pops
    · subst hk
      rw [Function.update_self, (h.popped_free _).2 le_rfl]
      simp
    · rw [Function.update_of_ne hk]
  nodup := by rw [Config.put_shared, hre]; exact h.nodup

/-- A push moves its slot on. -/
theorem movePush (h : Ledger φ c) (st : PushStage) (hpc : c.pcs t = some p)
    {x : Phase PushStage ι} (hp : pushClaim p = some (k, st)) (hx : x ≠ .free)
    (hx' : ∀ st u, x = .held st u → u = t) (hpu : s'.pushes = c.shared.pushes)
    (hpo : s'.pops = c.shared.pops) (hre : s'.returned = c.shared.returned)
    (hq : ∀ k' st, o.pc.bind pushClaim = some (k', st) ↔ k' = k ∧ x = .held st t)
    (hq' : o.pc.bind popClaim = popClaim p) :
    Ledger { φ with pushed := Function.update φ.pushed k x } (c.put t (s', o)) where
  pushed_free k' := by
    rw [Config.put_shared, hpu, ← h.pushed_free k']
    dsimp only
    by_cases hk : k' = k
    · subst hk
      rw [Function.update_self, h.pushed_eq hpc hp]
      exact ⟨fun hc ↦ absurd hc hx, fun hc ↦ (nomatch hc)⟩
    · rw [Function.update_of_ne hk]
  popped_free k' := by rw [Config.put_shared, hpo]; exact h.popped_free k'
  pushing := by
    refine h.pushing.update ?_ ?_ hx' hq
    · intro k' st' hk'
      rw [hpc] at hk'
      have hc := hp.symm.trans hk'
      cases hc
      rfl
    · intro st' u hu
      rw [h.pushed_eq hpc hp] at hu
      cases hu
      rfl
  popping := h.popping.same (by rw [hq', hpc]; rfl)
  returned k' := by rw [Config.put_shared, hre]; exact h.returned k'
  nodup := by rw [Config.put_shared, hre]; exact h.nodup

/-- A pop moves its slot on. -/
theorem movePop (h : Ledger φ c) (hpc : c.pcs t = some p) {st : PopStage} {x : Phase PopStage ι}
    (hp : popClaim p = some (k, st)) (hx : x ≠ .free) (hx' : ∀ st u, x = .held st u → u = t)
    (hpu : s'.pushes = c.shared.pushes) (hpo : s'.pops = c.shared.pops)
    (hre : ∀ k', Function.update φ.popped k x k' = .done ↔ ∃ y, (k', y) ∈ s'.returned)
    (hnd : (s'.returned.map Prod.fst).Nodup)
    (hq : o.pc.bind pushClaim = pushClaim p)
    (hq' : ∀ k' st, o.pc.bind popClaim = some (k', st) ↔ k' = k ∧ x = .held st t) :
    Ledger { φ with popped := Function.update φ.popped k x } (c.put t (s', o)) where
  pushed_free k' := by rw [Config.put_shared, hpu]; exact h.pushed_free k'
  popped_free k' := by
    rw [Config.put_shared, hpo, ← h.popped_free k']
    dsimp only
    by_cases hk : k' = k
    · subst hk
      rw [Function.update_self, h.popped_eq hpc hp]
      exact ⟨fun hc ↦ absurd hc hx, fun hc ↦ (nomatch hc)⟩
    · rw [Function.update_of_ne hk]
  pushing := h.pushing.same (by rw [hq, hpc]; rfl)
  popping := by
    refine h.popping.update ?_ ?_ hx' hq'
    · intro k' st' hk'
      rw [hpc] at hk'
      have hc := hp.symm.trans hk'
      cases hc
      rfl
    · intro st' u hu
      rw [h.popped_eq hpc hp] at hu
      cases hu
      rfl
  returned := hre
  nodup := hnd

/-- A pop moves its slot on to a further stage. -/
theorem advancePop (h : Ledger φ c) (st st' : PopStage) (hpc : c.pcs t = some p)
    (hp : popClaim p = some (k, st)) (hpu : s'.pushes = c.shared.pushes)
    (hpo : s'.pops = c.shared.pops) (hre : s'.returned = c.shared.returned) {q : Pc ι α}
    (hq : pushClaim q = pushClaim p) (hq' : popClaim q = some (k, st')) :
    Ledger { φ with popped := Function.update φ.popped k (.held st' t) }
      (c.put t (s', (.goto q : Outcome (Pc ι α) (Ret α)))) := by
  refine h.movePop hpc hp (by simp) (by rintro _ _ ⟨⟩; rfl) hpu hpo ?_ (hre ▸ h.nodup) hq ?_
  · intro k'
    rw [hre, ← h.returned k']
    by_cases hk : k' = k
    · subst hk
      rw [Function.update_self, h.popped_eq hpc hp]
      simp
    · rw [Function.update_of_ne hk]
  · intro k' st''
    show popClaim q = _ ↔ _
    rw [hq']
    simp only [Option.some.injEq, Prod.mk.injEq, Phase.held.injEq, and_true]
    exact ⟨fun hc ↦ ⟨hc.1.symm, hc.2⟩, fun hc ↦ ⟨hc.1.symm, hc.2⟩⟩

/-- **A pop returns its value.** -/
theorem finishPop (h : Ledger φ c) (hpc : c.pcs t = some p) {x : Option (ℕ × α)}
    (hp : popClaim p = some (k, .counted)) (hpu : s'.pushes = c.shared.pushes)
    (hpo : s'.pops = c.shared.pops) (hre : s'.returned = c.shared.returned ++ [(k, x)])
    (hq : pushClaim p = none) {r : Ret α} :
    Ledger { φ with popped := Function.update φ.popped k .done }
      (c.put t (s', (.ret r : Outcome (Pc ι α) (Ret α)))) := by
  have hphase := h.popped_eq hpc hp
  have hnew : ∀ y, (k, y) ∉ c.shared.returned := by
    intro y hy
    rw [(h.returned k).2 ⟨y, hy⟩] at hphase
    cases hphase
  refine h.movePop hpc hp (by simp) (by rintro _ _ ⟨⟩) hpu hpo ?_ ?_ hq.symm (by simp)
  · intro k'
    rw [hre]
    by_cases hk : k' = k
    · subst hk
      rw [Function.update_self]
      exact ⟨fun _ ↦ ⟨x, by simp⟩, fun _ ↦ rfl⟩
    · rw [Function.update_of_ne hk, h.returned k']
      simp [hk]
  · rw [hre, List.map_append, List.nodup_append]
    refine ⟨h.nodup, by simp, ?_⟩
    rintro a ha b hb rfl
    simp only [List.map_cons, List.map_nil, List.mem_singleton] at hb
    subst hb
    obtain ⟨⟨a, y⟩, hy, rfl⟩ := List.mem_map.1 ha
    exact hnew y hy

end Ledger

end AtomicVec

end Crossync
