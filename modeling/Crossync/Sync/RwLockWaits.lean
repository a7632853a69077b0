import Crossync.Core.RawMutexWaits
import Crossync.Sync.RwLockGuards

/-!
# Who waits for whom in an `RwLock`

The methods of `RwLock` wait inside the lock and nowhere else. So a thread of a stuck configuration
waits in `RawMutex`, and what that waits for is an acquisition (`RawMutex.held_of_stuck`), which
here is a guard that the program keeps. The two conditions on runs are those of the lock.
-/

open Interleave

namespace Crossync

namespace RwLock

variable {ι α : Type*} [Fintype ι] [DecidableEq ι] {adaptive : ℕ}
  {c : Config ι (Store ι α) (Pc α)} {t : ι}

/-- The lock keeps its flags: no recheck misses the readers-parked flag, and no step abandons it. -/
def KeepsFlags (c : Config ι (Store ι α) (Pc α)) : Label ι (Op ι α) → Prop
  | .call _ _ => True
  | .exec t ch => RawMutex.KeepsFlags (c.view Store.mutex Pc.raw) (.exec t ch)

instance (c : Config ι (Store ι α) (Pc α)) (l : Label ι (Op ι α)) : Decidable (KeepsFlags c l) :=
  match l with
  | .call _ _ => isTrue trivial
  | .exec _ _ => inferInstanceAs (Decidable (RawMutex.KeepsFlags _ _))

theorem reach_view {x : α} (h : Reach (rwLock adaptive) KeepsFlags (init x) c) :
    Reach (RawMutex.rawMutex adaptive) RawMutex.KeepsFlags RawMutex.init
      (c.view Store.mutex Pc.raw) := by
  refine h.invariant (I := fun c ↦
    Reach (RawMutex.rawMutex adaptive) RawMutex.KeepsFlags RawMutex.init
      (c.view Store.mutex Pc.raw)) .refl ?_ ?_
  · intro c t op r _ hI _ hpc he
    exact view_put_enter hI (fun _ ↦ ⟨trivial, fun hc ↦ hc⟩) hpc he
  · intro c t ch p r _ hI hok hpc he
    exact view_put_exec hI hok hpc he

/-- **No deadlock.** While a thread is inside a method, some thread inside a method can go on, or a
guard is live. -/
theorem lock_never_stuck {x : α} (h : Reach (rwLock adaptive) KeepsFlags (init x) c) {p : Pc α}
    (hpc : c.pcs t = some p) :
    (∃ u q r, c.pcs u = some q ∧ exec adaptive u .go c.shared q = some r) ∨
      0 < live c.shared true + live c.shared false := by
  cases p with
  | mutex m p =>
    have hview : (c.view Store.mutex Pc.raw).pcs t = some p := by
      rw [Config.view_pcs, hpc]
      rfl
    refine or_iff_not_imp_left.2 fun hgo ↦ ?_
    obtain ⟨u, hu⟩ := RawMutex.held_of_stuck (reach_view h) hview fun u q hq ↦ by
      -- a lock operation that can go on is one of a method
      by_contra hne
      obtain ⟨r, hr⟩ := Option.ne_none_iff_exists'.1 hne
      rw [Config.view_pcs] at hq
      obtain ⟨q', hq', hraw⟩ := Option.bind_eq_some_iff.1 hq
      cases q' with
      | mutex m' q' =>
        cases hraw
        exact hgo ⟨u, _, _, hq', congrArg (Option.map _) hr⟩
      | _ => cases hraw
    have hs : c.shared.mutex.shared u ≤ live c.shared true := Guarded.guards_le_live c true u
    have hx : c.shared.mutex.exclusive u ≤ live c.shared false :=
      Guarded.guards_le_live c false u
    rw [Config.view_shared] at hu
    omega
  | _ => exact Or.inl ⟨t, _, _, hpc, rfl⟩

/-- Thread `1` waits for the guard of thread `0`. -/
theorem lock_never_stuck_behind_guard :
    ∃ c, Reach (rwLock 4) KeepsFlags (init 7 : Config (Fin 2) (Store (Fin 2) ℕ) (Pc ℕ)) c ∧
      1 ∈ c.shared.mutex.writersFutex.waiters ∧ 0 < live c.shared true + live c.shared false := by
  obtain ⟨c, hc, ht⟩ := Reach.exists_of_replay (rwLock 4) KeepsFlags
    (init 7 : Config (Fin 2) (Store (Fin 2) ℕ) (Pc ℕ))
    (.call 0 (.method .lockShared) :: List.replicate 2 (.exec 0 .go) ++
      .call 1 (.method .lockExclusive) :: List.replicate 6 (.exec 1 .go))
    (fun c ↦ decide (1 ∈ c.shared.mutex.writersFutex.waiters ∧ c.pcs 0 = none ∧
      c.pcs 1 = some (.mutex .lockExclusive .lockExclusiveParked))) (by decide)
  obtain ⟨hw, hout, hpc⟩ := of_decide_eq_true ht
  refine ⟨c, hc, hw, (lock_never_stuck hc hpc).resolve_left ?_⟩
  rintro ⟨u, q, r, hq, he⟩
  rcases Fin.exists_fin_two.1 ⟨u, rfl⟩ with rfl | rfl
  · rw [hout] at hq
    cases hq
  · rw [hpc] at hq
    cases hq
    have hresume : c.shared.mutex.writersFutex.resume 1 .go = none := if_pos hw
    simp only [exec, RawMutex.exec, hresume] at he
    cases he

end RwLock

end Crossync
