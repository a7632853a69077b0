import Crossync.Core.SMutexExact

/-!
# What a caller of an `SMutex` can rely on

For code that locks and unlocks from inside its own program points: a call that acquires ends with a
guard, a call that releases a guard ends, and neither touches the guards of another thread.

## For whom

`SCondVar` and the bounded channel lock and unlock an `SMutex` from inside their own calls. They
need to know that a call which acquires ends with a guard, that the release of a guard does not
panic, and that nobody else touches their guards. How the fields come to be consistent is not their
concern.
-/

open Interleave

namespace Crossync

namespace SMutex

variable {ι : Type*} [DecidableEq ι] {ids : ThreadIds ι} {adaptive : ℕ}

/-- Inside `lock`, or inside `lock_group`. -/
def acquires (isGroup : Bool) : Pc → Bool
  | .lockOwner | .lockNested | .lockCas _ | .storeOwner | .storeRecursion | .lockLoad _
  | .lockWait _ _
  | .lockParked _ => !isGroup
  | .groupOwner | .groupNested | .groupLoad | .groupCas _ | .groupCheck | .groupWait
  | .groupParked =>
    isGroup
  | _ => false

/-- Inside one of the releases. -/
def releases : Pc → Bool
  | .unlockOwner | .unlockGroupOwner | .unlockRecursion _ | .clearOwner | .clearState
  | .unlockGroupSub
  | .wake => true
  | _ => false

/-- Inside the release of an exclusive guard. -/
def unlocks : Pc → Bool
  | .unlockOwner | .unlockRecursion false | .clearOwner | .clearState | .wake => true
  | _ => false

/-- The guard that is being released is still there. -/
def retains : Option Pc → ℕ
  | some .unlockOwner | some (.unlockRecursion _) => 1
  | _ => 0

section Steps

variable {h : Option ι} {c : Config ι (Store ι) Pc} {t : ι} {ch : Choice ι}
  {s s' : Store ι} {p : Pc}
  {o : Outcome Pc Ret} {g : Bool}

/-- **A step touches only the guards of its own thread.** -/
theorem exec_keeps (he : exec ids adaptive t ch s p = some (s', o)) : Keeps t s s' := by
  cases p with
  | lockNested =>
    cases he
    exact keeps_gain s false _
  | groupNested =>
    cases he
    exact keeps_gain s true _
  | storeRecursion =>
    cases he
    exact keeps_gain s false 1
  | unlockRecursion b =>
    cases he
    exact keeps_lose s b _
  | groupCas v =>
    simp only [exec] at he
    split_ifs at he
    · split at he
      · cases he
        refine ⟨fun _ _ ↦ rfl, fun _ _ ↦ rfl, fun u hu ↦ ?_⟩
        exact Function.update_of_ne hu _ _
      · cases he
        exact .of_eq rfl rfl rfl
    · cases he
      exact .of_eq rfl rfl rfl
  | unlockGroupSub =>
    obtain ⟨w, hw⟩ : ∃ w, w = (s.state.value + 2 ^ 32 - oneGroup) % 2 ^ 32 := ⟨_, rfl⟩
    simp only [exec, ← hw, Option.some.injEq, Prod.mk.injEq] at he
    obtain ⟨rfl, -⟩ := he
    refine ⟨fun _ _ ↦ rfl, fun _ _ ↦ rfl, fun u hu ↦ ?_⟩
    exact Function.update_of_ne hu _ _
  | _ =>
    simp only [exec] at he
    repeat' split at he
    all_goals cases he
    all_goals exact .of_eq rfl rfl rfl

theorem acquires_groupLoop (v : ℕ) : acquires true (groupLoop v) = true := by
  unfold groupLoop
  split_ifs <;> rfl

/-- **An acquisition ends with a guard**, or the group is full. -/
theorem exec_acquires (hp : acquires g p = true) (he : exec ids adaptive t ch s p = some (s', o)) :
    (∃ q, o = .goto q ∧ acquires g q = true) ∨ o = .ret (.guard g) ∨ g = true ∧
      o = .ret .overflow := by
  cases g with
  | false =>
    cases p with
    | groupOwner | groupNested | groupLoad | groupCas | groupCheck | groupWait
    | groupParked => cases hp
    | unlockOwner | unlockGroupOwner | unlockRecursion | clearOwner | clearState
    | unlockGroupSub | wake =>
      cases hp
    | lockNested | storeRecursion =>
      cases he
      exact Or.inr (Or.inl rfl)
    | _ =>
      simp only [exec] at he
      repeat' split at he
      all_goals cases he
      all_goals exact Or.inl ⟨_, rfl, rfl⟩
  | true =>
    cases p with
    | lockOwner | lockNested | lockCas | storeOwner | storeRecursion | lockLoad | lockWait
    | lockParked =>
      cases hp
    | unlockOwner | unlockGroupOwner | unlockRecursion | clearOwner | clearState
    | unlockGroupSub | wake =>
      cases hp
    | groupNested =>
      cases he
      exact Or.inr (Or.inl rfl)
    | groupLoad =>
      cases he
      exact Or.inl ⟨_, rfl, acquires_groupLoop _⟩
    | groupCas v =>
      simp only [exec] at he
      split_ifs at he
      · split at he
        · cases he
          exact Or.inr (Or.inl rfl)
        · cases he
          exact Or.inl ⟨_, rfl, acquires_groupLoop _⟩
      · cases he
        exact Or.inr (Or.inr ⟨rfl, rfl⟩)
    | _ =>
      simp only [exec] at he
      repeat' split at he
      all_goals cases he
      all_goals exact Or.inl ⟨_, rfl, rfl⟩

/-- **A release ends**: the guard that is released is there, so no assertion of the release
fails. -/
theorem exec_releases [Fintype ι] (hE : Exact ids h c) (hpc : c.pcs t = some p)
    (hp : releases p = true) (he : exec ids adaptive t ch c.shared p = some (s', o)) :
    (∃ q, o = .goto q ∧ releases q = true) ∨ o = .ret .unit := by
  have hknow := hE.knows t p hpc
  cases p with
  | unlockOwner =>
    have hguard : 0 < c.shared.guards t := by
      have : 0 < c.shared.exclusives t := hknow
      rw [Store.guards]
      omega
    have howner : c.shared.owner = ids.id t :=
      (hE.owner t).2 ⟨hE.holder_of_guards hguard, by rw [hpc]; rfl⟩
    simp only [exec, howner, ne_eq, not_true_eq_false, if_false] at he
    cases he
    exact Or.inl ⟨_, rfl, rfl⟩
  | unlockGroupOwner =>
    simp only [exec] at he
    split_ifs at he
    all_goals
      cases he
      exact Or.inl ⟨_, rfl, rfl⟩
  | unlockRecursion b =>
    cases he
    split_ifs
    · exact Or.inr rfl
    · exact Or.inl ⟨_, rfl, rfl⟩
  | clearOwner | clearState =>
    cases he
    exact Or.inl ⟨_, rfl, rfl⟩
  | unlockGroupSub =>
    -- a group guard is live, so the word counts it
    obtain ⟨w, hw⟩ : ∃ w, w = (c.shared.state.value + 2 ^ 32 - oneGroup) % 2 ^ 32 := ⟨_, rfl⟩
    simp only [exec, ← hw, Option.some.injEq, Prod.mk.injEq,
      if_neg (not_lt.2 (hE.oneGroup_le hknow))] at he
    obtain ⟨-, rfl⟩ := he
    split_ifs
    · exact Or.inl ⟨_, rfl, rfl⟩
    · exact Or.inr rfl
  | wake =>
    simp only [exec] at he
    split at he
    · cases he
      exact Or.inr rfl
    · cases he
  | _ => cases hp

/-- What an exclusive acquisition does to the guards: it ends with one more. -/
theorem exec_lock_share (hp : acquires false p = true)
    (he : exec ids adaptive t ch s p = some (s', o)) :
    s'.nested = s.nested ∧ s'.groups = s.groups ∧
      s'.exclusives t = if o.pc = none then s.exclusives t + 1 else s.exclusives t := by
  cases p with
  | groupOwner | groupNested | groupLoad | groupCas | groupCheck | groupWait
  | groupParked => cases hp
  | unlockOwner | unlockGroupOwner | unlockRecursion | clearOwner | clearState
  | unlockGroupSub | wake =>
    cases hp
  | lockNested | storeRecursion =>
    cases he
    exact ⟨rfl, rfl, by simp [Store.gain]⟩
  | _ =>
    simp only [exec] at he
    repeat' split at he
    all_goals cases he
    all_goals exact ⟨rfl, rfl, rfl⟩

/-- What the release of an exclusive guard does to the guards: it takes this one away. -/
theorem exec_unlock_share [Fintype ι] (hE : Exact ids h c) (hpc : c.pcs t = some p)
    (hp : unlocks p = true) (he : exec ids adaptive t ch c.shared p = some (s', o)) :
    s'.nested = c.shared.nested ∧ s'.groups = c.shared.groups ∧
      (∀ q, o.pc = some q → unlocks q = true) ∧
      s'.exclusives t + retains (some p) = c.shared.exclusives t + retains o.pc := by
  have hend : o ≠ .ret .notOwner := by
    have hrel : releases p = true := by
      cases p with
      | unlockRecursion b => rfl
      | _ => first | rfl | cases hp
    rintro rfl
    obtain ⟨q, ⟨⟩, -⟩ | ⟨⟨⟩⟩ := exec_releases hE hpc hrel he
  have hknow := hE.knows t p hpc
  cases p with
  | unlockOwner =>
    simp only [exec] at he
    split_ifs at he
    · cases he
      exact absurd rfl hend
    · cases he
      exact ⟨rfl, rfl, by rintro _ ⟨⟩; rfl, rfl⟩
  | unlockRecursion b =>
    cases b with
    | true => cases hp
    | false =>
      have hpos : 0 < c.shared.exclusives t := hknow
      cases he
      refine ⟨rfl, rfl, ?_, ?_⟩
      · split_ifs
        · rintro _ ⟨⟩
        · rintro _ ⟨⟩
          rfl
      · have hret : retains (if 1 < c.shared.recursion then Outcome.ret Ret.unit
            else Outcome.goto Pc.clearOwner : Outcome Pc Ret).pc = 0 := by
          split_ifs <;> rfl
        rw [hret]
        simp only [Store.lose, retains, Bool.false_eq_true, if_false, Function.update_self]
        omega
  | clearOwner | clearState =>
    cases he
    exact ⟨rfl, rfl, by rintro _ ⟨⟩; rfl, rfl⟩
  | wake =>
    simp only [exec] at he
    split at he
    · cases he
      exact ⟨rfl, rfl, by rintro _ ⟨⟩, rfl⟩
    · cases he
  | _ => cases hp

/-- A release does not come back to the guard it has given up. -/
theorem retains_le {q : Pc} (hp : unlocks p = true)
    (he : exec ids adaptive t ch s p = some (s', .goto q)) :
    retains (some q) ≤ retains (some p) := by
  cases p with
  | unlockOwner =>
    simp only [exec] at he
    split_ifs at he
    · cases he
    · cases he
      exact le_rfl
  | unlockRecursion b =>
    simp only [exec, Option.some.injEq, Prod.mk.injEq] at he
    obtain ⟨-, ho⟩ := he
    split_ifs at ho
    cases ho
    exact Nat.zero_le _
  | clearOwner | clearState =>
    cases he
    exact le_rfl
  | wake =>
    simp only [exec] at he
    split at he <;> cases he
  | _ => cases hp

end Steps

end SMutex

end Crossync
