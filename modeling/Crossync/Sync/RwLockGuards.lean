import Crossync.Sync.RwLock

/-!
# The guards of `RwLock`

What the lock guarantees carries over to the value behind it. Seen from the lock a run is a run of
`RawMutex`, so its word accounts for the guards; an assertion of `deref` reads that word while the
guard is there. A thread at an access of the value has a guard of the right kind, which excludes
accesses that conflict and keeps the value in place while the guard lives.

## What each result rests on

* The verdicts of the methods rest on the accounting of the word, through `Moves` and
  `within_lockExclusive` and its siblings: a method reports a guard at the access that put the hold
  on record.
* The absence of races rests on exclusion: two accesses that conflict need two guards that exclude
  each other.
* That a guard's value does not change under it rests on both.

None of them looks at the slow paths of the lock again.
-/

open Interleave

namespace Crossync

namespace RwLock

open Word

variable {ι α : Type*} [Fintype ι] [DecidableEq ι] {adaptive : ℕ}

/-- The lock operation inside a program point. -/
def Pc.raw : Pc α → Option RawMutex.Pc
  | .mutex _ p => some p
  | _ => none

/-- The guard that a program point relies on. -/
def Pc.guard : Pc α → Option Bool
  | .guardIsLocked ref | .deref ref | .read ref => some ref
  | .write _ => some false
  | _ => none

/-- The answer of a call that looks at the lock or the value. -/
def look (s : Store ι α) : Pc α → Option (Ret α)
  | .isLocked => some (.bool (RawMutex.isLocked s.mutex))
  | .isLockedExclusive => some (.bool (isLockedExclusive s.mutex.state))
  | .isLockedShared => some (.bool (isLockedShared s.mutex.state))
  | .guardIsLocked ref => some (.bool (guardLocked ref s.mutex.state))
  | .deref ref => some (if guardLocked ref s.mutex.state then .unit else .assertFailed)
  | .read _ => some (.value s.data)
  | _ => none

/-- **What an access can do.** -/
inductive Moves (adaptive : ℕ) (t : ι) (ch : Choice ι) (s : Store ι α) :
    Pc α → Store ι α × Outcome (Pc α) (Ret α) → Prop where
  | mutex {m p r} (he : RawMutex.exec adaptive t ch s.mutex p = some r) :
      Moves adaptive t ch s (.mutex m p) (mutexStep s m r)
  | looks {p e} (hp : look s p = some e) : Moves adaptive t ch s p (s, .ret e)
  | writes {x} : Moves adaptive t ch s (.write x) ({ s with data := x }, .ret .unit)

/-- Every access is one of the moves. -/
theorem exec_moves {t : ι} {ch : Choice ι} {s : Store ι α} {p : Pc α}
    {r : Store ι α × Outcome (Pc α) (Ret α)} (h : exec adaptive t ch s p = some r) :
    Moves adaptive t ch s p r := by
  cases p with
  | mutex m p =>
    obtain ⟨x, hx, rfl⟩ := Option.map_eq_some_iff.1 h
    exact .mutex hx
  | write x =>
    cases h
    exact .writes
  | _ =>
    cases h
    exact .looks rfl

/-- What the start of a call can do: start a method, look at something with the guard it takes, or
hand a guard over. -/
inductive Starts (t : ι) (s : Store ι α) : Store ι α × Outcome (Pc α) (Ret α) → Prop where
  | method (m : Method) {r} (he : RawMutex.enter t m.op s.mutex = some r) :
    Starts t s (mutexStep s m r)
  | looks {p : Pc α} (hp : p.raw = none) (hg : ∀ ref, p.guard = some ref → 0 < s.guards ref t) :
      Starts t s (s, .goto p)
  | sends (op : RawMutex.Op ι) {r} (he : RawMutex.enter t op s.mutex = some r)
    (hr : r.2.pc = none) :
      Starts t s ({ s with mutex := r.1 }, .ret .unit)

omit [Fintype ι] in
/-- The start of every call is one of the starts. -/
theorem enter_starts {t : ι} {op : Op ι α} {s : Store ι α} {r : Store ι α × Outcome (Pc α) (Ret α)}
    (h : enter t op s = some r) : Starts t s r := by
  cases op with
  | method m =>
    obtain ⟨x, hx, rfl⟩ := Option.map_eq_some_iff.1 h
    exact .method m hx
  | isLocked | isLockedExclusive | isLockedShared =>
    cases h
    exact .looks rfl fun ref hc ↦ by cases hc
  | guardIsLocked ref | deref ref | read ref | write x =>
    simp only [enter] at h
    split_ifs at h with hpos
    cases h
    exact .looks rfl fun ref' hc ↦ by
      cases hc
      exact hpos
  | sendRef u | sendMut u =>
    obtain ⟨x, hx, rfl⟩ := Option.map_eq_some_iff.1 h
    refine .sends _ hx ?_
    simp only [RawMutex.enter] at hx
    split_ifs at hx
    cases hx
    rfl

omit [Fintype ι] [DecidableEq ι] in
/-- The lock operation after a step of the lock. -/
theorem mutexStep_pc (s : Store ι α) (m : Method)
    (r : RawMutex.Store ι × Outcome RawMutex.Pc RawMutex.Ret) :
    (mutexStep s m r).1.mutex = r.1 ∧ (mutexStep s m r).1.data = s.data ∧
      r.2.pc = (mutexStep s m r).2.pc.bind Pc.raw ∧
        (mutexStep s m r).2.pc.bind Pc.guard = none := by
  obtain ⟨x, o⟩ := r
  cases o <;> exact ⟨rfl, rfl, rfl, rfl⟩

/-! ### What the methods give

Where in a method the lock is acquired, and what the method returns then. -/

/-- The program points of the lock that a method passes. -/
def Method.passes : Method → RawMutex.Pc → Bool
  | lockExclusive, .lockExclusiveFast | lockExclusive, .lockExclusiveLoad | lockExclusive,
  .lockExclusiveCas _
  | lockExclusive, .lockExclusiveMark _ | lockExclusive, .lockExclusiveKey
  | lockExclusive, .lockExclusiveCheck _ | lockExclusive, .lockExclusiveWait _
  | lockExclusive, .lockExclusiveParked => true
  | tryLock, .tryLockExclusive => true
  | lockShared, .sharedFastLoad true | lockShared, .sharedFastCas true _ _ | lockShared,
  .lockSharedLoad _
  | lockShared, .lockSharedCas _ _ _ | lockShared, .lockSharedMark _ _ | lockShared,
  .lockSharedKey _
  | lockShared, .lockSharedCheck _ _ | lockShared, .lockSharedWait _ _ | lockShared,
  .lockSharedParked _ => true
  | tryLockShared, .sharedFastLoad false | tryLockShared, .sharedFastCas false _ _
  | tryLockShared, .tryLockSharedLoad | tryLockShared, .tryLockSharedCas _ _ => true
  | dropRef, .unlockShared | dropRef, .bumpWriters | dropRef, .wakeWriters => true
  | dropMut, .unlockExclusiveFast | dropMut, .unlockExclusiveLoad | dropMut, .unlockExclusiveCas _
  | dropMut, .bumpWriters | dropMut, .wakeWriters | dropMut, .bumpReaders | dropMut,
  .wakeReaders => true
  | _, _ => false

/-- What the verdict of a method means for the guards. -/
def Gives (t : ι) (s s' : RawMutex.Store ι) : Ret α → Prop
  | .mut => count s.state = 0 ∧ ∃ w, s' = s.gainExclusive t w
  | .ref => count s.state < writerCount ∧ ∃ w, s' = s.gainShared t w
  | .busy => s' = s
  | _ => True

variable (α) in
/-- An access of the lock inside a method: the method goes on, or it returns and gives what its
verdict says. -/
def Within (t : ι) (m : Method) (s s' : RawMutex.Store ι) : Outcome RawMutex.Pc RawMutex.Ret → Prop
  | .goto p => m.passes p = true
  | .ret e => Gives t s s' (m.done e : Ret α)

section Access

variable {t : ι} {ch : Choice ι} {s s' : RawMutex.Store ι} {p : RawMutex.Pc}
  {o : Outcome RawMutex.Pc RawMutex.Ret}

/-- `lock_exclusive` gives a guard when the lock was acquired exclusively, and not before. -/
theorem within_lockExclusive (hp : Method.lockExclusive.passes p = true) (hk : RawMutex.Knows t s p)
    (h : RawMutex.exec adaptive t ch s p = some (s', o)) : Within α t .lockExclusive s s' o := by
  have hloop : ∀ state, Method.lockExclusive.passes (RawMutex.lockExclusiveLoop state) = true := by
    intro state
    unfold RawMutex.lockExclusiveLoop
    split_ifs <;> rfl
  cases p with
  | lockExclusiveFast =>
    simp only [RawMutex.exec] at h
    split at h
    · rename_i w hw
      obtain ⟨hu, rfl⟩ := cas_eq_ok.1 hw
      cases h
      exact ⟨by rw [hu]; rfl, _, rfl⟩
    · cases h
      rfl
  | lockExclusiveCas state =>
    simp only [RawMutex.exec] at h
    split at h
    · rename_i w hw
      obtain ⟨rfl, rfl⟩ := casWeak_eq_ok hw
      cases h
      exact ⟨hk, _, rfl⟩
    · cases h
      exact hloop _
  | lockExclusiveLoad =>
    cases h
    exact hloop _
  | lockExclusiveMark | lockExclusiveWait | lockExclusiveParked | lockExclusiveCheck =>
    simp only [RawMutex.exec] at h
    split at h
    all_goals cases h
    all_goals first
      | rfl
      | exact hloop _
  | lockExclusiveKey =>
    cases h
    rfl
  | _ => cases hp

/-- `try_lock` gives a guard exactly when the lock was acquired. -/
theorem within_tryLock (hp : Method.tryLock.passes p = true)
    (h : RawMutex.exec adaptive t ch s p = some (s', o)) : Within α t .tryLock s s' o := by
  cases p with
  | tryLockExclusive =>
    simp only [RawMutex.exec] at h
    split at h
    · rename_i w hw
      obtain ⟨hu, rfl⟩ := cas_eq_ok.1 hw
      cases h
      exact ⟨by rw [hu]; rfl, _, rfl⟩
    · cases h
      exact rfl
  | _ => cases hp

/-- A word that admits a reader is not a writer's. -/
theorem lt_of_admitShared {state w : Word} (h : admitShared state = some w) :
    count state < writerCount := by
  have := (admitShared_eq_some_iff.1 h).1
  omega

/-- `lock_shared` gives a guard when a share was acquired, and not before. -/
theorem within_lockShared (hp : Method.lockShared.passes p = true) (hk : RawMutex.Knows t s p)
    (h : RawMutex.exec adaptive t ch s p = some (s', o)) : Within α t .lockShared s s' o := by
  have hloop : ∀ b state, Method.lockShared.passes (RawMutex.lockSharedLoop b state) = true := by
    intro b state
    unfold RawMutex.lockSharedLoop
    split
    · rfl
    · split_ifs <;> rfl
  cases p with
  | sharedFastLoad block =>
    obtain rfl : block = true := by
      cases block
      · cases hp
      · rfl
    simp only [RawMutex.exec] at h
    split at h <;> cases h <;> rfl
  | sharedFastCas block state newState =>
    obtain rfl : block = true := by
      cases block
      · cases hp
      · rfl
    simp only [RawMutex.exec] at h
    split at h
    · rename_i w hw
      obtain ⟨rfl, rfl⟩ := cas_eq_ok.1 hw
      cases h
      exact ⟨lt_of_admitShared hk, _, rfl⟩
    · cases h
      rfl
  | lockSharedCas b state newState =>
    simp only [RawMutex.exec] at h
    split at h
    · rename_i w hw
      obtain ⟨rfl, rfl⟩ := casWeak_eq_ok hw
      cases h
      exact ⟨lt_of_admitShared hk, _, rfl⟩
    · cases h
      rfl
  | lockSharedLoad b =>
    cases h
    exact hloop _ _
  | lockSharedMark | lockSharedCheck | lockSharedWait | lockSharedParked =>
    simp only [RawMutex.exec] at h
    split at h <;> cases h <;> rfl
  | lockSharedKey b =>
    cases h
    rfl
  | _ => cases hp

/-- `try_lock_shared` gives a guard exactly when a share was acquired. -/
theorem within_tryLockShared (hp : Method.tryLockShared.passes p = true) (hk : RawMutex.Knows t s p)
    (h : RawMutex.exec adaptive t ch s p = some (s', o)) : Within α t .tryLockShared s s' o := by
  have hloop : ∀ state, Within α t .tryLockShared s s (RawMutex.tryLockSharedLoop state) := by
    intro state
    unfold RawMutex.tryLockSharedLoop
    split
    · rfl
    · exact rfl
  cases p with
  | sharedFastLoad block =>
    obtain rfl : block = false := by
      cases block
      · rfl
      · cases hp
    simp only [RawMutex.exec] at h
    split at h <;> cases h <;> rfl
  | sharedFastCas block state newState =>
    obtain rfl : block = false := by
      cases block
      · rfl
      · cases hp
    simp only [RawMutex.exec] at h
    split at h
    · rename_i w hw
      obtain ⟨rfl, rfl⟩ := cas_eq_ok.1 hw
      cases h
      exact ⟨lt_of_admitShared hk, _, rfl⟩
    · cases h
      rfl
  | tryLockSharedLoad =>
    simp only [RawMutex.exec, Option.some.injEq, Prod.mk.injEq] at h
    obtain ⟨rfl, rfl⟩ := h
    exact hloop _
  | tryLockSharedCas state newState =>
    simp only [RawMutex.exec] at h
    split at h
    · rename_i w hw
      obtain ⟨rfl, rfl⟩ := casWeak_eq_ok hw
      cases h
      exact ⟨lt_of_admitShared hk, _, rfl⟩
    · simp only [Option.some.injEq, Prod.mk.injEq] at h
      obtain ⟨rfl, rfl⟩ := h
      exact hloop _
  | _ => cases hp

/-- The drop of a guard gives its hold back. -/
theorem within_drop {m : Method} (hm : m = .dropRef ∨ m = .dropMut) (hp : m.passes p = true)
    (h : RawMutex.exec adaptive t ch s p = some (s', o)) : Within α t m s s' o := by
  have hret : ∀ e, Within α t m s s' (.ret e) := by
    rcases hm with rfl | rfl <;> exact fun _ ↦ trivial
  cases p with
  | unlockShared =>
    obtain rfl : m = .dropRef := hm.resolve_right fun hm ↦ by subst hm; cases hp
    simp only [RawMutex.exec, Option.some.injEq, Prod.mk.injEq] at h
    rw [← h.2]
    split_ifs
    · rfl
    · exact hret _
  | unlockExclusiveFast | unlockExclusiveLoad =>
    obtain rfl : m = .dropMut := hm.resolve_left fun hm ↦ by subst hm; cases hp
    simp only [RawMutex.exec] at h
    first
      | (split at h <;> cases h <;> first | rfl | exact hret _)
      | (cases h; rfl)
  | unlockExclusiveCas state =>
    obtain rfl : m = .dropMut := hm.resolve_left fun hm ↦ by subst hm; cases hp
    simp only [RawMutex.exec] at h
    split at h
    · cases h
      unfold RawMutex.unlockExclusiveWake
      dsimp only
      split_ifs
      · rfl
      · rfl
      · exact hret _
    · cases h
      rfl
  | bumpWriters =>
    cases h
    rcases hm with rfl | rfl <;> rfl
  | bumpReaders =>
    obtain rfl : m = .dropMut := hm.resolve_left fun hm ↦ by subst hm; cases hp
    cases h
    rfl
  | wakeWriters | wakeReaders =>
    cases h
    exact hret _
  | _ => rcases hm with rfl | rfl <;> cases hp

/-- **An access of the lock inside a method.** -/
theorem exec_within {m : Method} (hp : m.passes p = true) (hk : RawMutex.Knows t s p)
    (h : RawMutex.exec adaptive t ch s p = some (s', o)) : Within α t m s s' o := by
  cases m with
  | lockExclusive => exact within_lockExclusive hp hk h
  | tryLock => exact within_tryLock hp h
  | lockShared => exact within_lockShared hp hk h
  | tryLockShared => exact within_tryLockShared hp hk h
  | dropRef => exact within_drop (Or.inl rfl) hp h
  | dropMut => exact within_drop (Or.inr rfl) hp h

omit [Fintype ι] in
/-- A method starts at a point it passes. -/
theorem enter_passes {m : Method} (h : RawMutex.enter t m.op s = some (s', .goto p)) :
    m.passes p = true := by
  cases m with
  | dropRef | dropMut =>
    simp only [Method.op, RawMutex.enter] at h
    split_ifs at h
    cases h
    rfl
  | _ =>
    cases h
    rfl

end Access

/-! ### Runs

The view of the lock, and the guards that the program points of the methods have. -/

/-- **What holds along every run**: the run of the lock, with every operation inside its method, and
a guard for every access that takes one. -/
structure Guarded (adaptive : ℕ) (c : Config ι (Store ι α) (Pc α)) : Prop where
  view : Reach (RawMutex.rawMutex adaptive) Always RawMutex.init (c.view Store.mutex Pc.raw)
  owns : ∀ t ref, (c.pcs t).bind Pc.guard = some ref → 0 < c.shared.guards ref t
  inside : ∀ t m p, c.pcs t = some (.mutex m p) → m.passes p = true

section Runs

variable {c : Config ι (Store ι α) (Pc α)} {t u : ι} {r : Store ι α × Outcome (Pc α) (Ret α)}

/-- The word accounts for the guards. -/
theorem Guarded.accounts (h : Guarded adaptive c) : RawMutex.Accounts c.shared.mutex :=
  (RawMutex.reach_accounts h.view).1

omit [Fintype ι] [DecidableEq ι] in
/-- A step of the lock takes no guard from another thread. -/
theorem guards_le {s s' : Store ι α} (h : s.mutex.shared u ≤ s'.mutex.shared u ∧
    s.mutex.exclusive u ≤ s'.mutex.exclusive u) (ref : Bool) : s.guards ref u ≤
      s'.guards ref u := by
  cases ref
  · exact h.2
  · exact h.1

/-- The guards of the others after a step of `t`. -/
theorem Guarded.owns_put (h : Guarded adaptive c)
    (hself : ∀ ref, r.2.pc.bind Pc.guard = some ref → 0 < r.1.guards ref t)
    (hle : ∀ u, u ≠ t → ∀ ref, c.shared.guards ref u ≤ r.1.guards ref u) (u : ι) (ref : Bool)
    (hu : ((c.put t r).pcs u).bind Pc.guard = some ref) : 0 < (c.put t r).shared.guards ref u := by
  by_cases hut : u = t
  · subst hut
    rw [Config.put_pcs_self] at hu
    exact hself ref hu
  · rw [Config.put_pcs_of_ne _ _ hut] at hu
    exact (h.owns u ref hu).trans_le (hle u hut ref)

/-- The methods after a step of `t`. -/
theorem Guarded.inside_put (h : Guarded adaptive c)
    (hself : ∀ m p, r.2.pc = some (.mutex m p) → m.passes p = true) (u : ι) (m : Method)
    (p : RawMutex.Pc) (hu : (c.put t r).pcs u = some (.mutex m p)) : m.passes p = true := by
  by_cases hut : u = t
  · subst hut
    rw [Config.put_pcs_self] at hu
    exact hself m p hu
  · rw [Config.put_pcs_of_ne _ _ hut] at hu
    exact h.inside u m p hu

/-- The run of the lock after an access. -/
theorem view_put_exec {ok : Config ι (RawMutex.Store ι) RawMutex.Pc → Label ι (RawMutex.Op ι) →
    Prop} {ch : Choice ι}
    {p : Pc α} (h : Reach (RawMutex.rawMutex adaptive) ok RawMutex.init (c.view Store.mutex Pc.raw))
    (hok : ok (c.view Store.mutex Pc.raw) (.exec t ch)) (hpc : c.pcs t = some p)
    (he : RwLock.exec adaptive t ch c.shared p = some r) :
    Reach (RawMutex.rawMutex adaptive) ok RawMutex.init ((c.put t r).view Store.mutex Pc.raw) := by
  cases exec_moves he with
  | @mutex m p x hx =>
    obtain ⟨hm, -, hraw, -⟩ := mutexStep_pc c.shared m x
    have hview : (RawMutex.rawMutex adaptive).exec t ch c.shared.mutex p =
        some ((mutexStep c.shared m x).1.mutex, x.2) := by
      rw [hm]
      exact hx
    exact h.view_exec ch hok hpc rfl hview hraw
  | @looks _ e hp =>
    have hraw : p.raw = none := by
      cases p with
      | mutex => cases hp
      | _ => rfl
    refine h.view_same rfl ?_
    rw [hpc]
    exact hraw.symm
  | writes =>
    refine h.view_same rfl ?_
    rw [hpc]
    rfl

/-- The run of the lock after the start of a call. -/
theorem view_put_enter {ok : Config ι (RawMutex.Store ι) RawMutex.Pc → Label ι (RawMutex.Op ι) →
    Prop} {op : Op ι α}
    (h : Reach (RawMutex.rawMutex adaptive) ok RawMutex.init (c.view Store.mutex Pc.raw))
    (hok : ∀ op, ok (c.view Store.mutex Pc.raw) (.call t op)) (hpc : c.pcs t = none)
    (he : RwLock.enter t op c.shared = some r) :
    Reach (RawMutex.rawMutex adaptive) ok RawMutex.init ((c.put t r).view Store.mutex Pc.raw) := by
  have hnone : (c.pcs t).bind Pc.raw = none := by rw [hpc, Option.bind_none]
  cases enter_starts he with
  | @method m x hx =>
    obtain ⟨hm, -, hraw, -⟩ := mutexStep_pc c.shared m x
    refine h.view_call m.op (o := x.2) (hok _) hnone ?_ hraw
    rw [hm]
    exact hx
  | @looks p hp hg => exact h.view_same rfl (hp.trans hnone.symm)
  | @sends op x hx hr => exact h.view_call op (o := x.2) (hok _) hnone hx hr

/-- Every access keeps the guards backed by holds. -/
theorem Guarded.exec (h : Guarded adaptive c) {ch : Choice ι} {p : Pc α} (hpc : c.pcs t = some p)
    (he : RwLock.exec adaptive t ch c.shared p = some r) : Guarded adaptive (c.put t r) := by
  have hview := view_put_exec h.view trivial hpc he
  cases exec_moves he with
  | @mutex m p x hx =>
    obtain ⟨hm, -, -, hguard⟩ := mutexStep_pc c.shared m x
    have hk := (RawMutex.reach_accounts h.view).2 t p (by rw [Config.view_pcs, hpc]; rfl)
    have hwithin : Within α t m _ x.1 x.2 := exec_within (h.inside t m p hpc) hk hx
    refine ⟨hview, h.owns_put ?_ fun u hu ref ↦ ?_, h.inside_put fun m' p' hp' ↦ ?_⟩
    · intro ref hc
      rw [hguard] at hc
      cases hc
    · refine guards_le ?_ ref
      rw [hm]
      exact (RawMutex.exec_word hk hx).shares_le hu
    · obtain ⟨x, o⟩ := x
      cases o with
      | goto q =>
        cases hp'
        exact hwithin
      | ret e => cases hp'
  | looks =>
    exact ⟨hview, h.owns_put (fun ref hc ↦ by cases hc) fun _ _ _ ↦ le_rfl,
      h.inside_put fun _ _ hc ↦ by cases hc⟩
  | writes =>
    refine ⟨hview, h.owns_put (fun ref hc ↦ by cases hc) fun _ _ ref ↦ ?_,
      h.inside_put fun _ _ hc ↦ by cases hc⟩
    cases ref <;> exact le_rfl

/-- So does the start of every call. -/
theorem Guarded.enter (h : Guarded adaptive c) {op : Op ι α} (hpc : c.pcs t = none)
    (he : RwLock.enter t op c.shared = some r) : Guarded adaptive (c.put t r) := by
  have hview := view_put_enter h.view (fun _ ↦ trivial) hpc he
  cases enter_starts he with
  | @method m x hx =>
    obtain ⟨hm, -, -, hguard⟩ := mutexStep_pc c.shared m x
    refine ⟨hview, h.owns_put ?_ fun u hu ref ↦ ?_, h.inside_put fun m' p' hp' ↦ ?_⟩
    · intro ref hc
      rw [hguard] at hc
      cases hc
    · refine guards_le ?_ ref
      rw [hm]
      exact (RawMutex.enter_spec hx).2.2.2.2.2.2 u hu
    · obtain ⟨y, o⟩ := x
      cases o with
      | goto q =>
        cases hp'
        exact enter_passes hx
      | ret e => cases hp'
  | @looks p hp hg =>
    refine ⟨hview, h.owns_put hg fun _ _ _ ↦ le_rfl, h.inside_put fun m p' hp' ↦ ?_⟩
    cases hp'
    cases hp
  | @sends op x hx hr =>
    refine ⟨hview, h.owns_put (fun ref hc ↦ by cases hc) ?_, h.inside_put fun _ _ hc ↦ by cases hc⟩
    exact fun u hu ref ↦ guards_le ((RawMutex.enter_spec hx).2.2.2.2.2.2 u hu) ref

/-- Every guard is backed by a hold along every run. -/
theorem reach_guarded {ok : Config ι (Store ι α) (Pc α) → Label ι (Op ι α) → Prop} {x : α}
    (h : Reach (rwLock adaptive) ok (init x) c) : Guarded adaptive c := by
  refine h.invariant ⟨.refl, fun t ref hc ↦ ?_, fun t m p hc ↦ ?_⟩ ?_ ?_
  · cases hc
  · cases hc
  · exact fun c t op r _ hI _ hpc he ↦ hI.enter hpc he
  · exact fun c t ch p r _ hI _ hpc he ↦ hI.exec hpc he

/-! ### What the guards guarantee

Verdicts, exclusion and stability, all read off the accounting of the word. -/

/-- Live guards of a kind. -/
def live (s : Store ι α) (ref : Bool) : ℕ := tally (s.guards ref)

/-- A live guard and the word: a `WatchGuardMut` excludes every other guard. -/
theorem Guarded.live_cases (h : Guarded adaptive c) :
    (live c.shared false = 1 ∧ live c.shared true = 0 ∧ count c.shared.mutex.state = writerCount) ∨
      (live c.shared false = 0 ∧ live c.shared true = count c.shared.mutex.state ∧
        count c.shared.mutex.state < writerCount) :=
  h.accounts

omit [DecidableEq ι] in
/-- The guards of one thread are among those that are live. -/
theorem Guarded.guards_le_live (c : Config ι (Store ι α) (Pc α)) (ref : Bool) (t : ι) :
    c.shared.guards ref t ≤ live c.shared ref :=
  le_tally _ t

/-- The two tests of the word, against the live guards. -/
theorem Guarded.tests (h : Guarded adaptive c) :
    isLockedExclusive c.shared.mutex.state = decide (live c.shared false = 1) ∧
      isLockedShared c.shared.mutex.state = decide (0 < live c.shared true) := by
  unfold isLockedShared isLockedExclusive
  rcases h.live_cases with ⟨hx, hs, hc⟩ | ⟨hx, hs, hc⟩
  · rw [isWriterLocked_iff.2 hc, hx, hs]
    exact ⟨rfl, rfl⟩
  · have hw : isWriterLocked c.shared.mutex.state = false := by
      rw [Bool.eq_false_iff, ne_eq, isWriterLocked_iff]
      omega
    rw [hw, readersCount_eq (by omega), hx, hs]
    exact ⟨rfl, by simp⟩

/-- A guard that is there is seen by its own test. -/
theorem Guarded.guardLocked_of_guards (h : Guarded adaptive c) {ref : Bool}
    (hpos : 0 < c.shared.guards ref t) :
    guardLocked ref c.shared.mutex.state = true := by
  obtain ⟨hx, hs⟩ := h.tests
  have hle := Guarded.guards_le_live c ref t
  cases ref with
  | true => exact hs.trans (decide_eq_true (by omega))
  | false =>
    refine hx.trans (decide_eq_true ?_)
    rcases h.live_cases with ⟨hone, -⟩ | ⟨hzero, -⟩ <;> omega

/-- No method fails an assertion of its own. -/
theorem done_ne_assertFailed (m : Method) (v : RawMutex.Ret) :
    (m.done v : Ret α) ≠ .assertFailed := by
  intro h
  cases m with
  | tryLock | tryLockShared => rcases v with _ | _ | _ <;> cases h
  | _ => cases h

omit [Fintype ι] [DecidableEq ι] in
/-- Looking at the lock hands out no guard. -/
theorem look_ne {s : Store ι α} {p : Pc α} {e : Ret α} (h : look s p = some e) :
    e ≠ .mut ∧ e ≠ .ref := by
  cases p with
  | mutex | write => cases h
  | deref ref =>
    cases h
    split_ifs <;> simp
  | _ =>
    cases h
    simp

/-- The assertion of `deref` never fails. -/
theorem Guarded.not_assertFailed (h : Guarded adaptive c) {ch : Choice ι} {p : Pc α}
    (hpc : c.pcs t = some p) (he : RwLock.exec adaptive t ch c.shared p = some r) :
    r.2 ≠ .ret .assertFailed := by
  intro hr
  cases exec_moves he with
  | @mutex m q y =>
    obtain ⟨y, o⟩ := y
    cases o with
    | goto q' => cases hr
    | ret v => exact done_ne_assertFailed m v (Outcome.ret.inj hr)
  | @looks _ e hp =>
    cases p with
    | deref ref =>
      have hlocked := h.guardLocked_of_guards (h.owns t ref (by rw [hpc]; rfl))
      rw [look, hlocked] at hp
      cases hp
      cases hr
    | mutex | write => cases hp
    | _ =>
      cases hp
      cases hr
  | writes => cases hr

/-- A guard is handed out only if no live guard conflicts with it, and is recorded. -/
theorem Guarded.gives (h : Guarded adaptive c) {ch : Choice ι} {p : Pc α} {s' : Store ι α}
    {e : Ret α} (hpc : c.pcs t = some p)
    (he : RwLock.exec adaptive t ch c.shared p = some (s', .ret e)) :
    (e = .mut → live c.shared true = 0 ∧ live c.shared false = 0 ∧ s'.guards false t = 1) ∧
      (e = .ref → live c.shared false = 0 ∧ s'.guards true t = c.shared.guards true t + 1) := by
  have hlive := h.live_cases
  generalize hr : (s', Outcome.ret e) = r at he
  cases exec_moves he with
  | @mutex m q y hy =>
    have hk : RawMutex.Knows t c.shared.mutex q :=
      (RawMutex.reach_accounts h.view).2 t q (by rw [Config.view_pcs, hpc]; rfl)
    have hwithin : Within α t m c.shared.mutex y.1 y.2 := exec_within (h.inside t m q hpc) hk hy
    obtain ⟨y, o⟩ := y
    cases o with
    | goto q' => cases hr
    | ret v =>
      cases hr
      refine ⟨fun he' ↦ ?_, fun he' ↦ ?_⟩
      · rw [Within, he'] at hwithin
        obtain ⟨hcount, w, rfl⟩ := hwithin
        have hne : (0 : ℕ) ≠ writerCount := by decide
        have hx : live c.shared false = 0 := by omega
        have hzero := Guarded.guards_le_live c false t
        refine ⟨by omega, hx, (Function.update_self ..).trans ?_⟩
        exact congrArg (· + 1) (Nat.eq_zero_of_le_zero (hzero.trans_eq hx))
      · rw [Within, he'] at hwithin
        obtain ⟨hcount, w, rfl⟩ := hwithin
        exact ⟨by omega, Function.update_self ..⟩
  | looks hp =>
    cases hr
    exact ⟨fun he' ↦ absurd he' (look_ne hp).1, fun he' ↦ absurd he' (look_ne hp).2⟩
  | writes =>
    cases hr
    simp

/-- A live guard shows in the word. -/
theorem Guarded.isLocked_of_live (h : Guarded adaptive c)
    (hpos : 0 < live c.shared true + live c.shared false) :
    RawMutex.isLocked c.shared.mutex = true := by
  refine bne_iff_ne.2 fun hz ↦ ?_
  have hlive := h.live_cases
  rw [hz, count_unlocked] at hlive
  have hne : (0 : ℕ) ≠ writerCount := by decide
  omega

/-- **What a call returns.** A guard is handed out only when no guard is live that it conflicts
with, and it is then one of the thread; the assertion of `deref` never fails; and the tests tell
which guards are live, except that `is_locked` may also see a word that parked threads have
marked. -/
theorem verdicts_exact {x : α} (h : Reach (rwLock adaptive) Always (init x) c) {ch : Choice ι}
    {p : Pc α} {s' : Store ι α} {e : Ret α} (hpc : c.pcs t = some p)
    (he : RwLock.exec adaptive t ch c.shared p = some (s', .ret e)) :
    e ≠ .assertFailed ∧
      (e = .mut → live c.shared true = 0 ∧ live c.shared false = 0 ∧ s'.guards false t = 1) ∧
      (e = .ref → live c.shared false = 0 ∧ s'.guards true t = c.shared.guards true t + 1) ∧
      (p = .isLockedExclusive → e = .bool (decide (live c.shared false = 1))) ∧
      (p = .isLockedShared → e = .bool (decide (0 < live c.shared true))) ∧
      (p = .isLocked → 0 < live c.shared true + live c.shared false → e = .bool true) ∧
      ∀ ref, p = .guardIsLocked ref → e = .bool true := by
  have hG := reach_guarded h
  obtain ⟨hx, hs⟩ := hG.tests
  obtain ⟨hmut, href⟩ := hG.gives hpc he
  refine ⟨fun hc ↦ hG.not_assertFailed hpc he (congrArg _ hc), hmut, href, ?_, ?_, ?_, ?_⟩
  · rintro rfl
    cases he
    exact congrArg _ hx
  · rintro rfl
    cases he
    exact congrArg _ hs
  · rintro rfl hpos
    cases he
    exact congrArg _ (hG.isLocked_of_live hpos)
  · rintro ref rfl
    cases he
    exact congrArg _ (hG.guardLocked_of_guards (hG.owns t ref (by rw [hpc]; rfl)))

/-- Thread `0` has a `WatchGuardMut`, and thread `1` asks. -/
theorem verdicts_exact_busy :
    ∃ c, Reach (rwLock 4) Always (init 7 : Config (Fin 2) (Store (Fin 2) ℕ) (Pc ℕ)) c ∧
      RwLock.exec 4 1 .go c.shared .isLockedExclusive = some (c.shared, .ret (.bool true)) ∧
      live c.shared false = 1 := by
  obtain ⟨c, hc, ht⟩ := Reach.exists_of_replay (rwLock 4) Always
    (init 7 : Config (Fin 2) (Store (Fin 2) ℕ) (Pc ℕ))
    [.call 0 (.method .lockExclusive), .exec 0 .go, .call 1 .isLockedExclusive]
    (fun c ↦ decide (c.pcs 1 = some .isLockedExclusive) && isLockedExclusive c.shared.mutex.state)
      (by decide)
  obtain ⟨hpc, hlocked⟩ := Bool.and_eq_true_iff.1 ht
  have he : RwLock.exec 4 1 .go c.shared .isLockedExclusive =
      some (c.shared, .ret (.bool true)) := by
    simp only [RwLock.exec, hlocked]
  refine ⟨c, hc, he, ?_⟩
  have h := (verdicts_exact hc (of_decide_eq_true hpc) he).2.2.2.1 rfl
  exact of_decide_eq_true (Ret.bool.inj h).symm

/-- The guards of a writing thread: its own, and no other. -/
theorem Guarded.sole (h : Guarded adaptive c) (hpos : 0 < c.shared.guards false t) :
    c.shared.guards false t = 1 ∧ live c.shared true = 0 ∧ ∀ u, u ≠ t →
      c.shared.guards false u = 0 := by
  have hlive := h.live_cases
  have hle := Guarded.guards_le_live c false t
  refine ⟨by omega, by omega, fun u hu ↦ ?_⟩
  have hadd : c.shared.guards false t + c.shared.guards false u ≤ live c.shared false :=
    add_le_tally _ (Ne.symm hu)
  omega

/-- **Accesses do not race.** While a thread is about to write the value, it has the only guard, and
no other thread is at a use of a guard, be it a read, a write or the assertion before. -/
theorem no_race {x y : α} (h : Reach (rwLock adaptive) Always (init x) c)
    (hpc : c.pcs t = some (.write y)) :
    c.shared.guards false t = 1 ∧ live c.shared true = 0 ∧
      ∀ u, u ≠ t → c.shared.guards false u = 0 ∧ (c.pcs u).bind Pc.guard = none := by
  have hG := reach_guarded h
  obtain ⟨hone, hrefs, hothers⟩ := hG.sole (hG.owns t false (by rw [hpc]; rfl))
  refine ⟨hone, hrefs, fun u hu ↦ ⟨hothers u hu, ?_⟩⟩
  cases hq : (c.pcs u).bind Pc.guard with
  | none => rfl
  | some ref =>
    have hpos := hG.owns u ref hq
    have hle := Guarded.guards_le_live c ref u
    have hmut := hothers u hu
    cases ref <;> omega

/-- Thread `0` is about to write while thread `1` waits for the lock. -/
theorem no_race_waiting :
    ∃ c, Reach (rwLock 4) Always (init 7 : Config (Fin 2) (Store (Fin 2) ℕ) (Pc ℕ)) c ∧
      (c.pcs 1).isSome ∧ (c.pcs 1).bind Pc.guard = none := by
  obtain ⟨c, hc, ht⟩ := Reach.exists_of_replay (rwLock 4) Always
    (init 7 : Config (Fin 2) (Store (Fin 2) ℕ) (Pc ℕ))
    [.call 0 (.method .lockExclusive), .exec 0 .go, .call 1 (.method .lockShared), .exec 1 .go,
      .call 0 (.write 8)]
    (fun c ↦ decide (c.pcs 0 = some (.write 8)) && (c.pcs 1).isSome) (by decide)
  obtain ⟨hpc, hsome⟩ := Bool.and_eq_true_iff.1 ht
  exact ⟨c, hc, hsome, ((no_race hc (of_decide_eq_true hpc)).2.2 1 (by decide)).2⟩

/-- The thread is about to write. -/
def writing : Option (Pc α) → Bool
  | some (.write _) => true
  | _ => false

/-- `t` has a guard before the step, and the step is not a write of its own. -/
def Holds (t : ι) (c : Config ι (Store ι α) (Pc α)) (l : Label ι (Op ι α)) : Prop :=
  0 < c.shared.guards true t + c.shared.guards false t ∧ ¬ (l.thread = t ∧ writing (c.pcs t) = true)

instance (t : ι) (c : Config ι (Store ι α) (Pc α)) (l : Label ι (Op ι α)) :
    Decidable (Holds t c l) :=
  inferInstanceAs (Decidable (_ ∧ _))

/-- Only a write changes the value. -/
theorem data_step {l : Label ι (Op ι α)} {c' : Config ι (Store ι α) (Pc α)}
    (hn : (rwLock adaptive).next c l = some c') :
    c'.shared.data = c.shared.data ∨ writing (c.pcs l.thread) = true := by
  obtain ⟨t, op, r, rfl, -, he, rfl⟩ | ⟨t, ch, p, r, rfl, hpc, he, rfl⟩ := Object.next_cases hn
  · left
    cases enter_starts he with
    | @method m x hx => exact (mutexStep_pc c.shared m x).2.1
    | looks | sends => rfl
  · cases exec_moves he with
    | @mutex m p x hx => exact Or.inl (mutexStep_pc c.shared m x).2.1
    | looks => exact Or.inl rfl
    | writes =>
      right
      rw [Label.thread, hpc]
      rfl

/-- **A guard keeps the value in place.** As long as a thread has a guard, of either kind, the value
does not change but by the writes of that thread: not through guards of other threads, and not while
guards are taken, handed over or dropped. -/
theorem guard_stable {x : α} (h : Reach (rwLock adaptive) Always (init x) c) (t : ι)
    {c' : Config ι (Store ι α) (Pc α)} (h' : Reach (rwLock adaptive) (Holds t) c c') :
    c'.shared.data = c.shared.data := by
  induction h' with
  | refl => rfl
  | @tail d d' l hd hok hn ih =>
    rw [← ih]
    rcases data_step hn with hsame | hwrites
    · exact hsame
    · -- the writing thread has the only guard, so it is `t`
      have hG := reach_guarded (h.trans (hd.mono fun _ _ _ ↦ trivial))
      have hguard : (d.pcs l.thread).bind Pc.guard = some false := by
        cases hq : d.pcs l.thread with
        | none =>
          rw [hq] at hwrites
          cases hwrites
        | some q =>
          rw [hq] at hwrites
          cases q with
          | write => rfl
          | _ => cases hwrites
      obtain ⟨-, hrefs, hothers⟩ := hG.sole (hG.owns _ false hguard)
      have hlt : l.thread = t := by
        by_contra hne
        have hmut := hothers t (Ne.symm hne)
        have hle := Guarded.guards_le_live d true t
        have := hok.1
        omega
      exact absurd ⟨hlt, hlt ▸ hwrites⟩ hok.2

/-- Thread `0` keeps a `WatchGuardRef` while thread `1` asks for the lock. -/
theorem guard_stable_reading :
    ∃ c c', Reach (rwLock 4) (Holds 0) (c : Config (Fin 2) (Store (Fin 2) ℕ) (Pc ℕ)) c' ∧
      (c'.pcs 1).isSome ∧ c'.shared.data = c.shared.data := by
  obtain ⟨c, hc, ht⟩ := Reach.exists_of_replay (rwLock 4) Always
    (init 7 : Config (Fin 2) (Store (Fin 2) ℕ) (Pc ℕ))
    [.call 0 (.method .lockShared), .exec 0 .go, .exec 0 .go]
    (fun c ↦ ((rwLock 4).replay (Holds 0) c [.call 1 (.method .lockExclusive), .exec 1 .go]).any
      fun c' ↦ (c'.pcs 1).isSome) (by decide)
  obtain ⟨c', hc', hsome⟩ := Reach.exists_of_replay (rwLock 4) (Holds 0) c
    [.call 1 (.method .lockExclusive), .exec 1 .go] (fun c' ↦ (c'.pcs 1).isSome) ht
  exact ⟨c, c', hc', hsome, guard_stable hc 0 hc'⟩

end Runs

end RwLock

end Crossync
