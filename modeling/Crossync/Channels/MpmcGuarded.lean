import Crossync.Core.SCondVarTokens
import Crossync.Core.SMutexHolds
import Crossync.Atomic.VecSerial
import Crossync.Channels.Mpmc

/-!
# The critical sections of `Mpmc`

What the channel makes of its three components. Seen from the lock, a run of the channel is a run of
the condition variable with its lock; a thread has one guard from the end of `lock` to the release,
and none anywhere else (`share`), so at most one thread is inside a critical section. Seen from the
queue, it is a run of calls that do not overlap, which is what `AtomicVec` needs to be a plain
queue.

The two need each other: the queue is used by one thread at a time because of the lock, and the lock
is released by everybody who took it because no call of the queue panics. `Guarded` is their
conjunction.

## How the components are used

Each component comes with its own results about its own runs. The work here is to show that what the
channel does is such a run: every access of the channel moves the view of a component by one of its
steps, or not at all. From then on the guards of the lock, the discipline of the condition variable
and the order of the queue are available for the configurations of the channel without further
proof.
-/

open Interleave

namespace Crossync

namespace Mpmc

variable {ι α : Type*} [Fintype ι] [DecidableEq ι] {ids : SMutex.ThreadIds ι}
  {vids : Coord.ThreadIds ι}
  {adaptive first : ℕ}

/-- The program point of the lock and of the condition variable inside a program point. -/
def lockPc : Pc ι α → Option SCondVar.Pc
  | .sendLock _ p | .tryLock p | .recvLock p | .closeLock p | .recvDrop p
  | .unlock _ p => some (.mutex p)
  | .sendNotify _ pt | .closeNotify pt => some (.notify pt)
  | .recvWait pt => some (.wait false pt)
  | _ => none

/-- The program point of the queue inside a program point. -/
def bufferPc : Pc ι α → Option (AtomicVec.Pc ι α)
  | .sendLen _ p | .sendPush _ p | .tryPop p | .recvPop p => some p
  | _ => none

/-- The guards of a thread. -/
def share : Option (Pc ι α) → ℕ
  | none | some (.sendLock _ _) | some (.tryLock _) | some (.recvLock _) | some (.closeLock _) => 0
  | some (.recvWait .register) => 1
  | some (.recvDrop p) | some (.unlock _ p) | some (.recvWait (.unlock p)) =>
    SMutex.retains (some p)
  | some (.recvWait _) => 0
  | some _ => 1

/-- The notification is a `notify_all`. -/
def broadcasts : SCondVar.NotifyPoint → Bool
  | .loadWaiters all | .addToWake all _ | .bump all _ | .wake all _ => all

/-- Where a thread stands inside a component. -/
def Stage : Pc ι α → Prop
  | .sendLock _ p | .tryLock p | .recvLock p | .closeLock p | .recvWait (.lock p) =>
    SMutex.acquires false p = true
  | .recvDrop p | .unlock _ p | .recvWait (.unlock p) => SMutex.unlocks p = true
  | .sendLen _ p => AtomicVec.During .len p
  | .sendPush v p => AtomicVec.During (.push v) p
  | .tryPop p | .recvPop p => AtomicVec.During .pop p
  | .sendNotify _ pt => broadcasts pt = false
  | .closeNotify pt => broadcasts pt = true
  | _ => True

/-- **The channel keeps to the protocols of its components.** -/
structure Guarded (ids : SMutex.ThreadIds ι) (vids : Coord.ThreadIds ι) (adaptive first : ℕ)
    (c : Config ι (Store ι α) (Pc ι α)) : Prop where
  lockRun : Reach (SCondVar.sCondVar ids adaptive) Always SCondVar.init (c.view Store.lock lockPc)
  bufferRun : Reach (AtomicVec.atomicVec vids adaptive) AtomicVec.OneAtATime (AtomicVec.init first)
    (c.view Store.buffer bufferPc)
  exclusives : ∀ t, c.shared.lock.mutex.exclusives t = share (c.pcs t)
  stage : ∀ t p, c.pcs t = some p → Stage p

section Exclusion

variable {c : Config ι (Store ι α) (Pc ι α)} {t u : ι}

omit [Fintype ι] [DecidableEq ι] in
theorem share_of_bufferPc {p : Pc ι α} (h : bufferPc p ≠ none) : share (some p) = 1 := by
  cases p with
  | sendLen | sendPush | tryPop | recvPop => rfl
  | _ => exact absurd rfl h

/-- Two threads with a guard are one. -/
theorem eq_of_exclusives
    (hrun : Reach (SCondVar.sCondVar ids adaptive) Always SCondVar.init (c.view Store.lock lockPc))
    (ht : 0 < c.shared.lock.mutex.exclusives t) (hu : 0 < c.shared.lock.mutex.exclusives u) :
    t = u := by
  obtain ⟨h, hE⟩ := SMutex.reach_exact (SCondVar.reach_disciplined hrun).run
  have hguards : ∀ v, 0 < c.shared.lock.mutex.exclusives v → h = some v := fun v hv ↦
    hE.holder_of_guards
      (show 0 < c.shared.lock.mutex.exclusives v + c.shared.lock.mutex.nested v by omega)
  exact Option.some.inj ((hguards t ht).symm.trans (hguards u hu))

/-- **At most one thread has a guard.** -/
theorem Guarded.share_eq_zero (h : Guarded ids vids adaptive first c) (ht : 0 < share (c.pcs t))
    (hu : u ≠ t) :
    share (c.pcs u) = 0 := by
  by_contra hne
  refine hu (eq_of_exclusives h.lockRun ?_ ?_)
  · rw [h.exclusives]
    omega
  · rw [h.exclusives]
    exact ht

omit [Fintype ι] [DecidableEq ι] in
/-- Nobody else is inside the queue. -/
theorem bufferPc_eq_none (h : share (c.pcs u) = 0) : (c.pcs u).bind bufferPc = none := by
  cases hq : c.pcs u with
  | none => rfl
  | some q =>
    by_contra hne
    rw [hq, share_of_bufferPc hne] at h
    cases h

end Exclusion

/-! ### What a step can do

The accesses of the channel from the point of view of its three components. -/

/-- The store after the lock moved. -/
def Store.setMutex (s : Store ι α) (m : SMutex.Store ι) : Store ι α :=
  { s with lock := { s.lock with mutex := m } }

/-- The store after the condition variable moved. -/
def Store.setCondvar (s : Store ι α) (w : SCondVar.Words ι) : Store ι α :=
  { s with lock := { s.lock with condvar := w } }

/-- The store after the queue moved. -/
def Store.setBuffer (s : Store ι α) (b : AtomicVec.Store ι α) : Store ι α := { s with buffer := b }

/-- The calls take the lock, each with what it does next. -/
inductive Locking : (SMutex.Pc → Pc ι α) → (ι → Store ι α → Pc ι α) → Prop where
  | send (v : α) : Locking (.sendLock v) fun _ _ ↦ .sendClosed v
  | tryRecv : Locking .tryLock fun t s ↦ .tryPop (popPc t s)
  | recv : Locking .recvLock fun t s ↦ .recvPop (popPc t s)
  | close : Locking .closeLock fun _ _ ↦ .closeStore

/-- The calls that notify, each with what it then returns. -/
inductive Notifying : (SCondVar.NotifyPoint → Pc ι α) → Ret α → Prop where
  | send (v : α) : Notifying (.sendNotify v) (.sent v)
  | close : Notifying .closeNotify .unit

/-- The calls that use the queue. -/
inductive Using : (AtomicVec.Pc ι α → Pc ι α) → AtomicVec.Op α → Prop where
  | len (v : α) : Using (.sendLen v) .len
  | push (v : α) : Using (.sendPush v) (.push v)
  | tryPop : Using .tryPop .pop
  | recvPop : Using .recvPop .pop

/-- The start of `push` on the queue. -/
def pushPc (t : ι) (v : α) (s : Store ι α) : Pc ι α :=
  .sendPush v (.pushPin v (Coord.sharedPc (s.buffer.coordLock.last t)))

/-- **What an access can do.** -/
inductive Moves (ids : SMutex.ThreadIds ι) (vids : Coord.ThreadIds ι) (adaptive : ℕ) (t : ι)
    (ch : Choice ι) (s : Store ι α) (p : Pc ι α) : Store ι α → Outcome (Pc ι α) (Ret α) → Prop where
  -- the lock
  | locking {K next q q' m} (hK : Locking K next) (hp : p = K q)
      (he : SMutex.exec ids adaptive t ch s.lock.mutex q = some (m, .goto q'))
      (hq : SMutex.acquires false q' = true) :
        Moves ids vids adaptive t ch s p (s.setMutex m) (.goto (K q'))
  | locked {K next q m} (hK : Locking K next) (hp : p = K q)
      (he : SMutex.exec ids adaptive t ch s.lock.mutex q = some (m, .ret (.guard false))) :
      Moves ids vids adaptive t ch s p (s.setMutex m) (.goto (next t s))
  | unlocking {r q q' m} (hp : p = .unlock r q)
      (he : SMutex.exec ids adaptive t ch s.lock.mutex q = some (m, .goto q'))
      (hq : SMutex.unlocks q' = true) : Moves ids vids adaptive t ch s p (s.setMutex m)
        (.goto (.unlock r q'))
  | unlocked {r q m s' o} (hp : p = .unlock r q)
      (he : SMutex.exec ids adaptive t ch s.lock.mutex q = some (m, .ret .unit))
      (hf : (s', o) = finish t (s.setMutex m) r) : Moves ids vids adaptive t ch s p s' o
  | dropping {q q' m} (hp : p = .recvDrop q)
      (he : SMutex.exec ids adaptive t ch s.lock.mutex q = some (m, .goto q'))
      (hq : SMutex.unlocks q' = true) : Moves ids vids adaptive t ch s p (s.setMutex m)
        (.goto (.recvDrop q'))
  | dropped {q m} (hp : p = .recvDrop q)
      (he : SMutex.exec ids adaptive t ch s.lock.mutex q = some (m, .ret .unit)) :
      Moves ids vids adaptive t ch s p (s.setMutex m) (.goto (.recvLock .lockOwner))
  -- the condition variable
  | waiting {pt pt' l} (hp : p = .recvWait pt)
      (he : SCondVar.execWait ids adaptive t ch s.lock false pt = some (l, .goto pt')) :
      Moves ids vids adaptive t ch s p { s with lock := l } (.goto (.recvWait pt'))
  | waited {pt l} (hp : p = .recvWait pt)
      (he : SCondVar.execWait ids adaptive t ch s.lock false pt = some (l, .ret (.guard false))) :
      Moves ids vids adaptive t ch s p { s with lock := l } (.goto (.recvDrop .unlockOwner))
  | notifying {K r pt pt' w} (hK : Notifying K r) (hp : p = K pt)
      (he : SCondVar.execNotify t ch s.lock.condvar pt = some (w, .goto pt')) :
      Moves ids vids adaptive t ch s p (s.setCondvar w) (.goto (K pt'))
  | notified {K r pt w} (hK : Notifying K r) (hp : p = K pt)
      (he : SCondVar.execNotify t ch s.lock.condvar pt = some (w, .ret ())) :
      Moves ids vids adaptive t ch s p (s.setCondvar w) (.goto (.unlock r .unlockOwner))
  -- the queue
  | inside {K op q q' b} (hK : Using K op) (hp : p = K q)
      (he : AtomicVec.exec vids adaptive t ch s.buffer q = some (b, .goto q'))
      (hd : AtomicVec.During op q') (heff : AtomicVec.Effect s.buffer b q op (.goto q')) :
      Moves ids vids adaptive t ch s p (s.setBuffer b) (.goto (K q'))
  | full {v q b n} (hp : p = .sendLen v q)
      (he : AtomicVec.exec vids adaptive t ch s.buffer q = some (b, .ret (.len n)))
      (heff : AtomicVec.Effect s.buffer b q .len (.ret (.len n))) (hn : s.bounded ≤ n) :
      Moves ids vids adaptive t ch s p (s.setBuffer b)
        (.goto (.unlock (.rejected .full v) .unlockOwner))
  | fits {v q b n} (hp : p = .sendLen v q)
      (he : AtomicVec.exec vids adaptive t ch s.buffer q = some (b, .ret (.len n)))
      (heff : AtomicVec.Effect s.buffer b q .len (.ret (.len n))) (hn : n < s.bounded) :
      Moves ids vids adaptive t ch s p (s.setBuffer b) (.goto (pushPc t v (s.setBuffer b)))
  | pushed {v q b} (hp : p = .sendPush v q)
      (he : AtomicVec.exec vids adaptive t ch s.buffer q = some (b, .ret .unit))
      (heff : AtomicVec.Effect s.buffer b q (.push v) (.ret .unit)) :
      Moves ids vids adaptive t ch s p { s.setBuffer b with accepted := s.accepted ++ [(t, v)] }
        (.goto (.sendNotify v (.loadWaiters false)))
  | popped {K q b k v} (hK : Using K .pop) (hp : p = K q)
      (he : AtomicVec.exec vids adaptive t ch s.buffer q =
        some (b, .ret (.popped (some (k, some (k, v))))))
      (heff : AtomicVec.Effect s.buffer b q .pop (.ret (.popped (some (k, some (k, v)))))) :
      Moves ids vids adaptive t ch s p { s.setBuffer b with received := s.received ++ [(t, v)] }
        (.goto (.unlock (.received (some v)) .unlockOwner))
  | tryEmpty {q b} (hp : p = .tryPop q)
      (he : AtomicVec.exec vids adaptive t ch s.buffer q = some (b, .ret (.popped none)))
      (heff : AtomicVec.Effect s.buffer b q .pop (.ret (.popped none))) :
      Moves ids vids adaptive t ch s p (s.setBuffer b)
        (.goto (.unlock (.received none) .unlockOwner))
  | recvEmpty {q b} (hp : p = .recvPop q)
      (he : AtomicVec.exec vids adaptive t ch s.buffer q = some (b, .ret (.popped none)))
      (heff : AtomicVec.Effect s.buffer b q .pop (.ret (.popped none))) :
      Moves ids vids adaptive t ch s p (s.setBuffer b) (.goto .recvClosed)
  -- the flag
  | rejects {v} (hp : p = .sendClosed v) (hc : s.closed = true) :
      Moves ids vids adaptive t ch s p s (.goto (.unlock (.rejected .closed v) .unlockOwner))
  | measures {v} (hp : p = .sendClosed v) (hc : s.closed = false) (hb : 0 < s.bounded) :
      Moves ids vids adaptive t ch s p s (.goto (.sendLen v .lenHead))
  | pushes {v} (hp : p = .sendClosed v) (hc : s.closed = false) (hb : s.bounded = 0) :
      Moves ids vids adaptive t ch s p s (.goto (pushPc t v s))
  | ends (hp : p = .recvClosed) (hc : s.closed = true) :
      Moves ids vids adaptive t ch s p s (.goto (.unlock (.received none) .unlockOwner))
  | waits (hp : p = .recvClosed) (hc : s.closed = false) :
      Moves ids vids adaptive t ch s p s (.goto (.recvWait .register))
  | closes (hp : p = .closeStore) :
      Moves ids vids adaptive t ch s p
        { s.setCondvar { s.lock.condvar with
            counted := Function.update s.lock.condvar.counted t s.lock.condvar.registered } with
              closed := true }
        (.goto (.closeNotify (.loadWaiters true)))

/-- Between the release and the acquisition of a `wait`, looking for a token. -/
def looking : SCondVar.WaitPoint → Bool
  | .loadFutex | .loadToWake _ | .consume _ _ | .sleep _ | .parked => true
  | _ => false

/-- **What an access of a `wait` can do.** -/
inductive Waits (ids : SMutex.ThreadIds ι) (adaptive : ℕ) (t : ι) (ch : Choice ι)
    (l : SCondVar.Store ι) :
    SCondVar.WaitPoint → SCondVar.Store ι → Outcome SCondVar.WaitPoint SMutex.Ret → Prop where
  | registers : Waits ids adaptive t ch l .register
      { l with condvar := { l.condvar with
          waiters := l.condvar.waiters + 1
          registered := insert t l.condvar.registered } } (.goto (.unlock .unlockOwner))
  | unlocking {q q' m} (he : SMutex.exec ids adaptive t ch l.mutex q = some (m, .goto q'))
      (hq : SMutex.unlocks q' = true) :
      Waits ids adaptive t ch l (.unlock q) { l with mutex := m } (.goto (.unlock q'))
  | unlocked {q m} (he : SMutex.exec ids adaptive t ch l.mutex q = some (m, .ret .unit)) :
      Waits ids adaptive t ch l (.unlock q) { l with mutex := m } (.goto .loadFutex)
  | looks {pt pt' f} (hpt : looking pt = true) (hpt' : looking pt' = true) :
      Waits ids adaptive t ch l pt { l with condvar := { l.condvar with futex := f } } (.goto pt')
  | consumes {v k} (hk : l.condvar.toWake = k) : Waits ids adaptive t ch l (.consume v k)
      { l with condvar := { l.condvar with toWake := k - 1 }.served t } (.goto .deregister)
  | deregisters : Waits ids adaptive t ch l .deregister
      { l with condvar := { l.condvar with waiters := l.condvar.waiters - 1 } }
        (.goto (.lock .lockOwner))
  | locking {q q' m} (he : SMutex.exec ids adaptive t ch l.mutex q = some (m, .goto q'))
      (hq : SMutex.acquires false q' = true) :
      Waits ids adaptive t ch l (.lock q) { l with mutex := m } (.goto (.lock q'))
  | locked {q m} (he : SMutex.exec ids adaptive t ch l.mutex q = some (m, .ret (.guard false))) :
      Waits ids adaptive t ch l (.lock q) { l with mutex := m } (.ret (.guard false))

section Steps

variable {c : Config ι (Store ι α) (Pc ι α)} {t : ι} {ch : Choice ι} {s' : Store ι α} {p : Pc ι α}
  {o : Outcome (Pc ι α) (Ret α)}

/-- A release of the lock from inside a call ends. -/
theorem Guarded.release (h : Guarded ids vids adaptive first c) (hpc : c.pcs t = some p)
    {q : SMutex.Pc} (hp : (lockPc p).bind SCondVar.mutexPc = some q) (hq : SMutex.unlocks q = true)
    {m : SMutex.Store ι} {o' : Outcome SMutex.Pc SMutex.Ret}
    (he : SMutex.exec ids adaptive t ch c.shared.lock.mutex q = some (m, o')) :
    ((∃ q', o' = .goto q' ∧ SMutex.unlocks q' = true) ∨ o' = .ret .unit) ∧
      m.exclusives t + SMutex.retains (some q) =
        c.shared.lock.mutex.exclusives t + SMutex.retains o'.pc := by
  obtain ⟨_, hE⟩ := SMutex.reach_exact (SCondVar.reach_disciplined h.lockRun).run
  have hview : ((c.view Store.lock lockPc).view SCondVar.Store.mutex SCondVar.mutexPc).pcs t =
      some q := by
    rw [Config.view_pcs, Config.view_pcs, hpc]
    exact hp
  obtain ⟨-, -, hun, hret⟩ := SMutex.exec_unlock_share hE hview hq he
  have hrel : SMutex.releases q = true := by
    cases q with
    | unlockRecursion b => rfl
    | _ => first | rfl | cases hq
  refine ⟨?_, hret⟩
  obtain ⟨q', rfl, -⟩ | rfl := SMutex.exec_releases hE hview hrel he
  · exact Or.inl ⟨q', rfl, hun q' rfl⟩
  · exact Or.inr rfl

omit [Fintype ι] [DecidableEq ι] in
theorem lockStep_cases {s : Store ι α} {x : Option (SMutex.Store ι × Outcome SMutex.Pc SMutex.Ret)}
    {stay : SMutex.Pc → Pc ι α} {done : Store ι α → Store ι α × Outcome (Pc ι α) (Ret α)}
    (he : lockStep s x stay done = some (s', o)) :
    ∃ m o', x = some (m, o') ∧
      ((∀ q, o' = .goto q → s' = s.setMutex m ∧ o = .goto (stay q)) ∧
      ((∃ g, o' = .ret (.guard g)) ∨ o' = .ret .unit → (s', o) = done (s.setMutex m))) := by
  unfold lockStep at he
  split at he
  · cases he
  · cases he
    exact ⟨_, _, rfl, by rintro _ ⟨⟩; exact ⟨rfl, rfl⟩, by rintro (⟨g, ⟨⟩⟩ | ⟨⟨⟩⟩)⟩
  · exact ⟨_, _, rfl, (by rintro _ ⟨⟩), fun _ ↦ (Option.some.inj he).symm⟩
  · exact ⟨_, _, rfl, (by rintro _ ⟨⟩), fun _ ↦ (Option.some.inj he).symm⟩
  · rename_i m e hguard hunit
    cases he
    refine ⟨_, _, rfl, (by rintro _ ⟨⟩), ?_⟩
    rintro (⟨g, ⟨⟩⟩ | ⟨⟨⟩⟩)
    · exact absurd rfl (hguard g)
    · exact absurd rfl hunit

omit [Fintype ι] in
/-- The call is taking the lock. -/
theorem moves_locking {s : Store ι α} {K : SMutex.Pc → Pc ι α} {next : ι → Store ι α → Pc ι α}
    {q : SMutex.Pc} (hK : Locking K next) (hq : SMutex.acquires false q = true)
    {done : Store ι α → Store ι α × Outcome (Pc ι α) (Ret α)}
    (he : lockStep s (SMutex.exec ids adaptive t ch s.lock.mutex q) K done = some (s', o))
    (hdone : ∀ m, done (s.setMutex m) = (s.setMutex m, .goto (next t s))) :
    Moves ids vids adaptive t ch s (K q) s' o := by
  obtain ⟨m, o', hx, hgo, hend⟩ := lockStep_cases he
  obtain ⟨q', rfl, hq'⟩ | rfl | ⟨hf, -⟩ := SMutex.exec_acquires hq hx
  · obtain ⟨rfl, rfl⟩ := hgo q' rfl
    exact .locking hK rfl hx hq'
  · have := hend (Or.inl ⟨_, rfl⟩)
    rw [hdone] at this
    cases this
    exact .locked hK rfl hx
  · cases hf

omit [Fintype ι] [DecidableEq ι] in
theorem bufferStep_cases {s : Store ι α}
    {x : Option (AtomicVec.Store ι α × Outcome (AtomicVec.Pc ι α) (AtomicVec.Ret α))}
    {stay : AtomicVec.Pc ι α → Pc ι α}
    {done : Store ι α → AtomicVec.Ret α → Store ι α × Outcome (Pc ι α) (Ret α)}
    (he : bufferStep s x stay done = some (s', o)) :
    ∃ b o', x = some (b, o') ∧ (∀ q, o' = .goto q → s' = s.setBuffer b ∧ o = .goto (stay q)) ∧
      ∀ e, o' = .ret e → (s', o) = done (s.setBuffer b) e := by
  unfold bufferStep at he
  split at he
  · cases he
  · cases he
    exact ⟨_, _, rfl, by rintro _ ⟨⟩; exact ⟨rfl, rfl⟩, by rintro _ ⟨⟩⟩
  · exact ⟨_, _, rfl, (by rintro _ ⟨⟩), by rintro _ ⟨⟩; exact (Option.some.inj he).symm⟩

/-- **The specification of a step of the queue** from inside a call. -/
theorem Guarded.buffer (hfirst : first ≠ 0) (h : Guarded ids vids adaptive first c)
    (hpc : c.pcs t = some p) {K : AtomicVec.Pc ι α → Pc ι α} {op : AtomicVec.Op α} (hK : Using K op)
    {q : AtomicVec.Pc ι α} (hp : p = K q) {b : AtomicVec.Store ι α}
    {o' : Outcome (AtomicVec.Pc ι α) (AtomicVec.Ret α)}
    (he : AtomicVec.exec vids adaptive t ch c.shared.buffer q = some (b, o')) :
    AtomicVec.Effect c.shared.buffer b q op o' ∧ ∀ q', o' = .goto q' → AtomicVec.During op q' := by
  subst hp
  have hd : AtomicVec.During op q := by
    have := h.stage t _ hpc
    cases hK <;> exact this
  have hq : bufferPc (K q) = some q := by cases hK <;> rfl
  have hview : (c.view Store.buffer bufferPc).pcs t = some q := by
    rw [Config.view_pcs, hpc]
    exact hq
  have hpos : 0 < share (c.pcs t) := by
    rw [hpc, share_of_bufferPc (by rw [hq]; simp)]
    exact Nat.one_pos
  have hother : ∀ u, u ≠ t → (c.view Store.buffer bufferPc).pcs u = none := fun u hu ↦
    bufferPc_eq_none (h.share_eq_zero hpos hu)
  refine ⟨AtomicVec.exec_effect hfirst h.bufferRun hview hother hd he, ?_⟩
  rintro q' rfl
  obtain ⟨q'', ⟨⟩, hd'⟩ | ⟨e, ⟨⟩, -⟩ | ⟨⟨⟩⟩ := AtomicVec.exec_continues hd he
  exact hd'

theorem looking_tokenLoop (v k : ℕ) : looking (SCondVar.tokenLoop v k) = true := by
  unfold SCondVar.tokenLoop
  split_ifs <;> rfl

/-- **Every access of a `wait` does what it can**, since the thread has the guard that it gives
up. -/
theorem Guarded.wait_moves (h : Guarded ids vids adaptive first c) {pt : SCondVar.WaitPoint}
    {l : SCondVar.Store ι} {o' : Outcome SCondVar.WaitPoint SMutex.Ret}
    (hpc : c.pcs t = some (.recvWait pt))
    (he : SCondVar.execWait ids adaptive t ch c.shared.lock false pt = some (l, o')) :
    Waits ids adaptive t ch c.shared.lock pt l o' := by
  have hstage := h.stage t _ hpc
  cases pt with
  | register =>
    cases he
    exact .registers
  | unlock q =>
    simp only [SCondVar.execWait] at he
    split at he
    · cases he
    · rename_i m q' hm
      cases he
      obtain ⟨⟨q'', ⟨⟩, hq'⟩ | ⟨⟨⟩⟩, -⟩ := h.release hpc rfl hstage hm
      exact .unlocking hm hq'
    · rename_i m hm
      cases he
      exact .unlocked hm
    · rename_i m e hne hm
      obtain ⟨⟨_, ⟨⟩, -⟩ | ⟨⟨⟩⟩, -⟩ := h.release hpc rfl hstage hm
      exact absurd rfl hne
  | loadFutex =>
    cases he
    exact .looks rfl rfl
  | loadToWake v =>
    cases he
    exact .looks rfl (looking_tokenLoop v _)
  | consume v k =>
    simp only [SCondVar.execWait] at he
    split at he
    · rename_i k' hcas
      cases he
      obtain ⟨hk, rfl⟩ := casWeak_eq_ok hcas
      exact .consumes hk
    · cases he
      exact .looks rfl (looking_tokenLoop v _)
  | sleep v | parked =>
    simp only [SCondVar.execWait] at he
    split at he
    all_goals cases he
    all_goals exact .looks rfl rfl
  | deregister =>
    cases he
    exact .deregisters
  | lock q =>
    simp only [SCondVar.execWait] at he
    split at he
    · cases he
    · rename_i m q' hm
      cases he
      obtain ⟨q'', ⟨⟩, hq'⟩ | ⟨⟨⟩⟩ | ⟨⟨⟩, -⟩ := SMutex.exec_acquires hstage hm
      exact .locking hm hq'
    · rename_i m e hm
      cases he
      obtain ⟨_, ⟨⟩, -⟩ | ⟨⟨⟩⟩ | ⟨⟨⟩, -⟩ := SMutex.exec_acquires hstage hm
      exact .locked hm

/-- `wait` ends with the guard of its last acquisition. -/
theorem Guarded.wait_ends (h : Guarded ids vids adaptive first c) {pt : SCondVar.WaitPoint}
    {l : SCondVar.Store ι} {e : SMutex.Ret} (hpc : c.pcs t = some (.recvWait pt))
    (he : SCondVar.execWait ids adaptive t ch c.shared.lock false pt = some (l, .ret e)) :
    e = .guard false := by
  cases h.wait_moves hpc he with
  | locked => rfl

/-- **Every access moves as it can.** -/
theorem exec_moves (hfirst : first ≠ 0) (h : Guarded ids vids adaptive first c)
    (hpc : c.pcs t = some p) (he : exec ids vids adaptive t ch c.shared p = some (s', o)) :
    Moves ids vids adaptive t ch c.shared p s' o := by
  have hstage := h.stage t p hpc
  cases p with
  | sendLock v q =>
    simp only [exec] at he
    exact moves_locking (.send v) hstage he fun _ ↦ rfl
  | tryLock q =>
    simp only [exec] at he
    exact moves_locking .tryRecv hstage he fun _ ↦ rfl
  | recvLock q =>
    simp only [exec] at he
    exact moves_locking .recv hstage he fun _ ↦ rfl
  | closeLock q =>
    simp only [exec] at he
    exact moves_locking .close hstage he fun _ ↦ rfl
  | unlock r q =>
    simp only [exec] at he
    obtain ⟨m, o', hx, hgo, hend⟩ := lockStep_cases he
    obtain ⟨⟨q', rfl, hq'⟩ | rfl, -⟩ := h.release hpc rfl hstage hx
    · obtain ⟨rfl, rfl⟩ := hgo q' rfl
      exact .unlocking rfl hx hq'
    · exact .unlocked rfl hx (hend (Or.inr rfl))
  | recvDrop q =>
    simp only [exec] at he
    obtain ⟨m, o', hx, hgo, hend⟩ := lockStep_cases he
    obtain ⟨⟨q', rfl, hq'⟩ | rfl, -⟩ := h.release hpc rfl hstage hx
    · obtain ⟨rfl, rfl⟩ := hgo q' rfl
      exact .dropping rfl hx hq'
    · cases hend (Or.inr rfl)
      exact .dropped rfl hx
  | sendClosed v =>
    simp only [exec] at he
    split_ifs at he with hc hb
    · cases he
      exact .rejects rfl hc
    · cases he
      exact .measures rfl (by simpa using hc) hb
    · cases he
      exact .pushes rfl (by simpa using hc) (by omega)
  | recvClosed =>
    simp only [exec] at he
    split_ifs at he with hc
    · cases he
      exact .ends rfl hc
    · cases he
      exact .waits rfl (by simpa using hc)
  | closeStore =>
    cases he
    exact .closes rfl
  | sendNotify v pt =>
    simp only [exec] at he
    split at he
    · cases he
    · rename_i hx
      cases he
      exact .notifying (.send v) rfl hx
    · rename_i hx
      cases he
      exact .notified (.send v) rfl hx
  | closeNotify pt =>
    simp only [exec] at he
    split at he
    · cases he
    · rename_i hx
      cases he
      exact .notifying .close rfl hx
    · rename_i hx
      cases he
      exact .notified .close rfl hx
  | sendLen v q =>
    simp only [exec] at he
    obtain ⟨b, o', hx, hgo, hend⟩ := bufferStep_cases he
    obtain ⟨heff, hd⟩ := h.buffer hfirst hpc (.len v) rfl hx
    cases o' with
    | goto q' =>
      obtain ⟨rfl, rfl⟩ := hgo q' rfl
      exact .inside (.len v) rfl hx (hd q' rfl) heff
    | ret e =>
      have hdone := hend e rfl
      cases heff with
      | measured hpu hpo =>
        simp only [leave, pushNext] at hdone
        split_ifs at hdone with hn
        · cases hdone
          exact .full rfl hx (.measured hpu hpo) hn
        · cases hdone
          exact .fits rfl hx (.measured hpu hpo) (Nat.lt_of_not_le hn)
  | sendPush v q =>
    simp only [exec] at he
    obtain ⟨b, o', hx, hgo, hend⟩ := bufferStep_cases he
    obtain ⟨heff, hd⟩ := h.buffer hfirst hpc (.push v) rfl hx
    cases o' with
    | goto q' =>
      obtain ⟨rfl, rfl⟩ := hgo q' rfl
      exact .inside (.push v) rfl hx (hd q' rfl) heff
    | ret e =>
      have hdone := hend e rfl
      cases heff with
      | pushed hpu hpo hp =>
        cases hdone
        exact .pushed rfl hx (.pushed hpu hpo hp)
  | tryPop q =>
    simp only [exec] at he
    obtain ⟨b, o', hx, hgo, hend⟩ := bufferStep_cases he
    obtain ⟨heff, hd⟩ := h.buffer hfirst hpc .tryPop rfl hx
    cases o' with
    | goto q' =>
      obtain ⟨rfl, rfl⟩ := hgo q' rfl
      exact .inside .tryPop rfl hx (hd q' rfl) heff
    | ret e =>
      have hdone := hend e rfl
      cases heff with
      | empty hpu hpo hp hnil =>
        cases hdone
        exact .tryEmpty rfl hx (.empty hpu hpo hp hnil)
      | popped hpu hpo hp hk hv =>
        cases hdone
        exact .popped .tryPop rfl hx (.popped hpu hpo hp hk hv)
  | recvPop q =>
    simp only [exec] at he
    obtain ⟨b, o', hx, hgo, hend⟩ := bufferStep_cases he
    obtain ⟨heff, hd⟩ := h.buffer hfirst hpc .recvPop rfl hx
    cases o' with
    | goto q' =>
      obtain ⟨rfl, rfl⟩ := hgo q' rfl
      exact .inside .recvPop rfl hx (hd q' rfl) heff
    | ret e =>
      have hdone := hend e rfl
      cases heff with
      | empty hpu hpo hp hnil =>
        cases hdone
        exact .recvEmpty rfl hx (.empty hpu hpo hp hnil)
      | popped hpu hpo hp hk hv =>
        cases hdone
        exact .popped .recvPop rfl hx (.popped hpu hpo hp hk hv)
  | recvWait pt =>
    simp only [exec] at he
    split at he
    · cases he
    · rename_i l pt' hx
      cases he
      exact .waiting rfl hx
    · rename_i l g hx
      cases he
      cases h.wait_ends hpc hx
      exact .waited rfl hx
    · rename_i l e hguard hx
      exact absurd (h.wait_ends hpc hx) (hguard false)

/-- **A step keeps the protocols** if it is a step of the lock and a step of the queue, and the
guard of the thread is what its new program point asks for. A thread with a guard may count on
nobody else being inside the queue. -/
theorem Guarded.put (h : Guarded ids vids adaptive first c)
    (hlock : Reach (SCondVar.sCondVar ids adaptive) Always SCondVar.init
      ((c.put t (s', o)).view Store.lock lockPc))
    (hkeep : ∀ u, u ≠ t → s'.lock.mutex.exclusives u = c.shared.lock.mutex.exclusives u)
    (hshare : s'.lock.mutex.exclusives t = share o.pc) (hstage : ∀ q, o.pc = some q → Stage q)
    (hbuffer : (0 < share o.pc → ∀ u, u ≠ t → (c.pcs u).bind bufferPc = none) →
      Reach (AtomicVec.atomicVec vids adaptive) AtomicVec.OneAtATime (AtomicVec.init first)
        ((c.put t (s', o)).view Store.buffer bufferPc)) :
    Guarded ids vids adaptive first (c.put t (s', o)) := by
  have hex : ∀ u, s'.lock.mutex.exclusives u = share ((c.put t (s', o)).pcs u) := by
    intro u
    by_cases hu : u = t
    · subst hu
      rw [Config.put_pcs_self]
      exact hshare
    · rw [Config.put_pcs_of_ne _ _ hu, hkeep u hu]
      exact h.exclusives u
  refine ⟨hlock, hbuffer fun hpos u hu ↦ ?_, hex,
    Config.forall_put (L := fun _ _ q ↦ Stage q) hstage fun u q _ hq ↦ h.stage u q hq⟩
  refine bufferPc_eq_none ?_
  by_contra hne
  refine hu (eq_of_exclusives hlock ?_ ?_)
  · rw [Config.put_shared, hex u, Config.put_pcs_of_ne _ _ hu]
    omega
  · rw [Config.put_shared, hshare]
    exact hpos

/-! ### The lock

Which thread has a guard, read off the program points. -/

omit [Fintype ι] in
/-- An access of the lock. -/
theorem Guarded.run_mutex (h : Guarded ids vids adaptive first c) (hpc : c.pcs t = some p)
    {q : SMutex.Pc} (hp : lockPc p = some (.mutex q)) {m : SMutex.Store ι}
    {o' : Outcome SMutex.Pc SMutex.Ret}
    (he : SMutex.exec ids adaptive t ch c.shared.lock.mutex q = some (m, o'))
    (hs : s'.lock = { c.shared.lock with mutex := m }) (ho : o.pc.bind lockPc = o'.pc.map .mutex) :
    Reach (SCondVar.sCondVar ids adaptive) Always SCondVar.init
      ((c.put t (s', o)).view Store.lock lockPc) := by
  cases o' with
  | goto q' =>
    refine h.lockRun.view_exec ch trivial hpc hp (o := .goto (.mutex q')) ?_ ho.symm
    simp only [SCondVar.sCondVar, SCondVar.exec, he, hs]
  | ret e =>
    refine h.lockRun.view_exec ch trivial hpc hp (o := .ret (.mutex e)) ?_ ho.symm
    simp only [SCondVar.sCondVar, SCondVar.exec, he, hs]

omit [Fintype ι] in
/-- The start of a call of the lock or of the condition variable. -/
theorem Guarded.run_call (h : Guarded ids vids adaptive first c) (op : SCondVar.Op)
    (hp : (c.pcs t).bind lockPc = none) {q : SCondVar.Pc}
    (he : SCondVar.enter t op c.shared.lock = some (s'.lock, .goto q))
    (ho : o.pc.bind lockPc = some q) :
    Reach (SCondVar.sCondVar ids adaptive) Always SCondVar.init
      ((c.put t (s', o)).view Store.lock lockPc) :=
  h.lockRun.view_call op trivial hp he ho.symm

omit [Fintype ι] in
theorem enter_rawUnlock {l : SCondVar.Store ι} (hpos : 0 < l.mutex.exclusives t) :
    SCondVar.enter t (.mutex .rawUnlock) l = some (l, .goto (.mutex .unlockOwner)) := by
  simp only [SCondVar.enter, SMutex.enter, if_pos hpos]

omit [Fintype ι] in
/-- What an acquisition does to the guards. -/
theorem Guarded.acquire (h : Guarded ids vids adaptive first c) {q : SMutex.Pc}
    (hq : SMutex.acquires false q = true) {m : SMutex.Store ι} {o' : Outcome SMutex.Pc SMutex.Ret}
    (he : SMutex.exec ids adaptive t ch c.shared.lock.mutex q = some (m, o')) :
    (∀ u, u ≠ t → m.exclusives u = c.shared.lock.mutex.exclusives u) ∧
      m.exclusives t = if o'.pc = none then share (c.pcs t) + 1 else share (c.pcs t) := by
  obtain ⟨-, -, hx⟩ := SMutex.exec_lock_share hq he
  refine ⟨(SMutex.exec_keeps he).exclusives, ?_⟩
  rw [hx, h.exclusives]

omit [Fintype ι] [DecidableEq ι] in
/-- A thread that looks for a token has no guard. -/
theorem looking_spec {pt : SCondVar.WaitPoint} (hpt : looking pt = true) :
    share (some (.recvWait pt : Pc ι α)) = 0 ∧ Stage (.recvWait pt : Pc ι α) := by
  cases pt with
  | loadFutex | loadToWake | consume | sleep | parked => exact ⟨rfl, trivial⟩
  | _ => cases hpt

/-- What a step of `wait` does to the guards. -/
theorem Guarded.wait_share (h : Guarded ids vids adaptive first c) {pt pt' : SCondVar.WaitPoint}
    {l : SCondVar.Store ι} (hpc : c.pcs t = some (.recvWait pt))
    (he : SCondVar.execWait ids adaptive t ch c.shared.lock false pt = some (l, .goto pt')) :
    (∀ u, u ≠ t → l.mutex.exclusives u = c.shared.lock.mutex.exclusives u) ∧
      l.mutex.exclusives t = share (some (.recvWait pt' : Pc ι α)) ∧
        Stage (.recvWait pt' : Pc ι α) := by
  have hstage := h.stage t _ hpc
  have hx := h.exclusives t
  rw [hpc] at hx
  -- the accesses of the condition variable alone
  have hapart : l.mutex = c.shared.lock.mutex → share (some (.recvWait pt' : Pc ι α)) =
      share (some (.recvWait pt : Pc ι α)) → Stage (.recvWait pt' : Pc ι α) →
      (∀ u, u ≠ t → l.mutex.exclusives u = c.shared.lock.mutex.exclusives u) ∧
      l.mutex.exclusives t = share (some (.recvWait pt' : Pc ι α)) ∧
        Stage (.recvWait pt' : Pc ι α) := by
    intro hl hsh hst
    rw [hl, hsh]
    exact ⟨fun _ _ ↦ rfl, hx, hst⟩
  cases h.wait_moves hpc he with
  | registers => exact hapart rfl rfl rfl
  | unlocking hm hq =>
    obtain ⟨-, hret⟩ := h.release hpc rfl hstage hm
    refine ⟨(SMutex.exec_keeps hm).exclusives, ?_, hq⟩
    rw [h.exclusives, hpc] at hret
    exact Nat.add_right_cancel (hret.trans (Nat.add_comm _ _))
  | unlocked hm =>
    obtain ⟨-, hret⟩ := h.release hpc rfl hstage hm
    refine ⟨(SMutex.exec_keeps hm).exclusives, ?_, trivial⟩
    rw [h.exclusives, hpc] at hret
    exact Nat.add_right_cancel (hret.trans (Nat.add_comm _ _))
  | looks hpt hpt' =>
    obtain ⟨hsh, -⟩ := looking_spec (ι := ι) (α := α) hpt
    obtain ⟨hsh', hst'⟩ := looking_spec (ι := ι) (α := α) hpt'
    exact hapart rfl (hsh'.trans hsh.symm) hst'
  | consumes => exact hapart rfl rfl trivial
  | deregisters => exact hapart rfl rfl rfl
  | locking hm hq =>
    obtain ⟨hkeep, hsh⟩ := h.acquire hstage hm
    refine ⟨hkeep, ?_, hq⟩
    rw [hsh, hpc]
    rfl

/-! ### The queue

The calls of the queue do not overlap, because of the lock. -/

omit [Fintype ι] in
/-- A step that does not concern the queue. -/
theorem Guarded.buffer_same (h : Guarded ids vids adaptive first c)
    (hs : s'.buffer = c.shared.buffer) (hp : (c.pcs t).bind bufferPc = none)
    (ho : o.pc.bind bufferPc = none) :
    Reach (AtomicVec.atomicVec vids adaptive) AtomicVec.OneAtATime (AtomicVec.init first)
      ((c.put t (s', o)).view Store.buffer bufferPc) :=
  h.bufferRun.view_same hs (ho.trans hp.symm)

omit [Fintype ι] in
/-- The start of a call of the queue. -/
theorem Guarded.buffer_call (h : Guarded ids vids adaptive first c) (op : AtomicVec.Op α)
    (hok : AtomicVec.OneAtATime (c.view Store.buffer bufferPc) (.call t op))
    (hp : (c.pcs t).bind bufferPc = none) {q : AtomicVec.Pc ι α}
    (he : AtomicVec.enter t op c.shared.buffer = some (s'.buffer, .goto q))
    (ho : o.pc.bind bufferPc = some q) :
    Reach (AtomicVec.atomicVec vids adaptive) AtomicVec.OneAtATime (AtomicVec.init first)
      ((c.put t (s', o)).view Store.buffer bufferPc) :=
  h.bufferRun.view_call op hok hp he ho.symm

/-- Nobody else is inside the queue while the thread is. -/
theorem Guarded.buffer_alone (h : Guarded ids vids adaptive first c) (hpc : c.pcs t = some p)
    {q : AtomicVec.Pc ι α} (hp : bufferPc p = some q) :
    ∀ u, u ≠ t → (c.view Store.buffer bufferPc).pcs u = none := by
  intro u hu
  refine bufferPc_eq_none (h.share_eq_zero ?_ hu)
  rw [hpc, share_of_bufferPc (by rw [hp]; simp)]
  exact Nat.one_pos

/-- An access of the queue. -/
theorem Guarded.buffer_exec (h : Guarded ids vids adaptive first c) (hpc : c.pcs t = some p)
    {q : AtomicVec.Pc ι α} (hp : bufferPc p = some q)
    {o' : Outcome (AtomicVec.Pc ι α) (AtomicVec.Ret α)}
    (he : AtomicVec.exec vids adaptive t ch c.shared.buffer q = some (s'.buffer, o'))
    (ho : o'.pc = o.pc.bind bufferPc) :
    Reach (AtomicVec.atomicVec vids adaptive) AtomicVec.OneAtATime (AtomicVec.init first)
      ((c.put t (s', o)).view Store.buffer bufferPc) :=
  h.bufferRun.view_exec ch (h.buffer_alone hpc hp) hpc hp he ho

/-- The length was short of the bound, and the call goes on to push. -/
theorem Guarded.buffer_fits (h : Guarded ids vids adaptive first c) {v : α} {q : AtomicVec.Pc ι α}
    {b : AtomicVec.Store ι α} {n : ℕ} (hpc : c.pcs t = some (.sendLen v q))
    (he : AtomicVec.exec vids adaptive t ch c.shared.buffer q = some (b, .ret (.len n))) :
    Reach (AtomicVec.atomicVec vids adaptive) AtomicVec.OneAtATime (AtomicVec.init first)
      ((c.put t (c.shared.setBuffer b,
        (.goto (pushPc t v (c.shared.setBuffer b)) : Outcome (Pc ι α) (Ret α)))).view Store.buffer
          bufferPc) := by
  have hother := h.buffer_alone hpc (q := q) rfl
  refine h.bufferRun.view_exec_call ch (.push v) hother (fun u hu ↦ ?_) hpc rfl he rfl rfl
  have hut : u ≠ t := hu
  rw [Config.put_pcs_of_ne _ _ hut]
  exact hother u hut

omit [Fintype ι] in
theorem broadcasts_of_exec {w w' : SCondVar.Words ι} {pt pt' : SCondVar.NotifyPoint}
    (he : SCondVar.execNotify t ch w pt = some (w', .goto pt')) :
    broadcasts pt' = broadcasts pt := by
  cases pt with
  | loadWaiters all =>
    simp only [SCondVar.execNotify] at he
    split_ifs at he
    · cases he
      rfl
    · cases he
      rfl
    · cases he
  | addToWake | bump =>
    cases he
    rfl
  | wake all n =>
    simp only [SCondVar.execNotify] at he
    split_ifs at he
    · cases he
    · split at he
      · cases he
      · cases he

/-- An access of a notification. -/
theorem Guarded.notifying (h : Guarded ids vids adaptive first c)
    {K : SCondVar.NotifyPoint → Pc ι α} {r : Ret α} (hK : Notifying K r)
    {pt pt' : SCondVar.NotifyPoint} {w : SCondVar.Words ι} (hpc : c.pcs t = some (K pt))
    (he : SCondVar.execNotify t ch c.shared.lock.condvar pt = some (w, .goto pt')) :
    Guarded ids vids adaptive first
      (c.put t (c.shared.setCondvar w, (.goto (K pt') : Outcome (Pc ι α) (Ret α)))) := by
  have hpt := broadcasts_of_exec he
  have hstage := h.stage t _ hpc
  have hx := h.exclusives t
  rw [hpc] at hx
  have hrun : SCondVar.exec ids adaptive t ch c.shared.lock (.notify pt) =
      some ({ c.shared.lock with condvar := w }, .goto (.notify pt')) := by
    simp only [SCondVar.exec, he]
  cases hK with
  | send v =>
    exact h.put (h.lockRun.view_exec ch trivial hpc rfl hrun rfl) (fun _ _ ↦ rfl) hx
      (by rintro _ ⟨⟩; exact hpt.trans hstage) fun _ ↦ h.buffer_same rfl (by rw [hpc]; rfl) rfl
  | close =>
    exact h.put (h.lockRun.view_exec ch trivial hpc rfl hrun rfl) (fun _ _ ↦ rfl) hx
      (by rintro _ ⟨⟩; exact hpt.trans hstage) fun _ ↦ h.buffer_same rfl (by rw [hpc]; rfl) rfl

/-- The end of a notification. -/
theorem Guarded.notified (h : Guarded ids vids adaptive first c) {K : SCondVar.NotifyPoint → Pc ι α}
    {r : Ret α} (hK : Notifying K r) {pt : SCondVar.NotifyPoint} {w : SCondVar.Words ι}
    (hpc : c.pcs t = some (K pt))
    (he : SCondVar.execNotify t ch c.shared.lock.condvar pt = some (w, .ret ())) :
    Guarded ids vids adaptive first
      (c.put t (c.shared.setCondvar w,
        (.goto (.unlock r .unlockOwner) : Outcome (Pc ι α) (Ret α)))) := by
  have hK' : lockPc (K pt) = some (.notify pt) ∧ bufferPc (K pt) = none ∧
      share (some (K pt)) = 1 := by
    cases hK <;> exact ⟨rfl, rfl, rfl⟩
  obtain ⟨hl, hb, hs⟩ := hK'
  have hx := h.exclusives t
  rw [hpc, hs] at hx
  refine h.put ?_ (fun _ _ ↦ rfl) hx (by rintro _ ⟨⟩; rfl) fun _ ↦
    h.buffer_same rfl (by rw [hpc]; exact hb) rfl
  refine h.lockRun.view_exec_call ch (.mutex .rawUnlock) trivial trivial hpc hl ?_
    (enter_rawUnlock ?_) rfl
    (e := .unit)
  · simp only [SCondVar.sCondVar, SCondVar.exec, he]
    rfl
  · exact lt_of_lt_of_eq Nat.one_pos hx.symm

/-- `wait` returns with a guard. -/
theorem Guarded.waited_share (h : Guarded ids vids adaptive first c) {pt : SCondVar.WaitPoint}
    {l : SCondVar.Store ι} (hpc : c.pcs t = some (.recvWait pt))
    (he : SCondVar.execWait ids adaptive t ch c.shared.lock false pt =
      some (l, .ret (.guard false))) :
    (∀ u, u ≠ t → l.mutex.exclusives u = c.shared.lock.mutex.exclusives u) ∧
      l.mutex.exclusives t = 1 := by
  have hstage := h.stage t _ hpc
  cases h.wait_moves hpc he with
  | locked hm =>
    obtain ⟨hkeep, hsh⟩ := h.acquire hstage hm
    refine ⟨hkeep, ?_⟩
    rw [hsh, hpc]
    rfl

/-! ### Steps keep the protocols

The components' invariants along the runs of the channel. -/

/-- A step that leaves the lock alone, by the thread that holds it. -/
theorem Guarded.put_held (h : Guarded ids vids adaptive first c) (hpc : c.pcs t = some p)
    (hp : lockPc p = none) (hs : s'.lock = c.shared.lock) {q : Pc ι α} (ho : o = .goto q)
    (hq : lockPc q = none) (hshare : share (some q) = share (some p)) (hstage : Stage q)
    (hbuffer : (0 < share o.pc → ∀ u, u ≠ t → (c.pcs u).bind bufferPc = none) →
      Reach (AtomicVec.atomicVec vids adaptive) AtomicVec.OneAtATime (AtomicVec.init first)
        ((c.put t (s', o)).view Store.buffer bufferPc)) :
    Guarded ids vids adaptive first (c.put t (s', o)) := by
  subst ho
  refine h.put (h.lockRun.view_same hs ?_) (fun u _ ↦ by rw [hs]) ?_
    (by rintro _ ⟨⟩; exact hstage) hbuffer
  · rw [hpc]
    exact hq.trans hp.symm
  · rw [hs, h.exclusives, hpc]
    exact hshare.symm

/-- The call goes on to drop its guard. -/
theorem Guarded.put_leave (h : Guarded ids vids adaptive first c) (hpc : c.pcs t = some p)
    (hp : lockPc p = none) (hshare : share (some p) = 1) (hs : s'.lock = c.shared.lock) {r : Ret α}
    (ho : o = .goto (.unlock r .unlockOwner))
    (hbuffer : Reach (AtomicVec.atomicVec vids adaptive) AtomicVec.OneAtATime (AtomicVec.init first)
        ((c.put t (s', o)).view Store.buffer bufferPc)) :
    Guarded ids vids adaptive first (c.put t (s', o)) := by
  subst ho
  have hx := h.exclusives t
  rw [hpc, hshare] at hx
  refine h.put (h.run_call (.mutex .rawUnlock) (by rw [hpc]; exact hp) ?_ rfl)
    (fun u _ ↦ by rw [hs]) ?_
    (by rintro _ ⟨⟩; rfl) fun _ ↦ hbuffer
  · rw [hs]
    exact enter_rawUnlock (by omega)
  · rw [hs, hx]
    rfl

omit [Fintype ι] [DecidableEq ι] in
theorem locking_spec {K : SMutex.Pc → Pc ι α} {next : ι → Store ι α → Pc ι α} (hK : Locking K next)
    (q : SMutex.Pc) : lockPc (K q) = some (.mutex q) ∧ bufferPc (K q) = none ∧
      share (some (K q)) = 0 ∧
      (Stage (K q) ↔ SMutex.acquires false q = true) := by
  cases hK <;> exact ⟨rfl, rfl, rfl, Iff.rfl⟩

theorem moves_guarded (h : Guarded ids vids adaptive first c) (hpc : c.pcs t = some p)
    (hm : Moves ids vids adaptive t ch c.shared p s' o) :
    Guarded ids vids adaptive first (c.put t (s', o)) := by
  have hstage := h.stage t p hpc
  have hx := h.exclusives t
  rw [hpc] at hx
  cases hm with
  | locking hK hp he hq =>
    subst hp
    obtain ⟨hl, hb, hs, hst⟩ := locking_spec hK _
    obtain ⟨hl', hb', hs', hst'⟩ := locking_spec hK _
    obtain ⟨hkeep, hex⟩ := h.acquire (hst.1 hstage) he
    refine h.put (h.run_mutex hpc hl he rfl hl') hkeep ?_ (by rintro _ ⟨⟩; exact hst'.2 hq) fun _ ↦
      h.buffer_same rfl (by rw [hpc]; exact hb) hb'
    rw [hpc, hs] at hex
    exact hex.trans hs'.symm
  | locked hK hp he =>
    subst hp
    obtain ⟨hl, hb, hs, hst⟩ := locking_spec hK _
    obtain ⟨hkeep, hex⟩ := h.acquire (hst.1 hstage) he
    have hb' : (c.pcs t).bind bufferPc = none := by rw [hpc]; exact hb
    rw [hpc, hs] at hex
    cases hK with
    | send v =>
      exact h.put (h.run_mutex hpc hl he rfl rfl) hkeep hex (by rintro _ ⟨⟩; trivial) fun _ ↦
        h.buffer_same rfl hb' rfl
    | close =>
      exact h.put (h.run_mutex hpc hl he rfl rfl) hkeep hex (by rintro _ ⟨⟩; trivial) fun _ ↦
        h.buffer_same rfl hb' rfl
    | tryRecv =>
      exact h.put (h.run_mutex hpc hl he rfl rfl) hkeep hex (by rintro _ ⟨⟩; trivial) fun halone ↦
        h.buffer_call .pop (halone Nat.one_pos) hb' rfl rfl
    | recv =>
      exact h.put (h.run_mutex hpc hl he rfl rfl) hkeep hex (by rintro _ ⟨⟩; trivial) fun halone ↦
        h.buffer_call .pop (halone Nat.one_pos) hb' rfl rfl
  | unlocking hp he hq =>
    subst hp
    obtain ⟨-, hret⟩ := h.release hpc rfl hstage he
    refine h.put (h.run_mutex hpc rfl he rfl rfl) (SMutex.exec_keeps he).exclusives ?_
      (by rintro _ ⟨⟩; exact hq) fun _ ↦ h.buffer_same rfl (by rw [hpc]; rfl) rfl
    rw [hx] at hret
    exact Nat.add_right_cancel (hret.trans (Nat.add_comm _ _))
  | unlocked hp he hf =>
    subst hp
    obtain ⟨-, hret⟩ := h.release hpc rfl hstage he
    rw [hx] at hret
    have hzero := Nat.add_right_cancel (hret.trans (Nat.add_comm _ _))
    rename_i r q m
    -- whatever is recorded, the lock and the queue are where the release left them
    have hfin : s'.lock = { c.shared.lock with mutex := m } ∧ s'.buffer = c.shared.buffer ∧
        ∃ e, o = .ret e := by
      unfold finish at hf
      split at hf
      all_goals
        cases hf
        exact ⟨rfl, rfl, _, rfl⟩
    obtain ⟨hl, hb, e, rfl⟩ := hfin
    refine h.put (h.run_mutex hpc rfl he hl rfl) ?_ ?_ (by rintro _ ⟨⟩) fun _ ↦
      h.buffer_same hb (by rw [hpc]; rfl) rfl
    · rw [hl]
      exact (SMutex.exec_keeps he).exclusives
    · rw [hl]
      exact hzero
  | dropping hp he hq =>
    subst hp
    obtain ⟨-, hret⟩ := h.release hpc rfl hstage he
    refine h.put (h.run_mutex hpc rfl he rfl rfl) (SMutex.exec_keeps he).exclusives ?_
      (by rintro _ ⟨⟩; exact hq) fun _ ↦ h.buffer_same rfl (by rw [hpc]; rfl) rfl
    rw [hx] at hret
    exact Nat.add_right_cancel (hret.trans (Nat.add_comm _ _))
  | dropped hp he =>
    subst hp
    obtain ⟨-, hret⟩ := h.release hpc rfl hstage he
    rw [hx] at hret
    refine h.put ?_ (SMutex.exec_keeps he).exclusives
      (Nat.add_right_cancel (hret.trans (Nat.add_comm _ _))) (by rintro _ ⟨⟩; rfl) fun _ ↦
      h.buffer_same rfl (by rw [hpc]; rfl) rfl
    rename_i q m
    have henter : SCondVar.enter t (.mutex .lock) (c.shared.setMutex m).lock =
      some ((c.shared.setMutex m).lock, .goto (.mutex .lockOwner)) := rfl
    refine h.lockRun.view_exec_call ch (.mutex .lock) trivial trivial hpc rfl ?_ henter rfl
      (e := .mutex .unit)
    simp only [SCondVar.sCondVar, SCondVar.exec, he]
    rfl
  | waiting hp he =>
    subst hp
    obtain ⟨hkeep, hsh, hst⟩ := h.wait_share hpc he
    refine h.put ?_ hkeep hsh (by rintro _ ⟨⟩; exact hst) fun _ ↦
      h.buffer_same rfl (by rw [hpc]; rfl) rfl
    rename_i pt pt' l
    refine h.lockRun.view_exec ch trivial hpc rfl (o := .goto (.wait false pt')) ?_ rfl
    simp only [SCondVar.sCondVar, SCondVar.exec, he]
  | waited hp he =>
    subst hp
    obtain ⟨hkeep, hex⟩ := h.waited_share hpc he
    refine h.put ?_ hkeep hex (by rintro _ ⟨⟩; rfl) fun _ ↦ h.buffer_same rfl (by rw [hpc]; rfl) rfl
    refine h.lockRun.view_exec_call ch (.mutex .rawUnlock) trivial trivial hpc rfl ?_
      (enter_rawUnlock ?_) rfl (e := .mutex (.guard false))
    · simp only [SCondVar.sCondVar, SCondVar.exec, he]
    · exact lt_of_lt_of_eq Nat.one_pos hex.symm
  | notifying hK hp he =>
    subst hp
    exact h.notifying hK hpc he
  | notified hK hp he =>
    subst hp
    exact h.notified hK hpc he
  | inside hK hp he hd heff =>
    subst hp
    cases hK with
    | len | push | tryPop | recvPop =>
      exact h.put_held hpc rfl rfl rfl rfl rfl hd fun _ ↦ h.buffer_exec hpc rfl he rfl
  | full hp he heff hn =>
    subst hp
    exact h.put_leave hpc rfl rfl rfl rfl (h.buffer_exec hpc rfl he rfl)
  | fits hp he heff hn =>
    subst hp
    exact h.put_held hpc rfl rfl rfl rfl rfl rfl fun _ ↦ h.buffer_fits hpc he
  | pushed hp he heff =>
    subst hp
    refine h.put (h.run_call .notifyOne (by rw [hpc]; rfl) rfl rfl) (fun _ _ ↦ rfl) hx
      (by rintro _ ⟨⟩; rfl) fun _ ↦ h.buffer_exec hpc rfl he rfl
  | popped hK hp he heff =>
    subst hp
    cases hK with
    | tryPop | recvPop => exact h.put_leave hpc rfl rfl rfl rfl (h.buffer_exec hpc rfl he rfl)
  | tryEmpty hp he heff =>
    subst hp
    exact h.put_leave hpc rfl rfl rfl rfl (h.buffer_exec hpc rfl he rfl)
  | recvEmpty hp he heff =>
    subst hp
    exact h.put_held hpc rfl rfl rfl rfl rfl trivial fun _ ↦ h.buffer_exec hpc rfl he rfl
  | rejects hp hc | ends hp hc =>
    subst hp
    exact h.put_leave hpc rfl rfl rfl rfl (h.buffer_same rfl (by rw [hpc]; rfl) rfl)
  | measures hp hc hb =>
    subst hp
    exact h.put_held hpc rfl rfl rfl rfl rfl trivial fun halone ↦
      h.buffer_call .len (halone Nat.one_pos) (by rw [hpc]; rfl) rfl rfl
  | pushes hp hc hb =>
    subst hp
    exact h.put_held hpc rfl rfl rfl rfl rfl rfl fun halone ↦
      h.buffer_call (.push _) (halone Nat.one_pos) (by rw [hpc]; rfl) rfl rfl
  | waits hp hc =>
    subst hp
    refine h.put (h.run_call (.wait false) (by rw [hpc]; rfl) (if_pos ?_) rfl) (fun _ _ ↦ rfl) hx
      (by rintro _ ⟨⟩; trivial) fun _ ↦ h.buffer_same rfl (by rw [hpc]; rfl) rfl
    exact lt_of_lt_of_eq Nat.one_pos hx.symm
  | closes hp =>
    subst hp
    exact h.put (h.run_call .notifyAll (by rw [hpc]; rfl) rfl rfl) (fun _ _ ↦ rfl) hx
      (by rintro _ ⟨⟩; rfl) fun _ ↦ h.buffer_same rfl (by rw [hpc]; rfl) rfl

/-- The start of a call. -/
theorem enter_guarded {op : Op α} (h : Guarded ids vids adaptive first c) (hpc : c.pcs t = none)
    (he : enter t op c.shared = some (s', o)) :
    Guarded ids vids adaptive first (c.put t (s', o)) := by
  have hx := h.exclusives t
  rw [hpc] at hx
  have hl : (c.pcs t).bind lockPc = none := by rw [hpc]; rfl
  have hb : (c.pcs t).bind bufferPc = none := by rw [hpc]; rfl
  cases op with
  | send | tryRecv | recv | close =>
    cases he
    exact h.put (h.run_call (.mutex .lock) hl rfl rfl) (fun _ _ ↦ rfl) hx
      (by rintro _ ⟨⟩; rfl) fun _ ↦
      h.buffer_same rfl hb rfl
  | evict =>
    cases he
    refine h.put (h.lockRun.view_same rfl hl.symm) (fun _ _ ↦ rfl) hx (by rintro _ ⟨⟩) fun _ ↦ ?_
    exact h.bufferRun.view_call .evict trivial hb (o := .ret .unit) rfl rfl

end Steps

/-- **Every reachable configuration keeps to the protocols.** -/
theorem reach_guarded {ok : Config ι (Store ι α) (Pc ι α) → Label ι (Op α) → Prop} {n : ℕ}
    {c : Config ι (Store ι α) (Pc ι α)} (hfirst : first ≠ 0)
    (hc : Reach (mpmc ids vids adaptive) ok (init first n) c) :
    Guarded ids vids adaptive first c := by
  refine hc.invariant (I := Guarded ids vids adaptive first) ?_ ?_ ?_
  · exact ⟨.refl, .refl, fun _ ↦ rfl, by simp [init]⟩
  · rintro c t op ⟨s', o⟩ - h - hpc he
    exact enter_guarded h hpc he
  · rintro c t ch p ⟨s', o⟩ - h - hpc he
    exact moves_guarded h hpc (exec_moves hfirst h hpc he)

end Mpmc

end Crossync
