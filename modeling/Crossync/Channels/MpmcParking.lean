import Crossync.Core.SMutexParking
import Crossync.Channels.MpmcFifo

/-!
# `Mpmc` strands no receiver

A send adds one token and wakes one sleeper, and only if somebody is registered as a waiter; a
receive that was not waiting may take the value, and the receiver that was woken for it then waits
again. What holds through all of this is a balance: **while anybody is registered, every value in
the queue has a token, or a thread that will still look at the queue or still add its token**
(`Promised.values`). A thread registers only after it has found the queue empty, with the lock in
hand, so the balance starts at nothing; a value costs a token or a look when it is put in, and the
value that a look finds, or the emptiness, pays for the look.

Once the channel is closed nobody registers, so the tokens of `notify_all` last for everybody
(`Promised.closing`).

A thread asleep with everybody else gone or asleep then finds no token (`SCondVar.Tokens`) and
nobody who looks, so the queue is empty and the channel open. Nobody sleeps on the lock there,
because the lock is free (`SMutex.Covered`), and nobody on the coordination of the queue, because a
call of the queue is alone.
-/

open Interleave

namespace Crossync

namespace Mpmc

variable {ι α : Type*} [Fintype ι] [DecidableEq ι] {ids : SMutex.ThreadIds ι}
  {vids : Coord.ThreadIds ι}
  {adaptive first n : ℕ}

/-! ### The balance

What is owed to the values in the queue and to the waiters. -/

/-- The thread will look at the queue, or has put a value in and will see to its token. -/
def due : Option (Pc ι α) → ℕ
  | some (.tryLock _) | some (.recvLock _) | some (.recvDrop _) => 1
  | some (.recvWait .deregister) | some (.recvWait (.lock _)) => 1
  | some (.tryPop p) | some (.recvPop p) => if AtomicVec.claimed p = none then 1 else 0
  | some (.sendPush _ p) => if AtomicVec.reserved p then 1 else 0
  | some (.sendNotify _ (.loadWaiters _)) | some (.sendNotify _ (.addToWake _ _)) => 1
  | _ => 0

/-- The thread is closing the channel, and will add at least `k` tokens if `k` threads are
registered. -/
def Closing (k : ℕ) : Option (Pc ι α) → Prop
  | some (.closeNotify (.loadWaiters _)) => True
  | some (.closeNotify (.addToWake _ n)) => k ≤ n
  | _ => False

omit [Fintype ι] [DecidableEq ι] in
theorem Closing.mono {k k' : ℕ} {q : Option (Pc ι α)} (h : Closing k q) (hk : k' ≤ k) :
    Closing k' q := by
  unfold Closing at h ⊢
  split at h
  · trivial
  · exact hk.trans h
  · exact absurd h id

/-- **Every value and every waiter has been promised for.** -/
structure Promised (c : Config ι (Store ι α) (Pc ι α)) : Prop where
  values : c.shared.lock.condvar.registered.Nonempty →
    c.shared.content.length ≤ c.shared.lock.condvar.toWake + tally fun t ↦ due (c.pcs t)
  closing : c.shared.closed = true →
    c.shared.lock.condvar.registered.card ≤ c.shared.lock.condvar.toWake ∨
      ∃ t, Closing c.shared.lock.condvar.registered.card (c.pcs t)

/-- **What a step does to the promises.** A registration is made on an open and empty channel; every
other step takes nobody's token away, and pays for the values it leaves behind. -/
structure Settles (s s' : Store ι α) (p : Pc ι α) (q : Option (Pc ι α)) : Prop where
  registers : s'.lock.condvar.registered ⊆ s.lock.condvar.registered ∨ s'.content = [] ∧
    s'.closed = false
  tokens : s'.lock.condvar.registered ⊆ s.lock.condvar.registered →
    s'.lock.condvar.registered.card + s.lock.condvar.toWake ≤
      s.lock.condvar.registered.card + s'.lock.condvar.toWake
  pays : s'.content = [] ∨ s'.lock.condvar.registered = ∅ ∨
    s'.content.length + s.lock.condvar.toWake + due (some p) ≤
      s.content.length + s'.lock.condvar.toWake + due q
  closes : s.closed = false → s'.closed = true → ∀ k, Closing k q
  grants : Closing s.lock.condvar.registered.card (some p) →
    s'.lock.condvar.registered.card ≤ s'.lock.condvar.toWake ∨
      Closing s'.lock.condvar.registered.card q

section Steps

variable {c : Config ι (Store ι α) (Pc ι α)} {t : ι} {ch : Choice ι} {s s' : Store ι α} {p : Pc ι α}
  {o : Outcome (Pc ι α) (Ret α)} {q : Option (Pc ι α)}

omit [Fintype ι] [DecidableEq ι] in
/-- A step that leaves the words of the condition variable and the flag alone. -/
theorem Settles.apart (hr : s'.lock.condvar.registered = s.lock.condvar.registered)
    (hw : s'.lock.condvar.toWake = s.lock.condvar.toWake) (hc : s'.closed = s.closed)
    (hp : ¬ Closing s.lock.condvar.registered.card (some p))
    (hpay : s'.content = [] ∨ s'.content.length + due (some p) ≤ s.content.length + due q) :
    Settles s s' p q where
  registers := Or.inl hr.subset
  tokens _ := by rw [hr, hw]
  pays := by
    refine hpay.imp_right fun hle ↦ Or.inr ?_
    rw [hw]
    omega
  closes ho hcl := by
    rw [hc, ho] at hcl
    cases hcl
  grants h := absurd h hp

/-- **The promises survive a step** that settles what it owes. -/
theorem Promised.put (h : Promised c) (hpc : c.pcs t = some p) (hs : Settles c.shared s' p o.pc) :
    Promised (c.put t (s', o)) := by
  refine ⟨fun hne ↦ ?_, fun hcl ↦ ?_⟩
  · have htally := tally_put due c t (s', o)
    simp only [hpc] at htally
    show s'.content.length ≤ s'.lock.condvar.toWake + _
    rcases hs.pays with hnil | hnone | hpay
    · rw [hnil]
      exact Nat.zero_le _
    · exact absurd hnone hne.ne_empty
    · rcases hs.registers with hsub | ⟨hnil, -⟩
      · have := h.values (hne.mono hsub)
        omega
      · rw [hnil]
        exact Nat.zero_le _
  · by_cases hcl₀ : c.shared.closed = true
    · have hsub : s'.lock.condvar.registered ⊆ c.shared.lock.condvar.registered := by
        refine hs.registers.resolve_right fun hopen ↦ ?_
        rw [Config.put_shared, hopen.2] at hcl
        cases hcl
      have htok := hs.tokens hsub
      rcases h.closing hcl₀ with hle | ⟨u, hu⟩
      · left
        simp only [Config.put_shared]
        omega
      · by_cases hut : u = t
        · subst hut
          rw [hpc] at hu
          exact (hs.grants hu).imp_right fun hq ↦ ⟨u, by rw [Config.put_pcs_self]; exact hq⟩
        · right
          refine ⟨u, ?_⟩
          rw [Config.put_pcs_of_ne _ _ hut]
          exact hu.mono (Finset.card_le_card hsub)
    · exact Or.inr ⟨t, by rw [Config.put_pcs_self]; exact hs.closes (by simpa using hcl₀) hcl _⟩

/-! ### Every step settles

Each access pays for what it leaves behind. -/

omit [Fintype ι] [DecidableEq ι] in
theorem due_locking {K : SMutex.Pc → Pc ι α} {next : ι → Store ι α → Pc ι α} (hK : Locking K next)
    (q q' : SMutex.Pc) : due (some (K q)) = due (some (K q')) ∧
      due (some (K q)) ≤ due (some (next t s)) ∧ ∀ k, ¬ Closing k (some (K q)) := by
  cases hK with
  | send | close => exact ⟨rfl, le_rfl, fun _ ↦ id⟩
  | tryRecv | recv =>
    refine ⟨rfl, ?_, fun _ ↦ id⟩
    exact Nat.le_refl 1

/-- Where a `recv` goes on from an access of its `wait`. -/
def afterWait : Outcome SCondVar.WaitPoint SMutex.Ret → Pc ι α
  | .goto pt => .recvWait pt
  | .ret _ => .recvDrop .unlockOwner

/-- An access of a `wait`. -/
theorem Guarded.wait_settles (h : Guarded ids vids adaptive first c) (hF : Fifo n c)
    {pt : SCondVar.WaitPoint} {l : SCondVar.Store ι} {o' : Outcome SCondVar.WaitPoint SMutex.Ret}
    (hpc : c.pcs t = some (.recvWait pt)) (hw : Waits ids adaptive t ch c.shared.lock pt l o') :
    Settles c.shared { c.shared with lock := l } (.recvWait pt) (some (afterWait o')) := by
  have hT := SCondVar.reach_tokens h.lockRun
  have hview : (c.view Store.lock lockPc).pcs t = some (.wait false pt) := by
    rw [Config.view_pcs, hpc]
    rfl
  cases hw with
  | registers =>
    obtain ⟨hnil, hopen⟩ : c.shared.content = [] ∧ c.shared.closed = false := hF.knows t _ hpc
    refine ⟨Or.inr ⟨hnil, hopen⟩, fun hsub ↦ ?_, Or.inl hnil, fun _ hcl ↦ ?_,
      fun hcl ↦ absurd hcl id⟩
    · exact Nat.add_le_add_right (Finset.card_le_card hsub) _
    · have hcl' : c.shared.closed = true := hcl
      rw [hopen] at hcl'
      cases hcl'
  | consumes hk =>
    rename_i v k
    have hmem : t ∈ c.shared.lock.condvar.registered := by
      refine (hT.registered t).2 ?_
      rw [hview]
      rfl
    obtain ⟨-, hpos⟩ : v ≤ _ ∧ 0 < k := hT.grounded t _ hview
    have hcard := Finset.card_erase_of_mem hmem
    have hcard_pos := Finset.card_pos.2 ⟨t, hmem⟩
    refine ⟨Or.inl (Finset.erase_subset _ _), fun _ ↦ ?_, Or.inr (Or.inr ?_), fun ho hcl ↦ ?_,
      fun hcl ↦ absurd hcl id⟩
    · show (c.shared.lock.condvar.registered.erase t).card + c.shared.lock.condvar.toWake ≤
        c.shared.lock.condvar.registered.card + (k - 1)
      omega
    · show c.shared.content.length + c.shared.lock.condvar.toWake + 0 ≤
        c.shared.content.length + (k - 1) + 1
      omega
    · have ho' : c.shared.closed = true := hcl
      rw [ho] at ho'
      cases ho'
  | unlocking | unlocked | deregisters | locking
  | locked => exact .apart rfl rfl rfl id (Or.inr le_rfl)
  | looks hpt hpt' =>
    refine .apart rfl rfl rfl id (Or.inr (Nat.add_le_add_left ?_ _))
    have hzero : due (some (.recvWait pt : Pc ι α)) = 0 := by
      cases pt with
      | deregister | lock => cases hpt
      | _ => rfl
    rw [hzero]
    exact Nat.zero_le _

/-- Where a call goes on from an access of its notification. -/
def afterNotify (K : SCondVar.NotifyPoint → Pc ι α) (r : Ret α) :
    Outcome SCondVar.NotifyPoint Unit → Pc ι α
  | .goto pt => K pt
  | .ret _ => .unlock r .unlockOwner

omit [Fintype ι] [DecidableEq ι] in
/-- A step of a notification that leaves the tokens and the waiters alone. -/
theorem settles_notify {K : SCondVar.NotifyPoint → Pc ι α} {r : Ret α} (hK : Notifying K r)
    {w : SCondVar.Words ι} (hr : w.registered = s.lock.condvar.registered)
    (hw : w.toWake = s.lock.condvar.toWake) {pt : SCondVar.NotifyPoint}
    (hpt : (∃ all n, pt = .bump all n) ∨ ∃ all n, pt = .wake all n) :
    Settles s (s.setCondvar w) (K pt) q := by
  have hzero : due (some (K pt)) = 0 ∧ ∀ k, ¬ Closing k (some (K pt)) := by
    rcases hpt with ⟨all, n, rfl⟩ | ⟨all, n, rfl⟩ <;> cases hK <;> exact ⟨rfl, fun _ ↦ id⟩
  refine .apart hr hw rfl (hzero.2 _) (Or.inr ?_)
  rw [hzero.1]
  exact Nat.le_add_right _ _

/-- An access of a notification. -/
theorem Guarded.notify_settles (h : Guarded ids vids adaptive first c)
    {K : SCondVar.NotifyPoint → Pc ι α} {r : Ret α} (hK : Notifying K r) {pt : SCondVar.NotifyPoint}
    {w : SCondVar.Words ι} {o' : Outcome SCondVar.NotifyPoint Unit} (hpc : c.pcs t = some (K pt))
    (he : SCondVar.execNotify t ch c.shared.lock.condvar pt = some (w, o')) :
    Settles c.shared (c.shared.setCondvar w) (K pt) (some (afterNotify K r o')) := by
  have hT := SCondVar.reach_tokens h.lockRun
  have hstage := h.stage t _ hpc
  have hview : (c.view Store.lock lockPc).pcs t = some (.notify pt) := by
    rw [Config.view_pcs, hpc]
    cases hK <;> rfl
  have hcount : c.shared.lock.condvar.waiters =
      c.shared.lock.condvar.registered.card + _ := hT.waiters
  cases pt with
  | loadWaiters all =>
    rw [SCondVar.execNotify] at he
    by_cases hpos : 0 < c.shared.lock.condvar.waiters
    · -- the number of the waiters is that of the registered ones, or more
      rw [if_pos hpos] at he
      cases he
      cases hK with
      | send v => exact .apart rfl rfl rfl id (Or.inr le_rfl)
      | close =>
        obtain rfl : all = true := hstage
        refine ⟨Or.inl subset_rfl, fun _ ↦ le_rfl, Or.inr (Or.inr le_rfl), fun ho hc ↦ ?_,
          fun _ ↦ Or.inr ?_⟩
        · exact absurd (ho.symm.trans hc) Bool.false_ne_true
        · show c.shared.lock.condvar.registered.card ≤ c.shared.lock.condvar.waiters
          omega
    · -- nobody waits
      rw [if_neg hpos] at he
      cases he
      have hsame := SCondVar.same_release c.shared.lock.condvar t all
      have hnone : c.shared.lock.condvar.registered = ∅ := Finset.card_eq_zero.1 (by omega)
      refine ⟨Or.inl hsame.registered.subset, fun _ ↦ ?_,
        Or.inr (Or.inl (hsame.registered.trans hnone)),
        fun ho hc ↦ absurd (ho.symm.trans hc) Bool.false_ne_true, fun _ ↦ Or.inl ?_⟩
      · show (c.shared.lock.condvar.release t all).registered.card + _ ≤
          _ + (c.shared.lock.condvar.release t all).toWake
        rw [hsame.registered, hsame.toWake]
      · show (c.shared.lock.condvar.release t all).registered.card ≤ _
        rw [hsame.registered, hnone]
        exact Nat.zero_le _
  | addToWake all n =>
    cases he
    refine ⟨Or.inl subset_rfl, fun _ ↦ ?_, Or.inr (Or.inr ?_),
      fun ho hc ↦ absurd (ho.symm.trans hc) Bool.false_ne_true, fun hcl ↦ Or.inl ?_⟩
    · show c.shared.lock.condvar.registered.card + c.shared.lock.condvar.toWake ≤
        c.shared.lock.condvar.registered.card + (c.shared.lock.condvar.toWake + n)
      omega
    · show c.shared.content.length + c.shared.lock.condvar.toWake + _ ≤
        c.shared.content.length + (c.shared.lock.condvar.toWake + n) + _
      cases hK with
      | send v =>
        obtain rfl : all = false := hstage
        obtain rfl : n = 1 := hT.grounded t _ hview
        exact Nat.le_refl _
      | close =>
        show _ + 0 ≤ _ + 0
        omega
    · show c.shared.lock.condvar.registered.card ≤ c.shared.lock.condvar.toWake + n
      cases hK with
      | send v => exact absurd hcl id
      | close => exact le_trans hcl (Nat.le_add_left _ _)
  | bump all n =>
    cases he
    refine settles_notify hK ?_ ?_ (Or.inl ⟨all, n, rfl⟩)
    all_goals rfl
  | wake all n =>
    simp only [SCondVar.execNotify] at he
    split_ifs at he with hall
    · cases he
      have hsame := SCondVar.same_release
        { c.shared.lock.condvar with futex := c.shared.lock.condvar.futex.wakeAll } t all
      exact settles_notify hK hsame.registered hsame.toWake (Or.inr ⟨all, n, rfl⟩)
    · split at he
      · cases he
        refine settles_notify hK ?_ ?_ (Or.inr ⟨all, n, rfl⟩)
        all_goals rfl
      · cases he

omit [Fintype ι] [DecidableEq ι] in
/-- An access of the queue from inside a call. -/
theorem settles_inside {K : AtomicVec.Pc ι α → Pc ι α} {op : AtomicVec.Op α}
    {q₀ q' : AtomicVec.Pc ι α} {b : AtomicVec.Store ι α} (hK : Using K op)
    (heff : AtomicVec.Effect s.buffer b q₀ op (.goto q')) (hle : b.pops ≤ b.pushes.length) :
    Settles s (s.setBuffer b) (K q₀) (some (K q')) := by
  have hno : ∀ k, ¬ Closing k (some (K q₀)) := by cases hK <;> exact fun _ ↦ id
  have hlen : ∀ {x : Store ι α}, x.content.length = x.buffer.pushes.length - x.buffer.pops :=
    List.length_drop ..
  refine .apart rfl rfl rfl (hno _) (Or.inr ?_)
  rw [hlen, hlen]
  show b.pushes.length - b.pops + _ ≤ _
  cases heff with
  | inside hpu hpo hr hc =>
    rw [hpu, hpo]
    cases hK with
    | len v => exact le_rfl
    | push v =>
      simp only [due, hr]
      exact le_rfl
    | tryPop | recvPop =>
      simp only [due, hc]
      exact le_rfl
  | reserve hpu hpo hp hq =>
    rw [hpu, hpo]
    cases hK with
    | push =>
      simp only [due, hp, hq, List.length_append, List.length_singleton, if_true,
        Bool.false_eq_true, if_false]
      omega
  | claim hpu hpo hp hq =>
    rw [hpu, hpo] at hle ⊢
    cases hK with
    | tryPop | recvPop =>
      simp only [due, hp, hq, if_true, reduceCtorEq, if_false]
      omega

/-- **Every access settles what it owes.** -/
theorem moves_settles (h : Guarded ids vids adaptive first c) (hF : Fifo n c)
    (hpc : c.pcs t = some p) (hm : Moves ids vids adaptive t ch c.shared p s' o)
    (hle : s'.buffer.pops ≤ s'.buffer.pushes.length) :
    Settles c.shared s' p o.pc := by
  -- the lengths, when the queue has not moved
  have hsame : ∀ {b : AtomicVec.Store ι α},
      b.pushes = c.shared.buffer.pushes → b.pops = c.shared.buffer.pops →
      (c.shared.setBuffer b).content.length = c.shared.content.length := by
    intro b hpu hpo
    show (b.pushes.drop b.pops).length = (c.shared.buffer.pushes.drop c.shared.buffer.pops).length
    rw [hpu, hpo]
  cases hm with
  | locking hK hp he hq =>
    subst hp
    obtain ⟨hd, -, hno⟩ := due_locking (t := t) (s := c.shared) hK _ _
    exact .apart rfl rfl rfl (hno _) (Or.inr (Nat.add_le_add_left hd.le _))
  | locked hK hp he =>
    subst hp
    rename_i K next q m
    obtain ⟨-, hd, hno⟩ := due_locking (t := t) (s := c.shared) hK q q
    exact .apart rfl rfl rfl (hno _) (Or.inr (Nat.add_le_add_left hd _))
  | unlocking hp he hq | dropping hp he hq | dropped hp he =>
    subst hp
    exact .apart rfl rfl rfl id (Or.inr le_rfl)
  | unlocked hp he hf =>
    subst hp
    unfold finish at hf
    split at hf
    all_goals
      cases hf
      exact .apart rfl rfl rfl id (Or.inr le_rfl)
  | waiting hp he =>
    subst hp
    exact h.wait_settles hF hpc (h.wait_moves hpc he)
  | waited hp he =>
    subst hp
    exact h.wait_settles hF hpc (h.wait_moves hpc he)
  | notifying hK hp he =>
    subst hp
    exact h.notify_settles hK hpc he
  | notified hK hp he =>
    subst hp
    exact h.notify_settles hK hpc he
  | inside hK hp he hd heff =>
    subst hp
    exact settles_inside hK heff hle
  | full hp he heff hn | fits hp he heff hn =>
    subst hp
    cases heff with
    | measured hpu hpo =>
      exact .apart rfl rfl rfl id (Or.inr (Nat.add_le_add (hsame hpu hpo).le (Nat.zero_le _)))
  | pushed hp he heff =>
    subst hp
    cases heff with
    | pushed hpu hpo hr =>
      refine .apart rfl rfl rfl id (Or.inr (Nat.add_le_add (hsame hpu hpo).le ?_))
      simp only [due, hr]
      exact le_rfl
  | popped hK hp he heff =>
    subst hp
    cases heff with
    | popped hpu hpo hc hk hv =>
      cases hK with
      | tryPop | recvPop =>
        refine .apart rfl rfl rfl id (Or.inr (Nat.add_le_add (hsame hpu hpo).le ?_))
        simp only [due, hc, reduceCtorEq, if_false]
        exact le_rfl
  | tryEmpty hp he heff | recvEmpty hp he heff =>
    subst hp
    cases heff with
    | empty hpu hpo hc hnil =>
      refine .apart rfl rfl rfl id (Or.inl ?_)
      exact List.drop_eq_nil_of_le hnil.ge
  | rejects hp | measures hp | ends hp | waits hp =>
    subst hp
    exact .apart rfl rfl rfl id (Or.inr le_rfl)
  | pushes hp =>
    subst hp
    exact .apart rfl rfl rfl id (Or.inr (Nat.add_le_add_left (Nat.zero_le _) _))
  | closes hp =>
    subst hp
    exact ⟨Or.inl subset_rfl, fun _ ↦ le_rfl, Or.inr (Or.inr le_rfl), fun _ _ _ ↦ trivial,
      fun hcl ↦ absurd hcl id⟩

/-- Nobody takes the lock for a group. -/
theorem moves_plain (h : Guarded ids vids adaptive first c) (hpc : c.pcs t = some p)
    (hm : Moves ids vids adaptive t ch c.shared p s' o) :
    s'.lock.mutex.nested = c.shared.lock.mutex.nested ∧
      s'.lock.mutex.groups = c.shared.lock.mutex.groups := by
  have hstage := h.stage t p hpc
  have hacq : ∀ {q : SMutex.Pc} {m : SMutex.Store ι} {o' : Outcome SMutex.Pc SMutex.Ret},
      SMutex.acquires false q = true → SMutex.exec ids adaptive t ch c.shared.lock.mutex q =
        some (m, o') →
      m.nested = c.shared.lock.mutex.nested ∧ m.groups = c.shared.lock.mutex.groups := by
    intro q m o' hq he
    obtain ⟨hn, hg, -⟩ := SMutex.exec_lock_share hq he
    exact ⟨hn, hg⟩
  have hrel : ∀ {q : SMutex.Pc} {m : SMutex.Store ι} {o' : Outcome SMutex.Pc SMutex.Ret},
      (lockPc p).bind SCondVar.mutexPc = some q → SMutex.unlocks q = true →
      SMutex.exec ids adaptive t ch c.shared.lock.mutex q = some (m, o') →
      m.nested = c.shared.lock.mutex.nested ∧ m.groups = c.shared.lock.mutex.groups := by
    intro q m o' hp hq he
    obtain ⟨_, hE⟩ := SMutex.reach_exact (SCondVar.reach_disciplined h.lockRun).run
    have hview : ((c.view Store.lock lockPc).view SCondVar.Store.mutex SCondVar.mutexPc).pcs t =
        some q := by
      rw [Config.view_pcs, Config.view_pcs, hpc]
      exact hp
    obtain ⟨hn, hg, -⟩ := SMutex.exec_unlock_share hE hview hq he
    exact ⟨hn, hg⟩
  have hwait : ∀ {pt : SCondVar.WaitPoint} {l : SCondVar.Store ι}
    {o' : Outcome SCondVar.WaitPoint SMutex.Ret},
      p = .recvWait pt → Waits ids adaptive t ch c.shared.lock pt l o' →
      l.mutex.nested = c.shared.lock.mutex.nested ∧
        l.mutex.groups = c.shared.lock.mutex.groups := by
    rintro pt l o' rfl hw
    cases hw with
    | unlocking he | unlocked he => exact hrel rfl hstage he
    | locking he | locked he => exact hacq hstage he
    | registers | looks | consumes | deregisters => exact ⟨rfl, rfl⟩
  cases hm with
  | locking hK hp he hq =>
    subst hp
    exact hacq ((locking_spec hK _).2.2.2.1 hstage) he
  | locked hK hp he =>
    subst hp
    exact hacq ((locking_spec hK _).2.2.2.1 hstage) he
  | unlocking hp he hq | dropping hp he hq | dropped hp he =>
    subst hp
    exact hrel rfl hstage he
  | unlocked hp he hf =>
    subst hp
    have hm := hrel rfl hstage he
    unfold finish at hf
    split at hf
    all_goals
      cases hf
      exact hm
  | waiting hp he | waited hp he =>
    subst hp
    exact hwait rfl (h.wait_moves hpc he)
  | _ => exact ⟨rfl, rfl⟩

end Steps

/-! ### Runs -/

section Runs

variable {ok : Config ι (Store ι α) (Pc ι α) → Label ι (Op α) → Prop}
  {c : Config ι (Store ι α) (Pc ι α)}

/-- **Every reachable channel keeps its promises.** -/
theorem reach_promised (hfirst : first ≠ 0)
    (hc : Reach (mpmc ids vids adaptive) ok (init first n) c) :
    Promised c := by
  refine hc.invariant (I := Promised) ?_ ?_ ?_
  · refine ⟨fun hne ↦ ?_, fun hcl ↦ ?_⟩
    · exact absurd hne Finset.not_nonempty_empty
    · cases hcl
  · rintro c t op ⟨s', o⟩ - hP - hpc he
    -- a call starts without a debt
    obtain ⟨hl, hcl, hcont⟩ : s'.lock = c.shared.lock ∧ s'.closed = c.shared.closed ∧
        s'.content = c.shared.content := by
      cases op with
      | send | tryRecv | recv | close | evict =>
        cases he
        exact ⟨rfl, rfl, rfl⟩
    refine ⟨fun hne ↦ ?_, fun hclosed ↦ ?_⟩
    · have htally := tally_put due c t (s', o)
      have hzero : due (c.pcs t) = 0 := by rw [hpc]; rfl
      have := hP.values (by rw [← hl]; exact hne)
      simp only [Config.put_shared, hl, hcont] at htally ⊢
      omega
    · rw [Config.put_shared, hl]
      refine (hP.closing (hcl.symm.trans hclosed)).imp_right ?_
      rintro ⟨u, hu⟩
      have hut : u ≠ t := by
        rintro rfl
        rw [hpc] at hu
        exact hu
      exact ⟨u, by rw [Config.put_pcs_of_ne _ _ hut]; exact hu⟩
  · rintro c t ch p ⟨s', o⟩ hr hP - hpc he
    have hG := reach_guarded hfirst hr
    have hm := exec_moves hfirst hG hpc he
    exact hP.put hpc
      (moves_settles hG (reach_fifo hfirst hr) hpc hm ((moves_guarded hG hpc hm).pops_le hfirst))

/-- The lock is never held by a group. -/
theorem reach_plain (hfirst : first ≠ 0) (hc : Reach (mpmc ids vids adaptive) ok (init first n) c) :
    (∀ t, c.shared.lock.mutex.nested t = 0) ∧ ∀ t, c.shared.lock.mutex.groups t = 0 := by
  refine hc.invariant (I := fun c ↦ (∀ t, c.shared.lock.mutex.nested t = 0) ∧
    ∀ t, c.shared.lock.mutex.groups t = 0) ⟨fun _ ↦ rfl, fun _ ↦ rfl⟩ ?_ ?_
  · rintro c t op ⟨s', o⟩ - hP - hpc he
    cases op with
    | send | tryRecv | recv | close | evict =>
      cases he
      exact hP
  · rintro c t ch p ⟨s', o⟩ hr hP - hpc he
    have hG := reach_guarded hfirst hr
    obtain ⟨hn, hg⟩ := moves_plain hG hpc (exec_moves hfirst hG hpc he)
    rw [Config.put_shared, hn, hg]
    exact hP

/-! ### Nobody is stranded

A sleeping receiver with everybody else gone finds the queue empty and the channel open. -/

/-- Blocked in `futex_wait`: of the lock, of the condition variable, or of the queue. -/
def Blocked (s : Store ι α) (t : ι) : Prop :=
  t ∈ s.lock.mutex.state.waiters ∨ t ∈ s.lock.condvar.futex.waiters ∨
    t ∈ s.buffer.coordLock.writers.wake.waiters

/-- Inside `recv`, before it has a result. -/
def receiving : Option (Pc ι α) → Bool
  | some (.recvLock _) | some (.recvPop _) | some .recvClosed | some (.recvWait _)
  | some (.recvDrop _) => true
  | _ => false

/-- There is something to receive, or nothing more to come, and a receiver sleeps with every other
thread outside all calls or asleep as well. -/
def Stranded (c : Config ι (Store ι α) (Pc ι α)) : Prop :=
  (c.shared.content ≠ [] ∨ c.shared.closed = true) ∧
    ∃ t, receiving (c.pcs t) = true ∧ Blocked c.shared t ∧ ∀ u, u ≠ t → c.pcs u = none ∨
      Blocked c.shared u

omit [Fintype ι] [DecidableEq ι] in
/-- The views of the lock. -/
theorem mutexPc_of_view {u : ι} {q : SMutex.Pc}
    (h : ((c.view Store.lock lockPc).view SCondVar.Store.mutex SCondVar.mutexPc).pcs u = some q) :
    ∃ p, c.pcs u = some p ∧ (lockPc p).bind SCondVar.mutexPc = some q := by
  rw [Config.view_pcs, Config.view_pcs] at h
  cases hp : c.pcs u with
  | none =>
    rw [hp] at h
    cases h
  | some p =>
    rw [hp] at h
    exact ⟨p, rfl, h⟩

/-- A sleeper of the condition variable is inside a `wait`. -/
theorem Guarded.parked (h : Guarded ids vids adaptive first c) {u : ι}
    (hu : u ∈ c.shared.lock.condvar.futex.waiters) : c.pcs u = some (.recvWait .parked) := by
  obtain ⟨g, hg⟩ := (SCondVar.reach_tokens h.lockRun).asleep u hu
  rw [Config.view_pcs] at hg
  obtain ⟨p, hp, hl⟩ := Option.bind_eq_some_iff.1 hg
  rw [hp]
  cases p with
  | recvWait pt =>
    cases hl
    rfl
  | sendLock | sendClosed | sendLen | sendPush | sendNotify | tryLock | tryPop | recvLock | recvPop
  | recvClosed
  | recvDrop | closeLock | closeStore | closeNotify | unlock => cases hl

/-- Nobody sleeps inside the queue. -/
theorem Guarded.awake_in_buffer (h : Guarded ids vids adaptive first c) (u : ι) :
    u ∉ c.shared.buffer.coordLock.writers.wake.waiters := by
  intro hu
  obtain ⟨q, -, -, -, hq, -⟩ := AtomicVec.asleep_at h.bufferRun hu
  rw [Config.view_pcs] at hq
  obtain ⟨p, hp, hb⟩ := Option.bind_eq_some_iff.1 hq
  exact AtomicVec.awake_of_alone h.bufferRun (h.buffer_alone hp hb) hu

/-- A thread inside the lock that does not sleep there does not sleep at all. -/
theorem Guarded.not_blocked (h : Guarded ids vids adaptive first c) {u : ι}
    (hpark : c.pcs u ≠ some (.recvWait .parked)) (hu : u ∉ c.shared.lock.mutex.state.waiters) :
    ¬ Blocked c.shared u := by
  rintro (hm | hw | hb)
  · exact hu hm
  · exact hpark (h.parked hw)
  · exact h.awake_in_buffer u hb

/-- **Who sleeps on the lock is covered** by a thread that is inside and does not sleep. -/
theorem Guarded.lock_covered (h : Guarded ids vids adaptive first c)
    (hplain : (∀ t, c.shared.lock.mutex.nested t = 0) ∧ ∀ t, c.shared.lock.mutex.groups t = 0)
    (hne : c.shared.lock.mutex.state.waiters.Nonempty) :
    ∃ u, c.pcs u ≠ none ∧ ¬ Blocked c.shared u := by
  have hrun := (SCondVar.reach_disciplined h.lockRun).run
  have hC := SMutex.reach_covered hrun
  obtain ⟨holder, hE⟩ := SMutex.reach_exact hrun
  -- a thread inside the lock is not inside the futex call of the condition variable
  have hin : ∀ {u q}, ((c.view Store.lock lockPc).view SCondVar.Store.mutex SCondVar.mutexPc).pcs
    u = some q →
      u ∉ c.shared.lock.mutex.state.waiters → ∃ u, c.pcs u ≠ none ∧ ¬ Blocked c.shared u := by
    intro u q hq hu
    obtain ⟨p, hp, hl⟩ := mutexPc_of_view hq
    refine ⟨u, by rw [hp]; simp, h.not_blocked ?_ hu⟩
    rw [hp]
    rintro ⟨⟩
    cases hl
  rcases hC.covered hne with hv | ⟨u, q, hq, -, hu⟩
  · cases holder with
    | none =>
      have hzero : 2 * tally c.shared.lock.mutex.groups = 0 := by rw [tally_eq_zero_iff.2 hplain.2]
      exact absurd ((hE.free rfl).trans hzero) hv
    | some u =>
      rcases (hE.holder u).2 rfl with hhold | hguard
      · -- the word is held without a guard
        unfold SMutex.holding at hhold
        split at hhold
        all_goals try cases hhold
        all_goals
          rename_i hq
          exact hin hq (hC.notMem hq rfl)
      · have hshare : 0 < share (c.pcs u) := by
          rw [← h.exclusives u]
          have hn := hplain.1 u
          have hg : 0 < c.shared.lock.mutex.exclusives u + c.shared.lock.mutex.nested u := hguard
          omega
        refine ⟨u, fun hnone ↦ ?_, h.not_blocked (fun hpark ↦ ?_) fun hu ↦ ?_⟩
        · rw [hnone] at hshare
          cases hshare
        · rw [hpark] at hshare
          cases hshare
        · -- a sleeper of the lock has no guard
          obtain ⟨q, hq, hparked⟩ := hC.asleep u hu
          obtain ⟨p, hp, hl⟩ := mutexPc_of_view hq
          rw [hp] at hshare
          cases p with
          | unlock r q' | recvDrop q' =>
            cases hl
            cases q with
            | lockParked | groupParked => cases hshare
            | _ => cases hparked
          | recvWait pt =>
            cases pt with
            | unlock q' =>
              cases hl
              cases q with
              | lockParked | groupParked => cases hshare
              | _ => cases hparked
            | lock q' => cases hshare
            | _ => cases hl
          | sendLock | tryLock | recvLock | closeLock => cases hshare
          | _ => cases hl
  · exact hin hq hu

/-- **No receiver is stranded.** -/
theorem no_receiver_stranded (hfirst : first ≠ 0)
    (hc : Reach (mpmc ids vids adaptive) Always (init first n) c) : ¬ Stranded c := by
  rintro ⟨hwork, t, hrecv, hblocked, hall⟩
  have h := reach_guarded hfirst hc
  have hP := reach_promised hfirst hc
  have hT := SCondVar.reach_tokens h.lockRun
  have heverybody : ∀ u, c.pcs u = none ∨ Blocked c.shared u := by
    intro u
    by_cases hut : u = t
    · subst hut
      exact Or.inr hblocked
    · exact hall u hut
  -- so nobody sleeps on the lock, and whoever is inside sleeps on the condition variable
  have hlock : c.shared.lock.mutex.state.waiters = ∅ := by
    by_contra hne
    obtain ⟨u, hin, hawake⟩ :=
      h.lock_covered (reach_plain hfirst hc) (Finset.nonempty_iff_ne_empty.2 hne)
    exact (heverybody u).elim hin hawake
  have hasleep : ∀ {u}, Blocked c.shared u → u ∈ c.shared.lock.condvar.futex.waiters := by
    rintro u (hm | hw | hb)
    · rw [hlock] at hm
      exact absurd hm (Finset.notMem_empty u)
    · exact hw
    · exact absurd hb (h.awake_in_buffer u)
  have hparked : ∀ u, c.pcs u = none ∨ c.pcs u = some (.recvWait .parked) := fun u ↦
    (heverybody u).imp_right fun hu ↦ h.parked (hasleep hu)
  have htoken : c.shared.lock.condvar.toWake = 0 := by
    have hreg : c.shared.lock.condvar.registered ⊆ c.shared.lock.condvar.futex.waiters := by
      intro u hu
      refine (heverybody u).elim (fun hnone ↦ ?_) hasleep
      have := (hT.registered u).1 hu
      rw [Config.view_pcs, hnone] at this
      cases this
    have hbound : c.shared.lock.condvar.toWake ≤ (c.shared.lock.condvar.registered \
        c.shared.lock.condvar.futex.waiters).card + _ := hT.covered ⟨t, hasleep hblocked⟩
    rw [Finset.sdiff_eq_empty_iff_subset.2 hreg, Finset.card_empty,
      SCondVar.pending_eq_zero fun u ↦ ?_] at hbound
    · omega
    · rw [Config.view_pcs]
      rcases hparked u with hu | hu <;> rw [hu] <;> rfl
  have hmem : t ∈ c.shared.lock.condvar.registered := hT.asleep_subset (hasleep hblocked)
  rcases hwork with hcontent | hclosed
  · have hdue : (tally fun u ↦ due (c.pcs u)) = 0 := tally_eq_zero_iff.2 fun u ↦ by
      rcases hparked u with hu | hu <;> rw [hu] <;> rfl
    have hlen := hP.values ⟨t, hmem⟩
    rw [htoken, hdue] at hlen
    exact hcontent (List.eq_nil_of_length_eq_zero (Nat.le_zero.1 hlen))
  · rcases hP.closing hclosed with hle | ⟨u, hu⟩
    · rw [htoken, Nat.le_zero, Finset.card_eq_zero] at hle
      rw [hle] at hmem
      exact absurd hmem (Finset.notMem_empty t)
    · rcases hparked u with hq | hq
      · rw [hq] at hu
        exact hu
      · rw [hq] at hu
        exact hu

end Runs

/-- Thread `1` sleeps in `recv`, and thread `0` has just put `7` into the queue. -/
theorem no_receiver_stranded_sent :
    ∃ c : Config (Fin 2) (Store (Fin 2) ℕ) (Pc (Fin 2) ℕ),
      Reach (mpmc SMutex.twoIds Coord.twoIds 4) Always (init 1 0) c ∧
      c.shared.lock.condvar.futex.waiters = {1} ∧ c.pcs 1 = some (.recvWait .parked) ∧
      c.shared.content = [7] ∧ ¬ Stranded c := by
  obtain ⟨c, hc, ht⟩ := Reach.exists_of_replay (mpmc SMutex.twoIds Coord.twoIds 4) Always
    (init 1 0 : Config (Fin 2) (Store (Fin 2) ℕ) (Pc (Fin 2) ℕ))
    ((.call 1 .recv :: List.replicate 22 (.exec 1 .go)) ++
      (.call 0 (.send 7) :: List.replicate 14 (.exec 0 .go)))
    (fun c ↦ decide (c.shared.lock.condvar.futex.waiters = {1} ∧
      c.pcs 1 = some (.recvWait .parked) ∧
      c.shared.content = [7])) (by decide +kernel)
  obtain ⟨h₀, h₁, h₂⟩ := of_decide_eq_true ht
  exact ⟨c, hc, h₀, h₁, h₂, no_receiver_stranded (by decide) hc⟩

end Mpmc

end Crossync
