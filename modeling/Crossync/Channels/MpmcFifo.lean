import Crossync.Interleave.Call
import Crossync.Channels.MpmcGuarded

/-!
# `Mpmc` is a bounded queue

A channel that has accepted values in the order of the critical sections and handed some of them out
holds the others, oldest first. Between two critical sections this is an equation between the
records and the queue; inside one, a send may have put its value into the queue without having
recorded it, and a receive may have taken one out. `Burden` says which, and `Effect` is what a step
does to the records and to the burden of its thread: everything else about the code is left behind
here.

What a call has found out stays true until it has dropped its guard (`Knows`), because the records
that it reads are written by the thread with the guard only.

## Burdens

A send changes the queue first and the record afterwards, a receive the other way round, both under
the lock. So between the two accesses one thread carries the difference, its `Burden`, and everybody
else has none. Adding the burden to the equation makes it hold at every step, and not only between
critical sections.
-/

open Interleave

namespace Crossync

namespace Mpmc

variable {ι α : Type*} [DecidableEq ι] {ids : SMutex.ThreadIds ι} {vids : Coord.ThreadIds ι}
  {adaptive first n : ℕ}

/-! ### Records

The four records of the channel, the content of the queue, and the difference that a thread may
carry. -/

/-- What a channel is about, without its lock and the insides of its queue. -/
@[ext]
structure Records (ι α : Type*) where
  pushes : List α
  pops : ℕ
  accepted : List (ι × α)
  received : List (ι × α)
  sent : ι → List α
  got : ι → List α
  closed : Bool
  bounded : ℕ

/-- The records of a channel. -/
def Store.records (s : Store ι α) : Records ι α where
  pushes := s.buffer.pushes
  pops := s.buffer.pops
  accepted := s.accepted
  received := s.received
  sent := s.sent
  got := s.got
  closed := s.closed
  bounded := s.bounded

/-- What the queue holds, oldest first. -/
def Records.content (r : Records ι α) : List α := r.pushes.drop r.pops

/-- What a call has done to the queue without having recorded it, or recorded without having
returned. -/
inductive Burden (α : Type*) where
  | none
  /-- The value is in the queue. -/
  | pushing (v : α)
  /-- The value with this number is out of the queue. -/
  | popping (k : ℕ)
  | sent (v : α)
  | got (v : α)

/-- What a program point says of the call. -/
def burden : Option (Pc ι α) → Burden α
  | some (.sendPush v p) => if AtomicVec.reserved p then .pushing v else .none
  | some (.tryPop p) | some (.recvPop p) => ((AtomicVec.claimed p).map Burden.popping).getD .none
  | some (.sendNotify v _) | some (.unlock (.sent v) _) => .sent v
  | some (.unlock (.received (some v)) _) => .got v
  | _ => .none

/-- The value of a send that is on its way out. -/
def Burden.accepted : Burden α → List α
  | .sent v => [v]
  | _ => []

/-- The value of a receive that is on its way out. -/
def Burden.received : Burden α → List α
  | .got v => [v]
  | _ => []

/-- **What a step of a thread with `g` guards does to the records** and to its burden. -/
inductive Effect (t : ι) (g : ℕ) (r : Records ι α) : Burden α → Records ι α → Burden α → Prop where
  | idle (b : Burden α) : Effect t g r b r b
  | reserve (v : α) (hg : 0 < g) (hc : r.closed = false)
      (hroom : r.bounded = 0 ∨ r.content.length < r.bounded) :
      Effect t g r .none { r with pushes := r.pushes ++ [v] } (.pushing v)
  | accept (v : α) (hg : 0 < g) (hc : r.closed = false) :
      Effect t g r (.pushing v) { r with accepted := r.accepted ++ [(t, v)] } (.sent v)
  | deliver (v : α) :
      Effect t g r (.sent v) { r with sent := Function.update r.sent t (r.sent t ++ [v]) } .none
  | claim (k : ℕ) (hg : 0 < g) : Effect t g r .none { r with pops := r.pops + 1 } (.popping k)
  | take (k : ℕ) (v : α) (hg : 0 < g) (hk : r.pops = k + 1) (hv : r.pushes[k]? = some v) :
      Effect t g r (.popping k) { r with received := r.received ++ [(t, v)] } (.got v)
  | hand (v : α) : Effect t g r (.got v)
    { r with got := Function.update r.got t (r.got t ++ [v]) } .none
  | close (hg : 0 < g) : Effect t g r .none { r with closed := true } .none

/-! ### The ledger

The equation between them, and what one step does to it. -/

/-- What a thread has sent, in order. -/
def Records.acceptedBy (r : Records ι α) (t : ι) : List α :=
  (r.accepted.filter (·.1 = t)).map Prod.snd

/-- What a thread has received, in order. -/
def Records.receivedBy (r : Records ι α) (t : ι) : List α :=
  (r.received.filter (·.1 = t)).map Prod.snd

/-- Between the queue and the record of what went in or came out. -/
def Burden.unrecorded : Burden α → Bool
  | .pushing _ | .popping _ => true
  | _ => false

/-- **The records account for the queue**, given the burdens of the threads. -/
structure Accounts (r : Records ι α) (B : ι → Burden α) : Prop where
  pushing : ∀ t v, B t = .pushing v → r.pushes = r.accepted.map Prod.snd ++ [v]
  pushed : (∀ t v, B t ≠ .pushing v) → r.pushes = r.accepted.map Prod.snd
  popping : ∀ t k, B t = .popping k → r.received.map Prod.snd = r.pushes.take (r.pops - 1)
  popped : (∀ t k, B t ≠ .popping k) → r.received.map Prod.snd = r.pushes.take r.pops
  sent : ∀ t, r.acceptedBy t = r.sent t ++ (B t).accepted
  got : ∀ t, r.receivedBy t = r.got t ++ (B t).received

section Ledger

variable {r r' : Records ι α} {B : ι → Burden α} {t : ι} {g : ℕ} {b b' : Burden α}

/-- A step that leaves the queue and its records alone. -/
theorem Accounts.quiet (h : Accounts r B) (hpu : r'.pushes = r.pushes) (hpo : r'.pops = r.pops)
    (hac : r'.accepted = r.accepted) (hre : r'.received = r.received)
    (hu : (B t).unrecorded = false) (hu' : b'.unrecorded = false)
    (hsent : ∀ u, r'.sent u ++ (Function.update B t b' u).accepted =
      r.sent u ++ (B u).accepted) (hgot : ∀ u, r'.got u ++ (Function.update B t b' u).received =
      r.got u ++ (B u).received) : Accounts r' (Function.update B t b') := by
  -- the burdens that count are those of the other threads
  have hsame : ∀ u b₀, b₀.unrecorded = true → (Function.update B t b' u = b₀ ↔ B u = b₀) := by
    intro u b₀ hb₀
    by_cases hut : u = t
    · subst hut
      rw [Function.update_self]
      refine ⟨fun he ↦ ?_, fun he ↦ ?_⟩
      · rw [he, hb₀] at hu'
        cases hu'
      · rw [he, hb₀] at hu
        cases hu
    · rw [Function.update_of_ne hut]
  refine ⟨fun u v hv ↦ ?_, fun hno ↦ ?_, fun u k hk ↦ ?_, fun hno ↦ ?_, fun u ↦ ?_, fun u ↦ ?_⟩
  · rw [hpu, hac]
    exact h.pushing u v ((hsame u _ rfl).1 hv)
  · rw [hpu, hac]
    exact h.pushed fun u v hv ↦ hno u v ((hsame u _ rfl).2 hv)
  · rw [hpu, hpo, hre]
    exact h.popping u k ((hsame u _ rfl).1 hk)
  · rw [hpu, hpo, hre]
    exact h.popped fun u k hk ↦ hno u k ((hsame u _ rfl).2 hk)
  · rw [Records.acceptedBy, hac, hsent]
    exact h.sent u
  · rw [Records.receivedBy, hre, hgot]
    exact h.got u

/-- The lists of a thread, when something of `t` is added. -/
theorem filter_snoc (l : List (ι × α)) (t u : ι) (v : α) :
    ((l ++ [(t, v)]).filter (·.1 = u)).map Prod.snd =
      (l.filter (·.1 = u)).map Prod.snd ++ if t = u then [v] else [] := by
  rw [List.filter_append, List.map_append]
  by_cases htu : t = u
  · simp [htu]
  · simp [htu]

/-- The account of the threads after `t` moved, when nothing was returned. -/
theorem accounts_of_move {l : ι → List α} {f : Burden α → List α} {x : List α}
    {acc acc' : ι → List α} (h : ∀ u, acc u = l u ++ f (B u))
    (hacc : ∀ u, acc' u = acc u ++ if t = u then x else []) (hb : f b' = f (B t) ++ x) (u : ι) :
    acc' u = l u ++ f (Function.update B t b' u) := by
  rw [hacc, h]
  by_cases hut : u = t
  · subst hut
    rw [Function.update_self, hb, if_pos rfl, List.append_assoc]
  · rw [Function.update_of_ne hut, if_neg (Ne.symm hut), List.append_nil]

/-- The lists of the threads stay as they are if the burden of `t` says the same. -/
theorem update_same {f : Burden α → List α} (h : f b' = f (B t)) (u : ι) :
    f (Function.update B t b' u) = f (B u) := by
  by_cases hut : u = t
  · subst hut
    rw [Function.update_self, h]
  · rw [Function.update_of_ne hut]

/-- A value moves from the burden of `t` to what its calls have returned. -/
theorem update_account {l : ι → List α} {f : Burden α → List α} {v : α} (h' : f b' = [])
    (h : f (B t) = [v]) (u : ι) : Function.update l t (l t ++ [v]) u ++
      f (Function.update B t b' u) = l u ++ f (B u) := by
  by_cases hut : u = t
  · subst hut
    rw [Function.update_self, Function.update_self, h, h', List.append_nil]
  · rw [Function.update_of_ne hut, Function.update_of_ne hut]

/-- **A step keeps the account.** A thread with a guard finds no other one between the queue and the
records. -/
theorem Accounts.step (h : Accounts r B) (hle : r.pops ≤ r.pushes.length)
    (halone : 0 < g → ∀ u, u ≠ t → (B u).unrecorded = false) (he : Effect t g r (B t) r' b') :
    Accounts r' (Function.update B t b') := by
  obtain ⟨b, hb⟩ : ∃ b, b = B t := ⟨_, rfl⟩
  rw [← hb] at he
  have hkeep : ∀ {f : Burden α → List α} {acc l : ι → List α}, (∀ u, acc u = l u ++ f (B u)) →
      f b' = f (B t) → ∀ u, acc u = l u ++ f (Function.update B t b' u) := by
    intro f acc l hacc hf u
    refine accounts_of_move hacc (x := []) (fun u ↦ ?_) (by rw [hf, List.append_nil]) u
    split_ifs <;> exact (List.append_nil _).symm
  -- nobody else is between the queue and the records
  have hothers : 0 < g → ∀ u b₀, b₀.unrecorded = true → Function.update B t b' u = b₀ → u = t := by
    intro hg u b₀ hb₀ hu
    by_contra hut
    rw [Function.update_of_ne hut] at hu
    have := halone hg u hut
    rw [hu, hb₀] at this
    cases this
  have hbefore : 0 < g → ∀ u b₀, b₀.unrecorded = true → B u = b₀ → u = t := by
    intro hg u b₀ hb₀ hu
    by_contra hut
    have := halone hg u hut
    rw [hu, hb₀] at this
    cases this
  cases he with
  | idle b =>
    rw [hb, Function.update_eq_self]
    exact h
  | reserve v hg _ _ =>
    have hno : ∀ u w, B u ≠ .pushing w := fun u w hu ↦ by
      rw [hbefore hg u _ rfl hu, ← hb] at hu
      cases hu
    have hno' : ∀ u k, B u ≠ .popping k := fun u k hu ↦ by
      rw [hbefore hg u _ rfl hu, ← hb] at hu
      cases hu
    refine ⟨fun u w hu ↦ ?_, fun hall ↦ ?_, fun u k hu ↦ ?_, fun _ ↦ ?_, hkeep h.sent ?_,
      hkeep h.got ?_⟩
    · rw [hothers hg u _ rfl hu, Function.update_self] at hu
      cases hu
      rw [← h.pushed hno]
    · exact absurd (Function.update_self t (Burden.pushing v) B) (hall t v)
    · rw [hothers hg u _ rfl hu, Function.update_self] at hu
      cases hu
    · rw [List.take_append_of_le_length hle]
      exact h.popped hno'
    · rw [← hb]
      rfl
    · rw [← hb]
      rfl
  | accept v hg _ =>
    have hno : ∀ u k, B u ≠ .popping k := fun u k hu ↦ by
      rw [hbefore hg u _ rfl hu, ← hb] at hu
      cases hu
    refine ⟨fun u w hu ↦ ?_, fun _ ↦ ?_, fun u k hu ↦ ?_, fun _ ↦ h.popped hno, ?_, hkeep h.got ?_⟩
    · rw [hothers hg u _ rfl hu, Function.update_self] at hu
      cases hu
    · rw [h.pushing t v hb.symm, List.map_append]
      rfl
    · rw [hothers hg u _ rfl hu, Function.update_self] at hu
      cases hu
    · refine accounts_of_move h.sent (x := [v]) (fun u ↦ filter_snoc r.accepted t u v) ?_
      rw [← hb]
      rfl
    · rw [← hb]
      rfl
  | deliver v =>
    exact h.quiet rfl rfl rfl rfl (by rw [← hb]; rfl) rfl
      (update_account rfl (by rw [← hb]; rfl))
      fun u ↦ congrArg (r.got u ++ ·) (update_same (f := Burden.received) (by rw [← hb]; rfl) u)
  | claim k hg =>
    have hno : ∀ u w, B u ≠ .pushing w := fun u w hu ↦ by
      rw [hbefore hg u _ rfl hu, ← hb] at hu
      cases hu
    have hno' : ∀ u k, B u ≠ .popping k := fun u k hu ↦ by
      rw [hbefore hg u _ rfl hu, ← hb] at hu
      cases hu
    refine ⟨fun u w hu ↦ ?_, fun _ ↦ h.pushed hno, fun u j hu ↦ h.popped hno', fun hall ↦ ?_,
      hkeep h.sent ?_, hkeep h.got ?_⟩
    · rw [hothers hg u _ rfl hu, Function.update_self] at hu
      cases hu
    · exact absurd (Function.update_self t (Burden.popping k) B) (hall t k)
    · rw [← hb]
      rfl
    · rw [← hb]
      rfl
  | take k v hg hk hv =>
    have hno : ∀ u w, B u ≠ .pushing w := fun u w hu ↦ by
      rw [hbefore hg u _ rfl hu, ← hb] at hu
      cases hu
    refine ⟨fun u w hu ↦ ?_, fun _ ↦ h.pushed hno, fun u j hu ↦ ?_, fun _ ↦ ?_, hkeep h.sent ?_, ?_⟩
    · rw [hothers hg u _ rfl hu, Function.update_self] at hu
      cases hu
    · rw [hothers hg u _ rfl hu, Function.update_self] at hu
      cases hu
    · show (r.received ++ [(t, v)]).map Prod.snd = r.pushes.take r.pops
      rw [List.map_append, h.popping t k hb.symm, hk, Nat.add_sub_cancel, List.take_add_one, hv]
      rfl
    · rw [← hb]
      rfl
    · refine accounts_of_move h.got (x := [v]) (fun u ↦ filter_snoc r.received t u v) ?_
      rw [← hb]
      rfl
  | hand v =>
    exact h.quiet rfl rfl rfl rfl (by rw [← hb]; rfl) rfl
      (fun u ↦ congrArg (r.sent u ++ ·) (update_same (f := Burden.accepted) (by rw [← hb]; rfl) u))
      (update_account rfl (by rw [← hb]; rfl))
  | close hg =>
    rw [hb, Function.update_eq_self]
    exact ⟨h.pushing, h.pushed, h.popping, h.popped, h.sent, h.got⟩

/-- **The equation of the queue**: what was accepted, with the value that is being put in, is what
was received, with the value that is being taken out, and then the content. -/
theorem Accounts.fifo (h : Accounts r B) (hle : r.pops ≤ r.pushes.length)
    (halone : ∀ u, u ≠ t → (B u).unrecorded = false) :
    (∀ v, B t = .pushing v → r.accepted.map Prod.snd ++ [v] = r.received.map Prod.snd ++
      r.content) ∧
    (∀ k v, B t = .popping k → r.pops = k + 1 → r.pushes[k]? = some v →
      r.accepted.map Prod.snd = r.received.map Prod.snd ++ v :: r.content) ∧
    ((B t).unrecorded = false → r.accepted.map Prod.snd = r.received.map Prod.snd ++
      r.content) := by
  have honly : ∀ u b₀, b₀.unrecorded = true → B u = b₀ → u = t := by
    intro u b₀ hb₀ hu
    by_contra hut
    have := halone u hut
    rw [hu, hb₀] at this
    cases this
  have hno : ∀ b₀ : Burden α, b₀.unrecorded = true → B t ≠ b₀ → ∀ u, B u ≠ b₀ := by
    intro b₀ hb₀ hne u hu
    have := honly u b₀ hb₀ hu
    subst this
    exact hne hu
  refine ⟨fun v hv ↦ ?_, fun k v hk hpops hval ↦ ?_, fun hnone ↦ ?_⟩
  · rw [← h.pushing t v hv, h.popped fun u k ↦ hno (.popping k) rfl (by rw [hv]; simp) u]
    exact (List.take_append_drop ..).symm
  · have hlt : k < r.pushes.length := by omega
    have hval' : r.pushes.drop k = v :: r.pushes.drop (k + 1) := by
      rw [List.drop_eq_getElem_cons hlt]
      rw [List.getElem?_eq_getElem hlt] at hval
      rw [Option.some.inj hval]
    rw [← h.pushed fun u v ↦ hno (.pushing v) rfl (by rw [hk]; simp) u, h.popping t k hk,
      Records.content, hpops,
      Nat.add_sub_cancel, ← hval']
    exact (List.take_append_drop ..).symm
  · have hne : ∀ b₀ : Burden α, b₀.unrecorded = true → B t ≠ b₀ := by
      rintro b₀ hb₀ rfl
      rw [hb₀] at hnone
      cases hnone
    rw [← h.pushed fun u v ↦ hno (.pushing v) rfl (hne _ rfl) u,
      h.popped fun u k ↦ hno (.popping k) rfl (hne _ rfl) u]
    exact (List.take_append_drop ..).symm

end Ledger

/-! ### What a step does

Every access of the code as one of the effects. -/

/-- What a call knows of the records at a program point. -/
def Knows (r : Records ι α) : Pc ι α → Prop
  | .sendLen _ _ => r.closed = false ∧ 0 < r.bounded
  | .sendPush _ p =>
    r.closed = false ∧ (AtomicVec.reserved p = false → r.bounded = 0 ∨ r.content.length < r.bounded)
  | .recvClosed => r.content = []
  | .recvWait .register => r.content = [] ∧ r.closed = false
  | .unlock (.rejected .full _) p =>
    SMutex.retains (some p) = 1 → 0 < r.bounded ∧ r.content.length = r.bounded
  | .unlock (.rejected .closed _) _ | .unlock .unit _ | .closeNotify _ => r.closed = true
  | _ => True

section Effects

variable {c : Config ι (Store ι α) (Pc ι α)} {t : ι} {ch : Choice ι} {s s' : Store ι α} {p : Pc ι α}
  {o : Outcome (Pc ι α) (Ret α)}

omit [DecidableEq ι] in
/-- The queue moved, and its records with it. -/
theorem records_setBuffer (s : Store ι α) (b : AtomicVec.Store ι α) :
    (s.setBuffer b).records = { s.records with pushes := b.pushes, pops := b.pops } := rfl

omit [DecidableEq ι] in
theorem records_setBuffer_same {b : AtomicVec.Store ι α} (hpu : b.pushes = s.buffer.pushes)
    (hpo : b.pops = s.buffer.pops) : (s.setBuffer b).records = s.records := by
  rw [records_setBuffer, hpu, hpo]
  rfl

omit [DecidableEq ι] in
/-- The burden of a call that drops its guard is in what it will return. -/
theorem burden_unlock (r : Ret α) (q q' : SMutex.Pc) :
    burden (some (.unlock r q : Pc ι α)) = burden (some (.unlock r q' : Pc ι α)) := by
  cases r with
  | received x => cases x <;> rfl
  | _ => rfl

/-- **Every access has an effect.** -/
theorem moves_effect (hm : Moves ids vids adaptive t ch s p s' o) (hknow : Knows s.records p) :
    Effect t (share (some p)) s.records (burden (some p)) s'.records (burden o.pc) := by
  cases hm with
  | locking hK hp he hq =>
    subst hp
    cases hK <;> exact .idle _
  | locked hK hp he =>
    subst hp
    cases hK <;> exact .idle _
  | unlocking hp he hq =>
    subst hp
    rename_i r q q' m
    rw [Outcome.pc_goto, burden_unlock r q' q]
    exact .idle _
  | unlocked hp he hf =>
    subst hp
    unfold finish at hf
    split at hf
    · cases hf
      exact .deliver (r := s.records) _
    · cases hf
      exact .hand (r := s.records) _
    · rename_i r q m _ hsent hgot
      cases hf
      have hnone : burden (some (.unlock r q : Pc ι α)) = .none := by
        cases r with
        | sent v => exact absurd rfl (hsent v)
        | received x =>
          cases x with
          | some v => exact absurd rfl (hgot v)
          | none => rfl
        | _ => rfl
      rw [hnone]
      exact .idle _
  | dropping hp he hq | dropped hp he | waiting hp he | waited hp he =>
    subst hp
    exact .idle _
  | notifying hK hp he | notified hK hp he =>
    subst hp
    cases hK <;> exact .idle _
  | inside hK hp he hd heff =>
    subst hp
    cases heff with
    | inside hpu hpo hr hc =>
      rw [records_setBuffer_same hpu hpo]
      cases hK with
      | len v => exact .idle _
      | push v =>
        simp only [burden, Outcome.pc_goto, hr]
        exact .idle _
      | tryPop | recvPop =>
        simp only [burden, Outcome.pc_goto, hc]
        exact .idle _
    | reserve hpu hpo hp hq =>
      cases hK with
      | push =>
        simp only [burden, Outcome.pc_goto, hp, hq, if_true, Bool.false_eq_true, if_false]
        rw [records_setBuffer, hpu, hpo]
        exact .reserve _ Nat.one_pos hknow.1 (hknow.2 hp)
    | claim hpu hpo hp hq =>
      rw [records_setBuffer, hpu, hpo]
      cases hK with
      | tryPop | recvPop =>
        simp only [burden, Outcome.pc_goto, hp, hq, Option.map_none, Option.map_some,
          Option.getD_none,
          Option.getD_some]
        exact .claim _ Nat.one_pos
  | full hp he heff hn | fits hp he heff hn =>
    subst hp
    cases heff with
    | measured hpu hpo =>
      rw [records_setBuffer_same hpu hpo]
      exact .idle _
  | pushed hp he heff =>
    subst hp
    cases heff with
    | pushed hpu hpo hr =>
      rename_i v q b
      have hrec : ({ s.setBuffer b with accepted := s.accepted ++ [(t, v)] } : Store ι α).records =
          { s.records with accepted := s.records.accepted ++ [(t, v)] } := by
        rw [← records_setBuffer_same hpu hpo]
        rfl
      rw [hrec]
      simp only [burden, Outcome.pc_goto, hr, if_true]
      exact .accept v Nat.one_pos hknow.1
  | popped hK hp he heff =>
    subst hp
    cases heff with
    | popped hpu hpo hc hk hv =>
      rename_i K q b k v
      have hrec : ({ s.setBuffer b with received := s.received ++ [(t, v)] } : Store ι α).records =
          { s.records with received := s.records.received ++ [(t, v)] } := by
        rw [← records_setBuffer_same hpu hpo]
        rfl
      have hv' : s.records.pushes[k]? = some v := by
        rw [← hv, hpu]
        rfl
      have hk' : s.records.pops = k + 1 := hpo.symm.trans hk
      rw [hrec]
      cases hK with
      | tryPop | recvPop =>
        simp only [burden, Outcome.pc_goto, hc, Option.map_some, Option.getD_some]
        exact .take k v Nat.one_pos hk' hv'
  | tryEmpty hp he heff | recvEmpty hp he heff =>
    subst hp
    cases heff with
    | empty hpu hpo hc hnil =>
      rw [records_setBuffer_same hpu hpo]
      simp only [burden, Outcome.pc_goto, hc, Option.map_none, Option.getD_none]
      exact .idle _
  | rejects hp | measures hp | pushes hp | ends hp | waits hp =>
    subst hp
    exact .idle _
  | closes hp =>
    subst hp
    exact .close Nat.one_pos

/-! ### What the calls have found out

A thread inside the critical section knows the state of the channel until it leaves. -/

omit [DecidableEq ι] in
/-- What survives the step of another thread: everything, if it has no guard, and what needs none,
if it has. -/
theorem Knows.mono {r r' : Records ι α} (h : Knows r p) (hb : r'.bounded = r.bounded)
    (hc : r.closed = true → r'.closed = true)
    (hsame : share (some p) = 0 ∨
      r'.pushes = r.pushes ∧ r'.pops = r.pops ∧ r'.closed = r.closed) : Knows r' p := by
  have hcontent : r'.pushes = r.pushes → r'.pops = r.pops → r'.content = r.content := by
    intro hpu hpo
    rw [Records.content, Records.content, hpu, hpo]
  cases p with
  | sendLen v q =>
    obtain hs | ⟨-, -, hcl⟩ := hsame
    · cases hs
    · rw [Knows, hcl, hb]
      exact h
  | sendPush v q =>
    obtain hs | ⟨hpu, hpo, hcl⟩ := hsame
    · cases hs
    · rw [Knows, hcl, hb, hcontent hpu hpo]
      exact h
  | recvClosed =>
    obtain hs | ⟨hpu, hpo, -⟩ := hsame
    · cases hs
    · exact (hcontent hpu hpo).trans h
  | recvWait pt =>
    cases pt with
    | register =>
      obtain hs | ⟨hpu, hpo, hcl⟩ := hsame
      · cases hs
      · rw [Knows, hcl, hcontent hpu hpo]
        exact h
    | _ => trivial
  | unlock e q =>
    cases e with
    | unit => exact hc h
    | rejected why v =>
      cases why with
      | closed => exact hc h
      | full =>
        intro hret
        obtain hs | ⟨hpu, hpo, -⟩ := hsame
        · rw [show share (some (.unlock (.rejected .full v) q : Pc ι α)) =
            SMutex.retains (some q) from rfl,
            hret] at hs
          cases hs
        · rw [hb, hcontent hpu hpo]
          exact h hret
    | _ => trivial
  | closeNotify pt => exact hc h
  | _ => trivial

/-- Nothing reopens a channel. -/
theorem Effect.closed {r r' : Records ι α} {g : ℕ} {b b' : Burden α} (h : Effect t g r b r' b')
    (hc : r.closed = true) : r'.closed = true := by
  cases h with
  | close => rfl
  | _ => exact hc

theorem Effect.bounded {r r' : Records ι α} {g : ℕ} {b b' : Burden α} (h : Effect t g r b r' b') :
    r'.bounded = r.bounded := by
  cases h <;> rfl

/-- Only a send that has found room puts a value in. -/
theorem Effect.room {r r' : Records ι α} {g : ℕ} {b b' : Burden α} (h : Effect t g r b r' b')
    (hb : r.bounded = n) (hn : 0 < n) (hlen : r.content.length ≤ n) : r'.content.length ≤ n := by
  cases h with
  | reserve v hg hc hroom =>
    have hlt : r.content.length < n := hb ▸ hroom.resolve_left (by omega)
    rw [Records.content, List.length_drop] at hlt ⊢
    simp only [List.length_append, List.length_singleton]
    omega
  | claim k hg =>
    rw [Records.content, List.length_drop] at hlen ⊢
    simp only
    omega
  | _ => exact hlen

/-- Without a guard nothing happens to the queue. -/
theorem Effect.queue {r r' : Records ι α} {g : ℕ} {b b' : Burden α} (h : Effect t g r b r' b') :
    0 < g ∨ r'.pushes = r.pushes ∧ r'.pops = r.pops ∧ r'.closed = r.closed ∧
      r'.accepted = r.accepted ∧ r'.received = r.received := by
  cases h with
  | reserve v hg | accept v hg | claim k hg | take k v hg | close hg => exact Or.inl hg
  | _ => exact Or.inr ⟨rfl, rfl, rfl, rfl, rfl⟩

theorem waits_on {l l' : SCondVar.Store ι} {pt pt' : SCondVar.WaitPoint}
    (he : SCondVar.execWait ids adaptive t ch l false pt = some (l', .goto pt')) :
    pt' ≠ .register := by
  cases pt with
  | register | loadFutex | deregister =>
    cases he
    simp
  | loadToWake v =>
    cases he
    exact SCondVar.tokenLoop_ne_register v _
  | unlock q | lock q =>
    simp only [SCondVar.execWait] at he
    split at he
    all_goals
      cases he
      try simp
  | consume v k =>
    simp only [SCondVar.execWait] at he
    split at he
    · cases he
      simp
    · cases he
      exact SCondVar.tokenLoop_ne_register v _
  | sleep v | parked =>
    simp only [SCondVar.execWait] at he
    split at he
    all_goals
      cases he
      try simp

/-- What the moving thread finds out. -/
theorem moves_knows (hm : Moves ids vids adaptive t ch s p s' o) (hstage : Stage p)
    (h : Knows s.records p) (hroom : 0 < s.bounded → s.content.length ≤ s.bounded) :
    ∀ q, o.pc = some q → Knows s'.records q := by
  have hlen : s.buffer.pushes.length - s.buffer.pops = s.content.length := by
    rw [Store.content, List.length_drop]
  cases hm with
  | locking hK hp he hq =>
    rintro _ ⟨⟩
    cases hK <;> trivial
  | locked hK hp he =>
    rintro _ ⟨⟩
    cases hK <;> trivial
  | unlocking hp he hq =>
    subst hp
    rintro _ ⟨⟩
    have hle := SMutex.retains_le hstage he
    rename_i e q q' m
    cases e with
    | rejected why v =>
      cases why with
      | closed => exact h
      | full =>
        intro hret
        refine h (Nat.le_antisymm ?_ (hret ▸ hle))
        cases q <;> first | exact le_rfl | exact Nat.zero_le _
    | unit => exact h
    | _ => trivial
  | unlocked hp he hf =>
    unfold finish at hf
    split at hf
    all_goals
      cases hf
      rintro _ ⟨⟩
  | dropping hp he hq | dropped hp he | waited hp he =>
    rintro _ ⟨⟩
    trivial
  | waiting hp he =>
    rintro _ ⟨⟩
    have hne := waits_on he
    rename_i pt pt' l
    cases pt' with
    | register => exact absurd rfl hne
    | _ => trivial
  | notifying hK hp he | notified hK hp he =>
    subst hp
    rintro _ ⟨⟩
    cases hK with
    | send => trivial
    | close => exact h
  | inside hK hp he hd heff =>
    subst hp
    rintro _ ⟨⟩
    cases hK with
    | len v => exact h
    | push v =>
      obtain ⟨hcl, hroom'⟩ := h
      refine ⟨hcl, fun hr ↦ ?_⟩
      cases heff with
      | inside hpu hpo hres hc =>
        rw [records_setBuffer_same hpu hpo]
        exact hroom' (hres.symm.trans hr)
      | reserve hpu hpo hp hq =>
        rw [hq] at hr
        cases hr
    | tryPop | recvPop => trivial
  | full hp he heff hn =>
    subst hp
    rintro _ ⟨⟩
    cases heff with
    | measured hpu hpo =>
      intro _
      rw [records_setBuffer_same hpu hpo]
      refine ⟨h.2, Nat.le_antisymm (hroom h.2) ?_⟩
      exact hn.trans_eq hlen
  | fits hp he heff hn =>
    subst hp
    rintro _ ⟨⟩
    cases heff with
    | measured hpu hpo =>
      show Knows (s.setBuffer _).records (.sendPush _ _)
      rw [records_setBuffer_same hpu hpo]
      exact ⟨h.1, fun _ ↦ Or.inr (hlen.symm.trans_lt hn)⟩
  | pushed hp he heff | tryEmpty hp he heff =>
    rintro _ ⟨⟩
    trivial
  | popped hK hp he heff =>
    rintro _ ⟨⟩
    trivial
  | recvEmpty hp he heff =>
    rintro _ ⟨⟩
    cases heff with
    | empty hpu hpo hc hnil => exact List.drop_eq_nil_of_le hnil.ge
  | rejects hp hc =>
    rintro _ ⟨⟩
    exact hc
  | measures hp hc hb =>
    rintro _ ⟨⟩
    exact ⟨hc, hb⟩
  | pushes hp hc hb =>
    rintro _ ⟨⟩
    exact ⟨hc, fun _ ↦ Or.inl hb⟩
  | ends hp hc =>
    rintro _ ⟨⟩
    trivial
  | waits hp hc =>
    subst hp
    rintro _ ⟨⟩
    exact ⟨h, hc⟩
  | closes hp =>
    rintro _ ⟨⟩
    rfl

end Effects

/-! ### Runs -/

/-- **The invariant of a channel of bound `n`.** -/
structure Fifo (n : ℕ) (c : Config ι (Store ι α) (Pc ι α)) : Prop where
  bounded : c.shared.bounded = n
  accounts : Accounts c.shared.records fun t ↦ burden (c.pcs t)
  room : 0 < n → c.shared.content.length ≤ n
  knows : ∀ t p, c.pcs t = some p → Knows c.shared.records p

section Runs

variable {c : Config ι (Store ι α) (Pc ι α)} {t u : ι} {ch : Choice ι} {s' : Store ι α} {p : Pc ι α}
  {o : Outcome (Pc ι α) (Ret α)}

omit [DecidableEq ι] in
theorem unrecorded_eq_false {q : Option (Pc ι α)} (h : share q = 0) :
    (burden q).unrecorded = false := by
  cases q with
  | none => rfl
  | some p =>
    cases p with
    | sendPush | tryPop | recvPop => cases h
    | unlock r q =>
      cases r with
      | received x => cases x <;> rfl
      | _ => rfl
    | _ => rfl

/-- A thread with a guard is the only one between the queue and the records. -/
theorem Guarded.recorded [Fintype ι] (h : Guarded ids vids adaptive first c)
    (hpos : 0 < share (c.pcs t)) :
    ∀ u, u ≠ t → (burden (c.pcs u)).unrecorded = false := fun _ hu ↦
  unrecorded_eq_false (h.share_eq_zero hpos hu)

/-- No more values are taken out of the queue than were put in. -/
theorem Guarded.pops_le [Fintype ι] (hfirst : first ≠ 0) (h : Guarded ids vids adaptive first c) :
    c.shared.records.pops ≤ c.shared.records.pushes.length :=
  AtomicVec.pops_le hfirst h.bufferRun

theorem Fifo.put [Fintype ι] (hfirst : first ≠ 0) (h : Guarded ids vids adaptive first c)
    (hF : Fifo n c) (hpc : c.pcs t = some p) (hm : Moves ids vids adaptive t ch c.shared p s' o) :
    Fifo n (c.put t (s', o)) := by
  have hknow := hF.knows t p hpc
  have heff := moves_effect hm hknow
  have hb : s'.bounded = n := heff.bounded.trans hF.bounded
  refine ⟨hb, ?_, fun hn ↦ ?_, ?_⟩
  · rw [Config.put_shared, Config.comp_put_pcs burden]
    refine hF.accounts.step (g := share (c.pcs t)) (h.pops_le hfirst) h.recorded ?_
    rw [hpc]
    exact heff
  · have hroom : c.shared.records.content.length ≤ n := hF.room hn
    exact heff.room hF.bounded hn hroom
  · refine Config.forall_put (L := fun _ (s : Store ι α) q ↦ Knows s.records q)
      (moves_knows hm (h.stage t p hpc) hknow ?_) fun u q hu hq ↦ ?_
    · rw [hF.bounded]
      exact hF.room
    · refine (hF.knows u q hq).mono heff.bounded heff.closed ?_
      obtain hg | ⟨hpu, hpo, hcl, -, -⟩ := heff.queue
      · left
        rw [← hq]
        exact h.share_eq_zero (by rw [hpc]; exact hg) hu
      · exact Or.inr ⟨hpu, hpo, hcl⟩

/-- The start of a call leaves the records alone. -/
theorem enter_records {op : Op α} {s : Store ι α} (he : enter t op s = some (s', o)) :
    s'.records = s.records ∧ burden o.pc = .none ∧ ∀ q, o.pc = some q → Knows s'.records q := by
  cases op with
  | send | tryRecv | recv | close =>
    cases he
    exact ⟨rfl, rfl, by rintro _ ⟨⟩; trivial⟩
  | evict =>
    cases he
    exact ⟨rfl, rfl, by rintro _ ⟨⟩⟩

/-- **Every reachable channel accounts for its values.** -/
theorem reach_fifo [Fintype ι] {ok : Config ι (Store ι α) (Pc ι α) → Label ι (Op α) → Prop}
    (hfirst : first ≠ 0) (hc : Reach (mpmc ids vids adaptive) ok (init first n) c) : Fifo n c := by
  refine hc.invariant (I := Fifo n) ?_ ?_ ?_
  · refine ⟨rfl,
      ⟨fun _ _ h ↦ (by cases h), fun _ ↦ rfl, fun _ _ h ↦ (by cases h), fun _ ↦ rfl, fun _ ↦ rfl,
      fun _ ↦ rfl⟩, fun _ ↦ Nat.zero_le _, by simp [init]⟩
  · rintro c t op ⟨s', o⟩ - hF - hpc he
    obtain ⟨hr, hb, hk⟩ := enter_records he
    have hbur : burden o.pc = burden (c.pcs t) := by
      rw [hpc]
      exact hb
    refine ⟨(congrArg Records.bounded hr).trans hF.bounded, ?_, fun hn ↦ ?_, ?_⟩
    · rw [Config.put_shared, Config.comp_put_pcs burden, hr, hbur, Function.update_eq_self]
      exact hF.accounts
    · show s'.records.content.length ≤ n
      rw [hr]
      exact hF.room hn
    · refine Config.forall_put (L := fun _ (s : Store ι α) q ↦ Knows s.records q) hk
        fun u q _ hq ↦ ?_
      rw [hr]
      exact hF.knows u q hq
  · rintro c t ch p ⟨s', o⟩ hc hF - hpc he
    have hG := reach_guarded hfirst hc
    exact hF.put hfirst hG hpc (exec_moves hfirst hG hpc he)

end Runs

end Mpmc

end Crossync
