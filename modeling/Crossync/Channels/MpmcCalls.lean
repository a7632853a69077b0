import Crossync.Channels.MpmcFifo

/-!
# What the calls of `Mpmc` return

A `recv` goes through several critical sections and sleeps in between, so what its last one finds is
not what the first one found; and a `send` that fails must not have done anything on the way. Both
are about one call with the steps of everybody else in between, and are proved along such runs
(`Calls`).

The records move in one direction: a closed channel stays closed and accepts nothing more, so a
channel that was closed with nothing left in it (`Drained`) stays so, and a `recv` that has seen
this may say so whenever it returns.

## Verdicts

An error is a claim about the channel at some moment of the call: that it was closed, that it was
full, that it was empty. The moments are inside critical sections of the call, and the statement
says which. A success is a claim about the records.
-/

open Interleave

namespace Crossync

namespace Mpmc

variable {ι α : Type*} [Fintype ι] [DecidableEq ι] {ids : SMutex.ThreadIds ι}
  {vids : Coord.ThreadIds ι}
  {adaptive first n : ℕ}

/-- Closed, and everything that was accepted has been received. -/
def Drained (r : Records ι α) : Prop :=
  r.closed = true ∧ r.accepted.map Prod.snd = r.received.map Prod.snd

/-- What a call may return. -/
def Replies (r : Records ι α) : Op α → Ret α → Prop
  | .send v, .sent w => w = v
  | .send v, .rejected _ w => w = v
  | .tryRecv, .received _ => True
  | .recv, .received x => x = none → Drained r
  | .close, .unit => r.closed = true
  | _, _ => False

/-- The program points of a call. -/
def Within (r : Records ι α) : Op α → Pc ι α → Prop
  | .send v, .sendLock w _ => w = v
  | .send v, .sendClosed w => w = v
  | .send v, .sendLen w _ => w = v
  | .send v, .sendPush w _ => w = v
  | .send v, .sendNotify w _ => w = v
  | .tryRecv, .tryLock _ => True
  | .tryRecv, .tryPop _ => True
  | .recv, .recvLock _ => True
  | .recv, .recvPop _ => True
  | .recv, .recvClosed => True
  | .recv, .recvWait _ => True
  | .recv, .recvDrop _ => True
  | .close, .closeLock _ => True
  | .close, .closeStore => True
  | .close, .closeNotify _ => True
  | op, .unlock e _ => Replies r op e
  | _, _ => False

/-- The call has not touched the records, and has not been accepted. -/
def untouched : Pc ι α → Bool
  | .sendLock _ _ | .sendClosed _ | .sendLen _ _ | .unlock (.rejected _ _) _ => true
  | .sendPush _ p => !AtomicVec.reserved p
  | _ => false

section Steps

variable {c c' : Config ι (Store ι α) (Pc ι α)} {t : ι} {ch : Choice ι} {s s' : Store ι α}
  {p : Pc ι α}
  {o : Outcome (Pc ι α) (Ret α)} {r r' : Records ι α} {op : Op α}

omit [Fintype ι] [DecidableEq ι] in
/-- What a call may return depends on what is never taken back. -/
theorem Replies.mono {e : Ret α} (h : Replies r op e) (hc : r.closed = true → r'.closed = true)
    (hd : Drained r → Drained r') : Replies r' op e := by
  cases op with
  | send v =>
    cases e with
    | sent | rejected => exact h
    | _ => exact h.elim
  | tryRecv =>
    cases e with
    | received => trivial
    | _ => exact h.elim
  | recv =>
    cases e with
    | received x => exact fun hx ↦ hd (h hx)
    | _ => exact h.elim
  | close =>
    cases e with
    | unit => exact hc h
    | _ => exact h.elim
  | evict => cases e <;> exact h.elim

omit [Fintype ι] [DecidableEq ι] in
theorem Within.mono (h : Within r op p) (hc : r.closed = true → r'.closed = true)
    (hd : Drained r → Drained r') : Within r' op p := by
  cases p with
  | unlock e q =>
    have hr : Replies r op e := by cases op <;> exact h
    have := hr.mono hc hd
    cases op <;> exact this
  | _ => cases op <;> exact h

omit [Fintype ι] in
/-- A drained channel stays drained: it accepts nothing, and there is nothing to receive. -/
theorem Effect.drained {g : ℕ} {b b' : Burden α} (h : Effect t g r b r' b')
    (hle : r'.closed = true → r'.received.length ≤ r'.accepted.length) (hd : Drained r) :
    Drained r' := by
  obtain ⟨hcl, heq⟩ := hd
  cases h with
  | accept v hg hc =>
    rw [hcl] at hc
    cases hc
  | take k v hg hk hv =>
    have hlen := hle hcl
    have := congrArg List.length heq
    simp only [List.length_map, List.length_append, List.length_singleton] at hlen this
    omega
  | close => exact ⟨rfl, heq⟩
  | _ => exact ⟨hcl, heq⟩

omit [Fintype ι] in
theorem Effect.accepted {g : ℕ} {b b' : Burden α} (h : Effect t g r b r' b')
    (hcl : r.closed = true) :
    r'.accepted = r.accepted := by
  cases h with
  | accept v hg hc =>
    rw [hcl] at hc
    cases hc
  | _ => rfl

omit [Fintype ι] in
theorem Effect.sent {g : ℕ} {b b' : Burden α} (h : Effect t g r b r' b') (u : ι) :
    r.sent u <+: r'.sent u := by
  cases h with
  | deliver v =>
    show r.sent u <+: Function.update r.sent t (r.sent t ++ [v]) u
    by_cases hut : u = t
    · subst hut
      rw [Function.update_self]
      exact List.prefix_append ..
    · rw [Function.update_of_ne hut]
  | _ => exact List.prefix_rfl

/-- A closed channel has received no more than it has accepted. -/
theorem Fifo.received_le (hF : Fifo n c) (hcl : c.shared.records.closed = true) :
    c.shared.records.received.length ≤ c.shared.records.accepted.length := by
  -- nobody is pushing into a closed channel
  have hpush : ∀ t v, burden (c.pcs t) ≠ .pushing v := by
    intro t v hb
    cases hq : c.pcs t with
    | none =>
      rw [hq] at hb
      cases hb
    | some q =>
      have hk := hF.knows t q hq
      rw [hq] at hb
      cases q with
      | sendPush w p =>
        rw [hk.1] at hcl
        cases hcl
      | tryPop p | recvPop p =>
        cases hx : AtomicVec.claimed p <;> simp only [burden, hx] at hb <;> cases hb
      | unlock e p =>
        cases e with
        | received x => cases x <;> cases hb
        | _ => cases hb
      | _ => cases hb
  have hac := congrArg List.length (hF.accounts.pushed hpush)
  rw [List.length_map] at hac
  have htake : ∃ m, c.shared.records.received.map Prod.snd = c.shared.records.pushes.take m := by
    by_cases hpop : ∃ t k, burden (c.pcs t) = .popping k
    · obtain ⟨t, k, hk⟩ := hpop
      exact ⟨_, hF.accounts.popping t k hk⟩
    · exact ⟨_, hF.accounts.popped fun t k hk ↦ hpop ⟨t, k, hk⟩⟩
  obtain ⟨m, hm⟩ := htake
  have hre := congrArg List.length hm
  rw [List.length_map, List.length_take] at hre
  omega

/-- A `recv` that finds the flag set after an empty queue has found a drained channel. -/
theorem Fifo.drained (hfirst : first ≠ 0) (hG : Guarded ids vids adaptive first c) (hF : Fifo n c)
    (hpc : c.pcs t = some .recvClosed) (hcl : c.shared.closed = true) :
    Drained c.shared.records := by
  have hempty : c.shared.records.content = [] := hF.knows t _ hpc
  have hpos : 0 < share (c.pcs t) := by
    rw [hpc]
    exact Nat.one_pos
  obtain ⟨-, -, heq⟩ := hF.accounts.fifo (hG.pops_le hfirst) (hG.recorded hpos)
  refine ⟨hcl, ?_⟩
  rw [heq (by rw [hpc]; rfl), hempty, List.append_nil]

/-- **No step takes back that the channel is closed, or drained.** -/
theorem next_keeps {ok : Config ι (Store ι α) (Pc ι α) → Label ι (Op α) → Prop} {l : Label ι (Op α)}
    (hfirst : first ≠ 0) (hc : Reach (mpmc ids vids adaptive) ok (init first n) c) (hok : ok c l)
    (hn : (mpmc ids vids adaptive).next c l = some c') :
    (c.shared.records.closed = true → c'.shared.records.closed = true) ∧
      (Drained c.shared.records → Drained c'.shared.records) := by
  have hF' := reach_fifo hfirst (hc.tail hok hn)
  obtain ⟨t, op, ⟨s', o⟩, rfl, -, he, rfl⟩ | ⟨t, ch, p, ⟨s', o⟩, rfl, hpc, he, rfl⟩ :=
    Object.next_cases hn
  · have hrec : s'.records = c.shared.records := (enter_records he).1
    rw [Config.put_shared, hrec]
    exact ⟨id, id⟩
  · have hm := exec_moves hfirst (reach_guarded hfirst hc) hpc he
    have heff := moves_effect hm ((reach_fifo hfirst hc).knows t p hpc)
    exact ⟨heff.closed, heff.drained hF'.received_le⟩

omit [Fintype ι] [DecidableEq ι] in
/-- A call that goes on returns nothing yet. -/
theorem within_goto {q : Pc ι α} (h : Within r op q) :
    (∀ q', (Outcome.goto q : Outcome (Pc ι α) (Ret α)).pc = some q' → Within r op q') ∧
      ∀ e, (Outcome.goto q : Outcome (Pc ι α) (Ret α)) = .ret e → Replies r op e :=
  ⟨fun _ hq ↦ Option.some.inj hq ▸ h, nofun⟩

omit [Fintype ι] in
/-- The call goes on in its own code, and returns what it may. -/
theorem moves_within (hm : Moves ids vids adaptive t ch s p s' o) (hw : Within s.records op p)
    (hknow : Knows s.records p) (hdrained : p = .recvClosed → s.closed = true → Drained s.records) :
    (∀ q, o.pc = some q → Within s'.records op q) ∧ ∀ e, o = .ret e → Replies s'.records op e := by
  cases hm with
  | locking hK hp he hq =>
    subst hp
    refine within_goto ?_
    cases hK <;> cases op <;> exact hw
  | locked hK hp he =>
    subst hp
    refine within_goto ?_
    cases hK <;> cases op <;> exact hw
  | unlocking hp he hq =>
    subst hp
    refine within_goto ?_
    cases op <;> exact hw
  | unlocked hp he hf =>
    subst hp
    rename_i e q m
    have hr : Replies s.records op e := by cases op <;> exact hw
    unfold finish at hf
    split at hf
    all_goals
      cases hf
      refine ⟨by rintro _ ⟨⟩, ?_⟩
      rintro _ ⟨⟩
      exact hr.mono id id
  | dropping hp he hq | dropped hp he | waiting hp he | waited hp he =>
    subst hp
    refine within_goto ?_
    cases op <;> exact hw
  | notifying hK hp he =>
    subst hp
    refine within_goto ?_
    cases hK <;> cases op <;> exact hw
  | notified hK hp he =>
    subst hp
    refine within_goto ?_
    cases hK with
    | send v => cases op <;> exact hw
    | close =>
      cases op with
      | close => exact hknow
      | _ => exact hw.elim
  | inside hK hp he hd heff =>
    subst hp
    refine within_goto ?_
    cases hK <;> cases op <;> exact hw
  | full hp he heff hn | fits hp he heff hn | pushed hp he heff =>
    subst hp
    refine within_goto ?_
    cases op <;> exact hw
  | popped hK hp he heff =>
    subst hp
    refine within_goto ?_
    cases hK with
    | tryPop =>
      cases op with
      | tryRecv => trivial
      | _ => exact hw.elim
    | recvPop =>
      cases op with
      | recv => rintro ⟨⟩
      | _ => exact hw.elim
  | tryEmpty hp he heff =>
    subst hp
    refine within_goto ?_
    cases op with
    | tryRecv => trivial
    | _ => exact hw.elim
  | recvEmpty hp he heff =>
    subst hp
    refine within_goto ?_
    cases op <;> exact hw
  | rejects hp hc | measures hp hc hb | pushes hp hc hb | waits hp hc | closes hp =>
    subst hp
    refine within_goto ?_
    cases op <;> exact hw
  | ends hp hc =>
    refine within_goto ?_
    have hdr := hdrained hp hc
    subst hp
    cases op with
    | recv => exact fun _ ↦ hdr
    | _ => exact hw.elim

omit [Fintype ι] in
/-- A call that has not touched the records has not done so at any of its steps. -/
theorem moves_untouched (hm : Moves ids vids adaptive t ch s p s' o) :
    (∀ q, o.pc = some q → untouched q = true → untouched p = true ∧ s'.records = s.records) ∧
      ∀ why v, o = .ret (.rejected why v) → untouched p = true ∧ s'.records = s.records := by
  cases hm with
  | locking hK hp he hq | locked hK hp he =>
    subst hp
    refine ⟨?_, by rintro _ _ ⟨⟩⟩
    rintro _ ⟨⟩ hq
    cases hK with
    | send v => exact ⟨rfl, rfl⟩
    | _ => cases hq
  | unlocking hp he _ =>
    subst hp
    refine ⟨?_, by rintro _ _ ⟨⟩⟩
    rintro _ ⟨⟩ hq
    rename_i e q q' m _
    cases e with
    | rejected => exact ⟨rfl, rfl⟩
    | _ => cases hq
  | unlocked hp he hf =>
    subst hp
    unfold finish at hf
    split at hf
    · cases hf
      exact ⟨by rintro _ ⟨⟩, by rintro _ _ ⟨⟩⟩
    · cases hf
      exact ⟨by rintro _ ⟨⟩, by rintro _ _ ⟨⟩⟩
    · cases hf
      refine ⟨by rintro _ ⟨⟩, ?_⟩
      rintro _ _ ⟨⟩
      exact ⟨rfl, rfl⟩
  | dropping | dropped | waiting | waited | ends | waits | closes | tryEmpty | recvEmpty | popped
  | pushed =>
    exact ⟨by rintro _ ⟨⟩ ⟨⟩, by rintro _ _ ⟨⟩⟩
  | notifying hK | notified hK =>
    refine ⟨?_, by rintro _ _ ⟨⟩⟩
    rintro _ ⟨⟩ hq
    cases hK <;> cases hq
  | inside hK hp he hd heff =>
    subst hp
    refine ⟨?_, by rintro _ _ ⟨⟩⟩
    rintro _ ⟨⟩ hq
    cases hK with
    | len v =>
      cases heff with
      | inside hpu hpo hr hc => exact ⟨rfl, records_setBuffer_same hpu hpo⟩
    | push v =>
      cases heff with
      | inside hpu hpo hr hc =>
        refine ⟨?_, records_setBuffer_same hpu hpo⟩
        simp only [untouched, hr] at hq ⊢
        exact hq
      | reserve hpu hpo hp hq' =>
        simp only [untouched, hq'] at hq
        cases hq
    | tryPop | recvPop => cases hq
  | full hp he heff hn | fits hp he heff hn =>
    subst hp
    refine ⟨?_, by rintro _ _ ⟨⟩⟩
    rintro _ ⟨⟩ _
    cases heff with
    | measured hpu hpo => exact ⟨rfl, records_setBuffer_same hpu hpo⟩
  | rejects hp hc | measures hp hc hb | pushes hp hc hb =>
    subst hp
    refine ⟨?_, by rintro _ _ ⟨⟩⟩
    rintro _ ⟨⟩ _
    exact ⟨rfl, rfl⟩

omit [Fintype ι] in
/-- A send is turned away for fullness at a step that finds the queue full. -/
theorem moves_full (hm : Moves ids vids adaptive t ch s p s' o) (hknow : Knows s.records p)
    (hroom : 0 < s.bounded → s.content.length ≤ s.bounded) {v : α} {q : SMutex.Pc}
    (ho : o.pc = some (.unlock (.rejected .full v) q)) :
    (∃ q', p = .unlock (.rejected .full v) q') ∨ 0 < s.bounded ∧ s.content.length = s.bounded := by
  cases hm with
  | locking hK | locked hK | notifying hK => cases hK <;> cases ho
  | notified hK => cases hK <;> cases ho
  | inside hK => cases hK <;> cases ho
  | unlocking hp he hq =>
    cases ho
    exact Or.inl ⟨_, hp⟩
  | unlocked hp he hf =>
    unfold finish at hf
    split at hf
    all_goals
      cases hf
      cases ho
  | full hp he heff hn =>
    subst hp
    cases heff with
    | measured hpu hpo =>
      have hlen : s.buffer.pushes.length - s.buffer.pops = s.content.length := by
        rw [Store.content, List.length_drop]
      exact Or.inr ⟨hknow.2, Nat.le_antisymm (hroom hknow.2) (hn.trans_eq hlen)⟩
  | _ => cases ho

omit [Fintype ι] in
/-- A call returns from the drop of its guard. -/
theorem moves_return {e : Ret α} (hm : Moves ids vids adaptive t ch s p s' (.ret e)) :
    ∃ q, p = .unlock e q := by
  cases hm with
  | unlocked hp he hf =>
    unfold finish at hf
    split at hf
    all_goals
      cases hf
      exact ⟨_, hp⟩

/-- What is known of a call by its own steps so far. -/
structure Spec (n : ℕ) (op : Op α) (ss : List (Store ι α × Store ι α)) (s : Store ι α)
    (p : Pc ι α) : Prop where
  within : Within s.records op p
  kept : untouched p = true → ∀ x ∈ ss, x.2.records = x.1.records
  found : ∀ v q, p = .unlock (.rejected .full v) q → 0 < n ∧ ∃ x ∈ ss, x.1.content.length = n

/-- **A call keeps to its specification**, with anything happening between its steps. -/
theorem calls_spec {ok : Config ι (Store ι α) (Pc ι α) → Label ι (Op α) → Prop}
    {ss : List (Store ι α × Store ι α)} (hfirst : first ≠ 0)
    (h : Calls (mpmc ids vids adaptive) ok (init first n) t op ss c) :
    ∀ p, c.pcs t = some p → Spec n op ss c.shared p := by
  refine h.invariant (I := Spec n op) ?_ ?_ ?_
  · rintro c s' o - he p hp
    have hrec := (enter_records he).1
    refine ⟨?_, fun _ x hx ↦ ?_, ?_⟩
    · cases op with
      | evict =>
        cases he
        cases hp
      | send | tryRecv | recv | close =>
        cases he
        cases hp
        trivial
    · rw [List.mem_singleton.1 hx]
      exact hrec
    · rintro v q rfl
      cases op with
      | send | tryRecv | recv | close | evict =>
        cases he
        cases hp
  · rintro ss c ch p s' o hc ⟨hw, hun, hfound⟩ - hpc he q hq
    have hG := reach_guarded hfirst hc
    have hF := reach_fifo hfirst hc
    have hm := exec_moves hfirst hG hpc he
    have hknow := hF.knows t p hpc
    have hroom : 0 < c.shared.bounded → c.shared.content.length ≤ c.shared.bounded := by
      rw [hF.bounded]
      exact hF.room
    refine ⟨(moves_within hm hw hknow ?_).1 q hq, fun hqt ↦ ?_, ?_⟩
    · rintro rfl hcl
      exact hF.drained hfirst hG hpc hcl
    · obtain ⟨hp, hrec⟩ := (moves_untouched hm).1 q hq hqt
      intro x hx
      rcases List.mem_append.1 hx with hx | hx
      · exact hun hp x hx
      · rw [List.mem_singleton.1 hx]
        exact hrec
    · rintro v q rfl
      obtain ⟨q', rfl⟩ | ⟨hpos, hlen⟩ := moves_full hm hknow hroom hq
      · obtain ⟨hn, x, hx, hxl⟩ := hfound v q' rfl
        exact ⟨hn, x, List.mem_append_left _ hx, hxl⟩
      · rw [hF.bounded] at hpos hlen
        exact ⟨hpos, (c.shared, s'), List.mem_append_right _ (List.mem_singleton_self _), hlen⟩
  · rintro ss c c' l p hc ⟨hw, hun, hfound⟩ hpc hok hne hn
    obtain ⟨hcl, hdr⟩ := next_keeps hfirst hc hok hn
    exact ⟨hw.mono hcl hdr, hun, hfound⟩

/-- **A closed channel accepts nothing more**, and a thread that was outside then has no further
send succeed. -/
theorem closed_freezes {ok : Config ι (Store ι α) (Pc ι α) → Label ι (Op α) → Prop}
    (hfirst : first ≠ 0) (hc : Reach (mpmc ids vids adaptive) ok (init first n) c)
    (hcl : c.shared.closed = true) (hc' : Reach (mpmc ids vids adaptive) ok c c') :
    c'.shared.closed = true ∧ c'.shared.accepted = c.shared.accepted ∧
      ∀ t, c.pcs t = none → c'.shared.sent t = c.shared.sent t := by
  have hinv : c'.shared.closed = true ∧ c'.shared.accepted = c.shared.accepted ∧
      ∀ t, c.shared.sent t <+: c'.shared.sent t := by
    refine hc'.invariant (I := fun d ↦ d.shared.closed = true ∧
      d.shared.accepted = c.shared.accepted ∧
      ∀ t, c.shared.sent t <+: d.shared.sent t) ⟨hcl, rfl, fun _ ↦ List.prefix_rfl⟩ ?_ ?_
    · rintro d t op ⟨s', o⟩ - ⟨hd, hac, hsent⟩ - - he
      have hrec : s'.records = d.shared.records := (enter_records he).1
      have hsame : s'.sent = d.shared.sent := congrArg Records.sent hrec
      refine ⟨(congrArg Records.closed hrec).trans hd, (congrArg Records.accepted hrec).trans hac,
        fun t ↦ ?_⟩
      rw [Config.put_shared, hsame]
      exact hsent t
    · rintro d t ch p ⟨s', o⟩ hd ⟨hdc, hac, hsent⟩ - hpc he
      have hrun := hc.trans hd
      have hm := exec_moves hfirst (reach_guarded hfirst hrun) hpc he
      have heff := moves_effect hm ((reach_fifo hfirst hrun).knows t p hpc)
      exact ⟨heff.closed hdc, (heff.accepted hdc).trans hac, fun u ↦ (hsent u).trans (heff.sent u)⟩
  obtain ⟨hcl', hac, hsent⟩ := hinv
  refine ⟨hcl', hac, fun t ht ↦ ?_⟩
  -- all that the thread has sent had returned before
  have hbefore := (reach_fifo hfirst hc).accounts.sent t
  have hafter := (reach_fifo hfirst (hc.trans hc')).accounts.sent t
  rw [show c'.shared.records.acceptedBy t = c.shared.records.acceptedBy t by
    rw [Records.acceptedBy, Records.acceptedBy,
      show c'.shared.records.accepted = c.shared.records.accepted from hac],
    hbefore, ht] at hafter
  have hle : (c'.shared.sent t).length ≤ (c.shared.sent t).length := by
    have := congrArg List.length hafter
    simp only [List.length_append, burden, Burden.accepted, List.length_nil] at this
    show (c'.shared.records.sent t).length ≤ (c.shared.records.sent t).length
    omega
  exact ((hsent t).eq_of_length_le hle).symm

end Steps

section Channel

variable {c : Config ι (Store ι α) (Pc ι α)}

/-- The number of the value that is being taken out. -/
theorem pops_of_popping (hG : Guarded ids vids adaptive first c) {t : ι} {k : ℕ}
    (hk : burden (c.pcs t) = .popping k) : c.shared.records.pops = k + 1 := by
  have hclaim : ∀ q : AtomicVec.Pc ι α, (c.pcs t).bind bufferPc = some q →
      ((AtomicVec.claimed q).map Burden.popping).getD .none = (.popping k : Burden α) →
      c.shared.records.pops = k + 1 := by
    intro q hq hb
    cases hx : AtomicVec.claimed q with
    | none =>
      rw [hx] at hb
      cases hb
    | some j =>
      rw [hx] at hb
      cases hb
      have hview : ((c.view Store.buffer bufferPc).pcs t).bind AtomicVec.claimed = some k := by
        rw [Config.view_pcs, hq]
        exact hx
      exact ((AtomicVec.reach_serial hG.bufferRun).claims t k hview).2
  cases hq : c.pcs t with
  | none =>
    rw [hq] at hk
    cases hk
  | some q =>
    rw [hq] at hk
    cases q with
    | tryPop p | recvPop p => exact hclaim p (by rw [hq]; rfl) hk
    | sendPush v p =>
      simp only [burden] at hk
      split_ifs at hk
    | unlock e p =>
      cases e with
      | received x => cases x <;> cases hk
      | _ => cases hk
    | _ => cases hk

/-- **`Mpmc` is a FIFO channel under any interleaving.** In every reachable configuration the
accepted values, in the order of the critical sections, are the received ones followed by the
content of the queue; while a send has put its value in without having recorded it, or a receive has
taken one out, that value stands in between. The accepted and received values of a thread are those
that its calls have returned, with the one that a call on its way out will return.

The queue never holds more than the bound. A call returns what it should: a send its own value,
having changed none of the records if it was rejected, and having found exactly the bound if that
was for fullness; `recv` nothing only when the channel is closed and everything accepted has been
received; `close` only with the channel closed. A closed channel accepts nothing more, and threads
that were outside then have no send succeed. -/
theorem fifo_channel (hfirst : first ≠ 0)
    (hc : Reach (mpmc ids vids adaptive) Always (init first n) c) :
    ((∀ t, (burden (c.pcs t)).unrecorded = false) →
      c.shared.accepted.map Prod.snd = c.shared.received.map Prod.snd ++ c.shared.content) ∧
    (∀ t v, burden (c.pcs t) = .pushing v →
      c.shared.accepted.map Prod.snd ++ [v] = c.shared.received.map Prod.snd ++ c.shared.content) ∧
    (∀ t k, burden (c.pcs t) = .popping k → ∃ v, c.shared.buffer.pushes[k]? = some v ∧
      c.shared.accepted.map Prod.snd = c.shared.received.map Prod.snd ++ v :: c.shared.content) ∧
    (∀ t, c.shared.records.acceptedBy t = c.shared.sent t ++ (burden (c.pcs t)).accepted ∧
      c.shared.records.receivedBy t = c.shared.got t ++ (burden (c.pcs t)).received) ∧
    (0 < n → c.shared.content.length ≤ n) ∧
    (c.shared.closed = true → ∀ c', Reach (mpmc ids vids adaptive) Always c c' →
      c'.shared.closed = true ∧ c'.shared.accepted = c.shared.accepted ∧
      ∀ t, c.pcs t = none → c'.shared.sent t = c.shared.sent t) ∧
    ∀ t op ss ch p s' e, Calls (mpmc ids vids adaptive) Always (init first n) t op ss c →
      c.pcs t = some p →
      exec ids vids adaptive t ch c.shared p = some (s', .ret e) →
      (∀ v, op = .send v → e = .sent v ∨
        ∃ why, e = .rejected why v ∧ (∀ x ∈ ss ++ [(c.shared, s')], x.2.records = x.1.records) ∧
          (why = .full → 0 < n ∧ ∃ x ∈ ss, x.1.content.length = n)) ∧
      (op = .tryRecv → ∃ x, e = .received x) ∧
      (op = .recv → ∃ x, e = .received x ∧
        (x = none → s'.closed = true ∧ s'.accepted.map Prod.snd = s'.received.map Prod.snd)) ∧
      (op = .close → e = .unit ∧ s'.closed = true) := by
  have hG := reach_guarded hfirst hc
  have hF := reach_fifo hfirst hc
  have hle := hG.pops_le hfirst
  refine ⟨fun hall ↦ ?_, fun t v hv ↦ ?_, fun t k hk ↦ ?_,
    fun t ↦ ⟨hF.accounts.sent t, hF.accounts.got t⟩,
    hF.room, fun hcl c' hc' ↦ closed_freezes hfirst hc hcl hc', ?_⟩
  · have hpush : ∀ t v, burden (c.pcs t) ≠ .pushing v := fun t v hv ↦ by
      have := hall t
      rw [hv] at this
      cases this
    have hpop : ∀ t k, burden (c.pcs t) ≠ .popping k := fun t k hk ↦ by
      have := hall t
      rw [hk] at this
      cases this
    have hpu : c.shared.buffer.pushes = c.shared.accepted.map Prod.snd := hF.accounts.pushed hpush
    have hpo : c.shared.received.map Prod.snd = c.shared.buffer.pushes.take c.shared.buffer.pops :=
      hF.accounts.popped hpop
    rw [← hpu, hpo]
    exact (List.take_append_drop ..).symm
  · have hpos : 0 < share (c.pcs t) := by
      by_contra hz
      have := unrecorded_eq_false (q := c.pcs t) (by omega)
      rw [hv] at this
      cases this
    exact (hF.accounts.fifo hle (hG.recorded hpos)).1 v hv
  · have hpos : 0 < share (c.pcs t) := by
      by_contra hz
      have := unrecorded_eq_false (q := c.pcs t) (by omega)
      rw [hk] at this
      cases this
    have hpops := pops_of_popping hG hk
    have hlt : k < c.shared.records.pushes.length := by omega
    refine ⟨_, List.getElem?_eq_getElem hlt, ?_⟩
    exact (hF.accounts.fifo hle (hG.recorded hpos)).2.1 k _ hk hpops (List.getElem?_eq_getElem hlt)
  · intro t op ss ch p s' e hcall hpc he
    have hspec := calls_spec hfirst hcall p hpc
    have hm := exec_moves hfirst hG hpc he
    have hreply := (moves_within hm hspec.within (hF.knows t p hpc)
      (fun hp hcl ↦ hF.drained hfirst hG (hp ▸ hpc) hcl)).2 e rfl
    have hpoint := moves_return hm
    refine ⟨?_, ?_, ?_, ?_⟩
    · rintro v rfl
      cases e with
      | sent w =>
        obtain rfl : w = v := hreply
        exact Or.inl rfl
      | rejected why w =>
        obtain rfl : w = v := hreply
        obtain ⟨hun, hrec⟩ := (moves_untouched hm).2 why w rfl
        refine Or.inr ⟨why, rfl, fun x hx ↦ ?_, ?_⟩
        · rcases List.mem_append.1 hx with hx | hx
          · exact hspec.kept hun x hx
          · rw [List.mem_singleton.1 hx]
            exact hrec
        · rintro rfl
          obtain ⟨q, rfl⟩ := hpoint
          exact hspec.found w q rfl
      | _ => exact hreply.elim
    · rintro rfl
      cases e with
      | received x => exact ⟨x, rfl⟩
      | _ => exact hreply.elim
    · rintro rfl
      cases e with
      | received x => exact ⟨x, rfl, hreply⟩
      | _ => exact hreply.elim
    · rintro rfl
      cases e with
      | unit => exact ⟨rfl, hreply⟩
      | _ => exact hreply.elim

end Channel

/-- A channel of bound one: thread `0` has sent `7`, and thread `1` is turned away with `8`. -/
theorem fifo_channel_full :
    ∃ c : Config (Fin 2) (Store (Fin 2) ℕ) (Pc (Fin 2) ℕ),
      Reach (mpmc SMutex.twoIds Coord.twoIds 4) Always (init 1 1) c ∧
      c.pcs 0 = none ∧ c.pcs 1 = some (.unlock (.rejected .full 8) .unlockOwner) ∧
        c.shared.content = [7] ∧
      c.shared.accepted.map Prod.snd = c.shared.received.map Prod.snd ++ c.shared.content ∧
      c.shared.content.length ≤ 1 := by
  obtain ⟨c, hc, ht⟩ := Reach.exists_of_replay (mpmc SMutex.twoIds Coord.twoIds 4) Always
    (init 1 1 : Config (Fin 2) (Store (Fin 2) ℕ) (Pc (Fin 2) ℕ))
    ((.call 0 (.send 7) :: List.replicate 23 (.exec 0 .go)) ++
      (.call 1 (.send 8) :: List.replicate 7 (.exec 1 .go)))
    (fun c ↦ decide (c.pcs 0 = none ∧ c.pcs 1 = some (.unlock (.rejected .full 8) .unlockOwner) ∧
      c.shared.content = [7])) (by decide +kernel)
  obtain ⟨h₀, h₁, hcontent⟩ := of_decide_eq_true ht
  have h := fifo_channel (by decide) hc
  refine ⟨c, hc, h₀, h₁, hcontent, h.1 fun t ↦ ?_, h.2.2.2.2.1 Nat.one_pos⟩
  obtain rfl | rfl : t = 0 ∨ t = 1 := by omega
  · rw [h₀]
    rfl
  · rw [h₁]
    rfl

end Mpmc

end Crossync
