import Crossync.Atomic.VecReclaim

/-!
# `AtomicVec` delivers every value exactly once and in order

The invariant, read as places. A pushed value is in the hands of its push, in the slot it was pushed
for, in the hands of the pop that reserved this slot, or returned; the two phases of the slot say
which, so it is in one place and in no other (`delivers_exactly_once`).

## From phases to places

The ledger gives every slot a push phase and a pop phase. Of the combinations, those that the code
reaches say where the value is: with the push that reserved the slot, in the block, with the pop,
returned. `Holds` is this reading, and two theorems about it are enough: a pushed value has a place,
and a place has one value.

The order is that of the slots. A value is pushed under the number of its slot, and a pop returns
the value of the slot it reserved; both ends hand out numbers in order.
-/

open Interleave

namespace Crossync

namespace AtomicVec

variable {ι α : Type*} [DecidableEq ι] {ids : Coord.ThreadIds ι} {adaptive : ℕ}

/-! ### Places

A place is a slot, a program point or the record of what was returned. A pushed value holds one of
them at any time. -/

/-- A place where a pushed value can be. -/
inductive Place (ι : Type*) where
  /-- In the hands of its push. -/
  | inPush (t : ι)
  /-- In a slot of the block at an address. -/
  | inSlot (b i : ℕ)
  /-- In the hands of its pop. -/
  | inPop (t : ι)
  /-- Returned by the `j`-th completed pop. -/
  | returned (j : ℕ)
  deriving DecidableEq

/-- The slot that a push has reserved, and the value it has not written there yet. -/
def brings : Pc ι α → Option (ℕ × α)
  | .push f pt =>
    match pt with
    | .cas | .publish => none
    | _ => some (number (f.tail / 2), f.value)
  | _ => none

/-- The slot that a pop has reserved, and what it has taken there. -/
def carries : Pc ι α → Option (ℕ × Option (ℕ × α))
  | .pop f pt =>
    match pt with
    | .mark v | .count v | .retireLoad v | .retireNext v _ | .retireCas v _ | .retireCount v =>
      some (number (f.head / 2), v)
    | _ => none
  | .popUnpin (some e) _ _ | .reclaim (.popped (some e)) _ => some e
  | _ => none

/-- The value `v` pushed for slot `k` is at a place. -/
def Holds (c : Config ι (Store ι α) (Pc ι α)) (k : ℕ) (v : α) : Place ι → Prop
  | .inPush t => (c.pcs t).bind brings = some (k, v)
  | .inSlot b i => c.shared.allocated b = true ∧ i < 31 ∧ (c.shared.heap b).value i = some (k, v)
  | .inPop t => (c.pcs t).bind carries = some (k, some (k, v))
  | .returned j => c.shared.returned[j]? = some (k, some (k, v))

/-- The place that the phases of a slot stand for. -/
def Place.Of (G : Ghost ι) (s : Store ι α) (k : ℕ) : Place ι → Prop
  | .inPush t => G.pushed k = .held .reserved t
  | .inSlot b i => (b = G.chain (k / 31) ∧ i = k % 31) ∧
      ((∃ t, G.pushed k = .held .written t) ∨ G.pushed k = .done) ∧ (G.popped k).taken = false
  | .inPop t => ∃ st, st ≠ .reserved ∧ G.popped k = .held st t
  | .returned j => G.popped k = .done ∧ (s.returned.map Prod.fst)[j]? = some k

section Places

variable {G : Ghost ι} {c : Config ι (Store ι α) (Pc ι α)} {k : ℕ} {v : α}

omit [DecidableEq ι] in
/-- A slot that a pop holds past its reservation is taken. -/
theorem taken_of_held {st : PopStage} {t : ι} (h : st ≠ .reserved) :
    (Phase.held st t : Phase PopStage ι).taken = true := by
  cases st <;> first | rfl | exact absurd rfl h

omit [DecidableEq ι] in
/-- What has been taken is no longer in the hands of a push. -/
theorem Place.Of.unique {a b : Place ι} (hn : (c.shared.returned.map Prod.fst).Nodup)
    (hc : Chain G c.shared) (ha : a.Of G c.shared k) (hb : b.Of G c.shared k) : a = b := by
  have hpush : ∀ {t}, G.pushed k = .held .reserved t → (G.popped k).taken = true → False := by
    intro t h₁ h₂
    rw [hc.taken k h₂] at h₁
    cases h₁
  cases a with
  | inPush t =>
    cases b with
    | inPush u =>
      have := (show G.pushed k = _ from ha).symm.trans hb
      cases this
      rfl
    | inSlot b i =>
      obtain ⟨-, ⟨u, hw⟩ | hw, -⟩ := hb <;> rw [show G.pushed k = _ from ha] at hw <;> cases hw
    | inPop u =>
      obtain ⟨st, hst, hp⟩ := hb
      exact (hpush ha (by rw [hp]; exact taken_of_held hst)).elim
    | returned j => exact (hpush ha (by rw [hb.1]; rfl)).elim
  | inSlot b₁ i₁ =>
    cases b with
    | inPush u =>
      obtain ⟨-, ⟨t, hw⟩ | hw, -⟩ := ha <;> rw [show G.pushed k = _ from hb] at hw <;> cases hw
    | inSlot b₂ i₂ => rw [ha.1.1, ha.1.2, hb.1.1, hb.1.2]
    | inPop u =>
      obtain ⟨st, hst, hp⟩ := hb
      have := ha.2.2
      rw [hp, taken_of_held hst] at this
      cases this
    | returned j =>
      have := ha.2.2
      rw [hb.1] at this
      cases this
  | inPop t =>
    obtain ⟨st, hst, hp⟩ := ha
    cases b with
    | inPush u => exact (hpush hb (by rw [hp]; exact taken_of_held hst)).elim
    | inSlot b i =>
      have := hb.2.2
      rw [hp, taken_of_held hst] at this
      cases this
    | inPop u =>
      obtain ⟨st', -, hp'⟩ := hb
      have := hp.symm.trans hp'
      cases this
      rfl
    | returned j =>
      have := hp.symm.trans hb.1
      cases this
  | returned j =>
    cases b with
    | inPush u => exact (hpush hb (by rw [ha.1]; rfl)).elim
    | inSlot b i =>
      have := hb.2.2
      rw [ha.1] at this
      cases this
    | inPop u =>
      obtain ⟨st, -, hp⟩ := hb
      have := hp.symm.trans ha.1
      cases this
    | returned l =>
      have hj : j < (c.shared.returned.map Prod.fst).length :=
        (List.getElem?_eq_some_iff.1 ha.2).1
      exact congrArg _ ((List.getElem?_inj hj hn).1 (ha.2.trans hb.2.symm))

omit [DecidableEq ι] in
/-- A program point that brings a value is a push with that value and slot. -/
theorem brings_eq {p : Pc ι α} (h : brings p = some (k, v)) :
    ∃ f pt, p = .push f pt ∧ f.slot = k ∧ f.value = v ∧ pushClaim p = some (k, .reserved) := by
  cases p with
  | push f pt =>
    cases pt with
    | cas | publish => cases h
    | _ =>
      cases h
      exact ⟨f, _, rfl, rfl, rfl, rfl⟩
  | _ => cases h

omit [DecidableEq ι] in
/-- A pop that holds its slot beyond the reservation has something in hand. -/
theorem carries_of_popClaim {p : Pc ι α} {st : PopStage} (h : popClaim p = some (k, st))
    (hst : st ≠ .reserved) : ∃ x, carries p = some (k, x) := by
  cases p with
  | pop f pt =>
    cases pt with
    | tail | cas => cases h
    | waitNext | getNext | headBlock | headIndex | waitWrite | take =>
      cases h
      exact absurd rfl hst
    | mark v | count v | retireLoad v | retireNext v | retireCas v | retireCount v =>
      cases h
      exact ⟨v, rfl⟩
  | popUnpin res b q =>
    cases res with
    | none => cases h
    | some e =>
      cases h
      exact ⟨e.2, rfl⟩
  | reclaim r pt =>
    cases r with
    | popped res =>
      cases res with
      | none => cases h
      | some e =>
        cases h
        exact ⟨e.2, rfl⟩
    | _ => cases h
  | _ => cases h

omit [DecidableEq ι] in
/-- What a pop has in hand is what was brought for its slot. -/
theorem Inv.carries_brings (h : Inv G c) {t : ι} {p : Pc ι α} {x : Option (ℕ × α)}
    (hpc : c.pcs t = some p) (hp : carries p = some (k, x)) :
    Brings c.shared k x ∧ ∃ st, st ≠ .reserved ∧ popClaim p = some (k, st) := by
  have hk := h.knows t p hpc
  cases p with
  | pop f pt =>
    cases pt with
    | mark v =>
      cases hp
      exact ⟨hk.2, _, by simp, rfl⟩
    | count v =>
      cases hp
      exact ⟨hk.2, _, by simp, rfl⟩
    | retireLoad v =>
      cases hp
      exact ⟨hk.2, _, by simp, rfl⟩
    | retireNext v n =>
      cases hp
      exact ⟨hk.2, _, by simp, rfl⟩
    | retireCas v n =>
      cases hp
      exact ⟨hk.2, _, by simp, rfl⟩
    | retireCount v =>
      cases hp
      exact ⟨hk, _, by simp, rfl⟩
    | _ => cases hp
  | popUnpin res b q =>
    cases res with
    | none => cases hp
    | some e =>
      cases hp
      exact ⟨hk k x rfl, _, by simp, rfl⟩
  | reclaim r pt =>
    cases r with
    | popped res =>
      cases res with
      | none => cases hp
      | some e =>
        cases hp
        exact ⟨hk.1 k x rfl, _, by simp, rfl⟩
    | _ => cases hp
  | _ => cases hp

omit [DecidableEq ι] in
/-- A slot has a value to deliver when it was written and has not been taken. -/
theorem slotValue_eq_some {x : Option (ℕ × α)} {pu : Phase PushStage ι} {po : Phase PopStage ι}
    {y : ℕ × α} (h : slotValue x pu po = some y) :
    x = some y ∧ ((∃ t, pu = .held .written t) ∨ pu = .done) ∧ po.taken = false := by
  unfold slotValue at h
  split at h
  · exact ⟨h, Or.inl ⟨_, rfl⟩, rfl⟩
  · exact ⟨h, Or.inl ⟨_, rfl⟩, rfl⟩
  · exact ⟨h, Or.inr rfl, rfl⟩
  · exact ⟨h, Or.inr rfl, rfl⟩
  · cases h

omit [DecidableEq ι] in
/-- A place that holds a value is a place of its slot, and the value is the one pushed. -/
theorem Inv.holds_of (h : Inv G c) {a : Place ι} (ha : Holds c k v a) :
    a.Of G c.shared k ∧ c.shared.pushes[k]? = some v := by
  cases a with
  | inPush t =>
    obtain ⟨p, hpc, hp⟩ := Option.bind_eq_some_iff.1 ha
    obtain ⟨f, pt, rfl, rfl, rfl, hclaim⟩ := brings_eq hp
    refine ⟨h.ledger.pushed_eq hpc hclaim, ?_⟩
    have hk := h.knows t _ hpc
    cases pt with
    | cas | publish => cases hp
    | poolHead | poolTail | alloc => exact hk.1.2
    | poolPop | linkNext | cachePtr | cacheTag | linkBlock | linkIndex => exact hk.1.1.2
    | write => exact hk.2
  | inSlot b i =>
    obtain ⟨-, hi, hv⟩ := ha
    -- a block with a value is live
    obtain ⟨n, hn⟩ : ∃ n, G.role b = .active n := by
      by_contra hne
      rw [h.chain.vacant b (fun n hn ↦ hne ⟨n, hn⟩) i hi] at hv
      cases hv
    obtain ⟨hle, rfl, hlive⟩ := (h.chain.active_iff b n).1 hn
    rw [(h.chain.shows n hle hlive).value i hi] at hv
    obtain ⟨hx, hpu, hpo⟩ := slotValue_eq_some hv
    obtain ⟨w, hw, hpair⟩ := Option.map_eq_some_iff.1 hx
    obtain ⟨rfl, rfl⟩ := Prod.mk.inj hpair
    refine ⟨⟨⟨?_, ?_⟩, hpu, hpo⟩, hw⟩
    · rw [show (31 * n + i) / 31 = n by omega]
    · omega
  | inPop t =>
    obtain ⟨p, hpc, hp⟩ := Option.bind_eq_some_iff.1 ha
    obtain ⟨⟨w, hw, hx⟩, st, hst, hclaim⟩ := h.carries_brings hpc hp
    cases hx
    exact ⟨⟨st, hst, h.ledger.popped_eq hpc hclaim⟩, hw⟩
  | returned j =>
    have hmem := List.mem_of_getElem? ha
    obtain ⟨w, hw, hx⟩ := h.delivered _ _ hmem
    cases hx
    refine ⟨⟨(h.ledger.returned k).2 ⟨_, hmem⟩, ?_⟩, hw⟩
    rw [List.getElem?_map, show c.shared.returned[j]? = _ from ha]
    rfl

omit [DecidableEq ι] in
/-- The value of a slot whose phases say that it is in the slot. -/
theorem Inv.holds_slot (h : Inv G c) (hv : c.shared.pushes[k]? = some v)
    (hpu : (∃ t, G.pushed k = .held .written t) ∨ G.pushed k = .done)
    (hpo : G.popped k = .free ∨ ∃ t, G.popped k = .held .reserved t) :
    Holds c k v (.inSlot (G.chain (k / 31)) (k % 31)) := by
  have hlive : reads G.popped (k / 31) < 31 := by
    refine Chain.live_of_not_counted ?_
    rcases hpo with hp | ⟨t, hp⟩ <;> rw [hp] <;> rfl
  have hle : k / 31 ≤ G.last := by
    have hlt := (List.getElem?_eq_some_iff.1 hv).1
    have := h.chain.pushes_le
    omega
  have hi : k % 31 < 31 := Nat.mod_lt _ (by decide)
  refine ⟨(h.stock.alloc_iff _).2 ?_, hi, ?_⟩
  · rw [h.chain.role_chain hle hlive]
    simp
  · rw [(h.chain.shows _ hle hlive).value _ hi, Nat.div_add_mod, brought, hv]
    rcases hpu with ⟨t, hp⟩ | hp <;> rcases hpo with hp' | ⟨u, hp'⟩ <;> rw [hp, hp'] <;> rfl

omit [DecidableEq ι] in
/-- Every pushed value has a place. -/
theorem Inv.exists_holds (h : Inv G c) (hv : c.shared.pushes[k]? = some v) :
    ∃ a, Holds c k v a := by
  have hlt := (List.getElem?_eq_some_iff.1 hv).1
  have hbring : ∀ {x}, Brings c.shared k x → x = some (k, v) := by
    rintro x ⟨w, hw, rfl⟩
    rw [hv] at hw
    cases hw
    rfl
  have hslot : ((∃ t, G.pushed k = .held .written t) ∨ G.pushed k = .done) →
      G.popped k = .free ∨ (∃ t, G.popped k = .held .reserved t) → ∃ a, Holds c k v a :=
    fun h₁ h₂ ↦ ⟨_, h.holds_slot hv h₁ h₂⟩
  cases hpu : G.pushed k with
  | free =>
    have := (h.ledger.pushed_free k).1 hpu
    omega
  | held st t =>
    cases st with
    | reserved =>
      obtain ⟨p, hpc, hp⟩ := Option.bind_eq_some_iff.1 ((h.ledger.pushing t k _).1 hpu)
      have hk := h.knows t p hpc
      refine ⟨.inPush t, ?_⟩
      rw [Holds, hpc]
      cases p with
      | push f pt =>
        cases pt with
        | cas | publish => cases hp
        | poolHead | poolTail | alloc =>
          cases hp
          have := hk.1.2
          rw [show c.shared.pushes[f.slot]? = some v from hv] at this
          cases this
          rfl
        | poolPop | linkNext | cachePtr | cacheTag | linkBlock | linkIndex =>
          cases hp
          have := hk.1.1.2
          rw [show c.shared.pushes[f.slot]? = some v from hv] at this
          cases this
          rfl
        | write =>
          cases hp
          have := hk.2
          rw [show c.shared.pushes[f.slot]? = some v from hv] at this
          cases this
          rfl
      | _ => cases hp
    | written => exact hslot (Or.inl ⟨t, hpu⟩) (h.chain.popped_of_pushing (by rw [hpu]; simp))
  | done =>
    cases hpo : G.popped k with
    | free => exact hslot (Or.inr hpu) (Or.inl hpo)
    | held st t =>
      obtain ⟨p, hpc, hp⟩ := Option.bind_eq_some_iff.1 ((h.ledger.popping t k st).1 hpo)
      by_cases hst : st = .reserved
      · subst hst
        exact hslot (Or.inr hpu) (Or.inr ⟨t, hpo⟩)
      · obtain ⟨x, hx⟩ := carries_of_popClaim hp hst
        refine ⟨.inPop t, ?_⟩
        rw [Holds, hpc]
        exact hbring (h.carries_brings hpc hx).1 ▸ hx
    | done =>
      obtain ⟨x, hx⟩ := (h.ledger.returned k).1 hpo
      obtain ⟨j, hj⟩ := List.getElem?_of_mem hx
      exact ⟨.returned j, by rw [Holds, hj, hbring (h.delivered k x hx)]⟩

end Places

/-! ### Delivery

What the invariant says about the places, and that two values are never in one place. -/

/-- The block that a thread is about to free or to reset, and how many of its slots have been
reset. -/
def reclaims : Pc ι α → Option (ℕ × ℕ)
  | .reclaim _ (.free b _) | .reclaim _ (.resetNext b _)
  | .reclaim _ (.resetCount b _) => some (b, 0)
  | .reclaim _ (.resetSlot b _ i) => some (b, i)
  | _ => none

omit [DecidableEq ι] in
/-- A block that is being reclaimed is spent from the position of the reclamation on. -/
theorem Inv.reclaims_spent {G : Ghost ι} {c : Config ι (Store ι α) (Pc ι α)} (h : Inv G c) {t : ι}
    {p : Pc ι α} {b i : ℕ} (hpc : c.pcs t = some p) (hp : reclaims p = some (b, i)) :
    inside p = true ∧ ∀ j < 31, i ≤ j → (c.shared.heap b).state j = read := by
  have hk := h.knows t p hpc
  cases p with
  | reclaim r pt =>
    cases pt with
    | free b' n | resetNext b' n =>
      cases hp
      exact ⟨rfl, fun j hj _ ↦ hk.2.1.2.state j hj⟩
    | resetCount b' n =>
      cases hp
      exact ⟨rfl, fun j hj _ ↦ hk.2.1.1.2.state j hj⟩
    | resetSlot b' n i' =>
      cases hp
      exact ⟨rfl, fun j hj hij ↦ hk.2.1.2.still j hj hij⟩
    | _ => cases hp
  | _ => cases hp

/-! ### The record of the pops

`returned` is a ghost of the model. The last lemma ties it to what the calls return. -/

/-- The entry for the record that an outcome brings: what a pop returns, if it returns a value. -/
def answered : Outcome (Pc ι α) (Ret α) → List (ℕ × Option (ℕ × α))
  | .ret (.popped (some e)) => [e]
  | _ => []

section Record

variable {t : ι} {ch : Choice ι} {s s' : Store ι α} {p : Pc ι α} {o : Outcome (Pc ι α) (Ret α)}

/-- **A step records what it returns**: the record of the pops grows by the value that a pop
returns, and by nothing else. -/
def KeepsRecord (s s' : Store ι α) (o : Outcome (Pc ι α) (Ret α)) : Prop :=
  s'.returned = s.returned ++ answered o

omit [DecidableEq ι] in
/-- A step that does not return keeps the record as it was. -/
theorem KeepsRecord.goto (h : s'.returned = s.returned) (q : Pc ι α) : KeepsRecord s s' (.goto q) :=
  h.trans (List.append_nil _).symm

omit [DecidableEq ι] in
/-- A return that reports no element keeps the record as it was. -/
theorem KeepsRecord.ret (h : s'.returned = s.returned) {r : Ret α}
    (hr : ∀ e, r ≠ .popped (some e)) :
    KeepsRecord s s' (.ret r) := by
  have hnil : answered (.ret r : Outcome (Pc ι α) (Ret α)) = [] := by
    cases r with
    | popped res =>
      cases res with
      | none => rfl
      | some e => exact absurd rfl (hr e)
    | _ => rfl
  rw [KeepsRecord, hnil, h, List.append_nil]

omit [DecidableEq ι] in
/-- The release of the coordinator returns what the pop has recorded. -/
theorem finish_recorded {r : Ret α} (l : Coord.Store ι)
    (h : (s', o) = finish { s with coordLock := l } r) : KeepsRecord s s' o := by
  unfold finish at h
  split at h
  · cases h
    rfl
  · rename_i hne
    cases h
    exact .ret rfl fun e he ↦ hne e he

omit [DecidableEq ι] in
/-- A step of the coordination records nothing by itself. -/
theorem coordStep_recorded {r : Option (Coord.Store ι × Outcome (Coord.Pc ι) Coord.Ret)}
    {stay : Coord.Pc ι → Pc ι α}
    {done : Store ι α → Coord.Ret → Store ι α × Outcome (Pc ι α) (Ret α)}
    (h : coordStep s r stay done = some (s', o))
    (hdone : ∀ l e, (s', o) = done { s with coordLock := l } e → KeepsRecord s s' o) :
    KeepsRecord s s' o := by
  obtain ⟨l, ⟨q, -, rfl, rfl⟩ | ⟨e, -, hd⟩⟩ := coordStep_cases h
  · exact .goto rfl _
  · exact hdone l e hd

/-- The start of a call returns nothing that is not recorded. -/
theorem enter_recorded {op : Op α} (he : enter t op s = some (s', o)) : KeepsRecord s s' o := by
  cases op with
  | evict =>
    cases he
    exact .ret rfl (by simp)
  | _ =>
    cases he
    exact .goto rfl _

/-- The reclamation of blocks ends the pop with the element it has recorded. -/
theorem execReclaim_recorded {r : Ret α} {pt : ReclaimPoint ι}
    (he : execReclaim ids adaptive t ch s r pt = some (s', o)) : KeepsRecord s s' o := by
  cases pt with
  | count =>
    simp only [execReclaim] at he
    split_ifs at he
    · exact finish_recorded s.coordLock (Option.some.inj he).symm
    · cases he
      exact .goto rfl _
    · cases he
      exact .goto rfl _
  | enter q =>
    simp only [execReclaim] at he
    refine coordStep_recorded he fun l e hd ↦ ?_
    cases e with
    | exclusive =>
      cases hd
      exact .goto rfl _
    | busy => exact finish_recorded l hd
    | _ =>
      cases hd
      exact .ret rfl (by simp)
  | leave q =>
    simp only [execReclaim] at he
    exact coordStep_recorded he fun l e hd ↦ finish_recorded l hd
  | _ =>
    simp only [execReclaim] at he
    repeat' split at he
    all_goals cases he
    all_goals exact .goto rfl _

/-- **What a pop returns is what the step puts on record.** -/
theorem exec_recorded (he : exec ids adaptive t ch s p = some (s', o)) : KeepsRecord s s' o := by
  cases p with
  | pushPin v q | popPin q =>
    simp only [exec] at he
    refine coordStep_recorded he fun l e hd ↦ ?_
    cases e with
    | pinned lane =>
      cases hd
      exact .goto rfl _
    | _ =>
      cases hd
      exact .ret rfl (by simp)
  | pushUnpin q =>
    simp only [exec] at he
    refine coordStep_recorded he fun l e hd ↦ ?_
    cases hd
    exact .ret rfl (by simp)
  | popUnpin res b q =>
    simp only [exec] at he
    refine coordStep_recorded he fun l e hd ↦ ?_
    split_ifs at hd
    · cases hd
      exact .goto rfl _
    · exact finish_recorded l hd
  | push f pt =>
    cases pt
    all_goals
      simp only [exec, execPush] at he
      repeat' split at he
    all_goals cases he
    all_goals exact .goto rfl _
  | pop f pt =>
    cases pt
    all_goals
      simp only [exec, execPop] at he
      repeat' split at he
    all_goals cases he
    all_goals exact .goto rfl _
  | reclaim r pt => exact execReclaim_recorded he
  | lenTail head =>
    cases he
    exact .ret rfl (by simp)
  | pushTail | pushBlock | popHead | popBlock | lenHead =>
    cases he
    exact .goto rfl _

end Record

variable [Fintype ι]

/-- **Every value is delivered exactly once and in reservation order.** In every reachable state:
the ends count the reserved data slots; a completed pop that reserved slot `k` has returned the
value of the push that reserved slot `k`, and no slot is returned twice; every pushed value is at
exactly one place; and a block that is being reset or freed has had all its data slots read, at a
moment at which no push and no pop is pinned and nobody else is in the exclusive section. The record
of what the completed pops have returned is kept by every step: it grows by the value that a pop
returns, when it returns it. -/
theorem delivers_exactly_once {first : ℕ} {c : Config ι (Store ι α) (Pc ι α)} (hfirst : first ≠ 0)
    (h : Reach (atomicVec ids adaptive) Always (init first) c) :
    (number (c.shared.tail.index / 2) = c.shared.pushes.length ∧
      number (c.shared.head.index / 2) = c.shared.pops) ∧
    (∀ k x, (k, x) ∈ c.shared.returned → ∃ v, x = some (k, v) ∧ c.shared.pushes[k]? = some v) ∧
    (c.shared.returned.map Prod.fst).Nodup ∧
    (∀ k v, c.shared.pushes[k]? = some v → ∃! a, Holds c k v a) ∧
    (∀ k v a, Holds c k v a → c.shared.pushes[k]? = some v) ∧
    (∀ t p b i, c.pcs t = some p → reclaims p = some (b, i) →
      (∀ j < 31, i ≤ j → (c.shared.heap b).state j = read) ∧
      ∀ u q, c.pcs u = some q → pinned q = none ∧ (inside q = true → u = t)) ∧
    (∀ t op s' o, enter t op c.shared = some (s', o) → KeepsRecord c.shared s' o) ∧
    (∀ t ch p s' o, c.pcs t = some p → exec ids adaptive t ch c.shared p = some (s', o) →
      KeepsRecord c.shared s' o) := by
  obtain ⟨G, hI⟩ := reach_inv hfirst h
  have hE := reach_ends h
  have hC := reach_coordinated h
  refine ⟨⟨hE.tail_number, hE.head_number⟩, ?_, hI.ledger.nodup, ?_, ?_, ?_,
    fun t op s' o he ↦ enter_recorded he, fun t ch p s' o _ he ↦ exec_recorded he⟩
  · intro k x hx
    obtain ⟨v, hv, hxv⟩ := hI.delivered k x hx
    exact ⟨v, hxv, hv⟩
  · intro k v hv
    obtain ⟨a, ha⟩ := hI.exists_holds hv
    exact ⟨a, ha, fun b hb ↦
      Place.Of.unique hI.ledger.nodup hI.chain (hI.holds_of hb).1 (hI.holds_of ha).1⟩
  · intro k v a ha
    exact (hI.holds_of ha).2
  · intro t p b i hpc hp
    obtain ⟨hin, hread⟩ := hI.reclaims_spent hpc hp
    refine ⟨hread, fun u q hq ↦ ?_⟩
    obtain ⟨h₁, h₂⟩ := hC.inside_alone hpc hin hq
    exact ⟨h₂, h₁⟩

/-- Thread `t` pushes `0, …, n - 1` to a new queue, one after the other. -/
def pushRun {ι : Type*} (t : ι) (n : ℕ) : List (Label ι (Op ℕ)) :=
  (List.range n).flatMap fun i ↦
    .call t (.push i) :: List.replicate (if i = 0 then 10 else 9) (.exec t .go)

/-- Thread `t` pops `n` values from the first block, which has a next one. -/
def popRun {ι : Type*} (t : ι) (n : ℕ) : List (Label ι (Op ℕ)) :=
  (List.range n).flatMap fun i ↦
    .call t .pop :: List.replicate (if i = 0 then 13 else 11) (.exec t .go)

/-- A block is filled by `t`; it is emptied, retired, and about to be reset by thread `u`. -/
def resetSchedule {ι : Type*} (t u : ι) : List (Label ι (Op ℕ)) :=
  pushRun t 30 ++ (.call t (.push 30) :: List.replicate 7 (.exec t .go) ++
    .exec t (.addr 2) :: List.replicate 9 (.exec t .go)) ++
  popRun u 30 ++ (.call u .pop :: List.replicate 19 (.exec u .go)) ++
  (.call u .tryReclaim :: List.replicate 73 (.exec u .go))

/-- All 31 values of the first block are delivered when its reset begins. -/
theorem delivers_exactly_once_reset :
    ∃ c : Config (Fin 2) (Store (Fin 2) ℕ) (Pc (Fin 2) ℕ),
      Reach (atomicVec Coord.twoIds 4) Always (init 1) c ∧
      c.shared.returned.length = 31 ∧ (c.pcs 1).bind reclaims = some (1, 0) ∧
      ∀ j < 31, (c.shared.heap 1).state j = read := by
  obtain ⟨c, hc, ht⟩ := Reach.exists_of_replay (atomicVec Coord.twoIds 4) Always
    (init 1 : Config (Fin 2) (Store (Fin 2) ℕ) (Pc (Fin 2) ℕ)) (resetSchedule 0 1)
    (fun c ↦ decide (c.shared.returned.length = 31 ∧ (c.pcs 1).bind reclaims = some (1, 0)))
    (by decide +kernel)
  obtain ⟨h₁, h₂⟩ := of_decide_eq_true ht
  obtain ⟨p, hpc, hp⟩ := Option.bind_eq_some_iff.1 h₂
  obtain ⟨-, -, -, -, -, h, -⟩ := delivers_exactly_once (by decide) hc
  exact ⟨c, hc, h₁, h₂, fun j hj ↦ (h 1 p 1 0 hpc hp).1 j hj (Nat.zero_le j)⟩

end AtomicVec

end Crossync
