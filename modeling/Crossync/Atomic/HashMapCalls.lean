import Crossync.Interleave.Call
import Crossync.Atomic.HashMapHistory

/-!
# The calls of a shared `AtomicHashMap`

What a call that returns has put into the history since it began, in every interleaving. A call on a
key has entered it once, with the result it returns. `clear` has entered it once for each slot of
the shards it has cleared, and `as_vec` once for each slot, with what its list says about the slot.

The course of a call is a matter of its program point alone (`Pc.Course`), but for two of them:
`remove` between the unlinking of an entry and the load of its value, and `get` and `get_mut` with
the entry they are to return.

## Two kinds of call

A call on a key enters the history at one access, at most one entry, and what it returns is decided
there. The loops over all slots enter it many times, one slot after the other, in the order of the
slots; what they return is put together from the entries. For both, `Op.Ended` says what the entries
of a call that has returned are and what the call returns, and `calls_linearizable` that every
returning call is so.

## Frame

A step of another thread enters nothing for this call and leaves what it has found where it is,
since the call has its slot, or a guard on it, until it is done with it.
-/

open Interleave Linked

namespace Crossync

namespace AtomicHashMap

namespace Shared

variable {ι K V : Type*} [DecidableEq ι] [BEq K] [Hashable K] {L : Layout}

/-! ### Slots in order

The loops over all slots go by shards, and in a shard by slots. What comes before a slot in this
order is what such a call has visited. -/

section Slots

variable {i j : ℕ} {x : ℕ × ℕ}

variable (L) in
/-- The slots before slot `j` of shard `i`, in the order of the loops of `clear` and `as_vec`. -/
def slotsBefore (i j : ℕ) : List (ℕ × ℕ) :=
  ((List.range i).flatMap fun i' ↦ (List.range L.capacity).map fun j' ↦ (i', j')) ++
    (List.range j).map fun j' ↦ (i, j')

/-- The slots before the next one of the same shard. -/
theorem slotsBefore_succ : slotsBefore L i (j + 1) = slotsBefore L i j ++ [(i, j)] := by
  rw [slotsBefore, slotsBefore, List.range_succ, List.map_append, ← List.append_assoc]
  rfl

/-- The slots before the first one of the next shard. -/
theorem slotsBefore_next : slotsBefore L (i + 1) 0 = slotsBefore L i L.capacity := by
  rw [slotsBefore, slotsBefore, List.range_succ, List.flatMap_append, List.flatMap_singleton,
    List.range_zero,
    List.map_nil, List.append_nil]

/-- The slots before a slot come before it. -/
theorem before_of_mem (hx : x ∈ slotsBefore L i j) : Before x (i, j) := by
  obtain hx | hx := List.mem_append.1 hx
  · obtain ⟨i', hi', hx⟩ := List.mem_flatMap.1 hx
    obtain ⟨j', -, rfl⟩ := List.mem_map.1 hx
    exact Or.inl (List.mem_range.1 hi')
  · obtain ⟨j', hj', rfl⟩ := List.mem_map.1 hx
    exact Or.inr ⟨rfl, List.mem_range.1 hj'⟩

/-- `clear` has swapped the heads of these slots. -/
def evictions (t : ι) (slots : List (ℕ × ℕ)) : List (Effect ι K V) :=
  slots.map fun slot ↦ ⟨t, .evict slot, .unit⟩

variable (L) in
/-- `as_vec` has collected these slots. -/
def collections (t : ι) (seen : List (K × V)) (slots : List (ℕ × ℕ)) : List (Effect ι K V) :=
  slots.map fun slot ↦ ⟨t, .collect slot, .content (contentAt L slot seen)⟩

omit [DecidableEq ι] in
/-- What is collected from another slot says nothing about these. -/
theorem collections_append [EquivBEq K] [LawfulHashable K] {t : ι} {seen : List (K × V)}
    {slots : List (ℕ × ℕ)} {y : K × V} (hy : ∀ slot ∈ slots, L.home y.1 ≠ slot) :
    collections L t (seen ++ [y]) slots = collections L t seen slots := by
  refine List.map_congr_left fun slot hslot ↦ ?_
  have hcontent : contentAt L slot (seen ++ [y]) = contentAt L slot seen := by
    funext k
    unfold contentAt
    split_ifs with hk
    · have hne : (y.1 == k) = false := by
        refine Bool.eq_false_iff.2 fun hkey ↦ hy slot hslot ?_
        rw [Layout.home_eq hkey, hk]
      have hnone : Spec.lookup k [y] = none := Spec.lookup_eq_none_iff.2 fun z hz ↦ by
        rw [List.mem_singleton.1 hz, hne]
      rw [Spec.lookup_append, hnone, Option.or_none]
    · rfl
  rw [hcontent]

end Slots

/-! ### What a call is to record

The entries a call has made, read off its program point and the slots it has visited. -/

section Recorded

variable (L) in
/-- What a call of `t` records that returns, if it does not return a guard. -/
def Op.Recorded (t : ι) (es : List (Effect ι K V)) : Op ι K V → Ret ι K V → Prop
  | .insert key value, .value o => es = [⟨t, .insert key value, .value o⟩]
  | .remove key, .value o => es = [⟨t, .remove key, .value o⟩]
  | .containsKey key, .bool b => es = [⟨t, .containsKey key, .bool b⟩]
  | .get key, .absent | .getMut key, .absent => es = [⟨t, .get key, .bool false⟩]
  | .insert _ _, .panicked .lock | .remove _, .panicked .lock | .containsKey _, .panicked .lock
  | .get _, .panicked .lock | .getMut _, .panicked .lock => es = []
  | .clear, .unit => es = evictions t (slotsBefore L L.shardAmount 0)
  | .clear, .panicked .clear | .clear, .panicked .reentrant =>
    ∃ i < L.shardAmount, es = evictions t (slotsBefore L i 0)
  | .asVec, .entries l => Spec.Distinct l ∧ es = collections L t l (slotsBefore L L.shardAmount 0)
  | .asVec, .panicked .lock => ∃ i j l, es = collections L t l (slotsBefore L i j)
  | .len, .len _ | .dropGuard _, .unit => es = []
  | _, _ => False

/-- What a call records that returns a guard: the key is there. The guard is for its entry. -/
def Op.Got (t : ι) (s : Store ι K V) (es : List (Effect ι K V)) (g : Guard ι) : Op ι K V → Prop
  | .get key =>
    es = [⟨t, .get key, .bool true⟩] ∧ g.hold.read = true ∧
      Has s g.hold.shard g.hold.slot g.entry key
  | .getMut key =>
    es = [⟨t, .get key, .bool true⟩] ∧ g.hold.read = false ∧
      Has s g.hold.shard g.hold.slot g.entry key
  | _ => False

variable (L) in
/-- **What a call of `t` records that returns.** -/
def Op.Ended (t : ι) (s : Store ι K V) (es : List (Effect ι K V)) (op : Op ι K V) : Ret ι K V → Prop
  | .guard g => op.Got t s es g
  | e => op.Recorded L t es e

/-- The call behind a job. -/
def Job.op : Job K V → Op ι K V
  | .insert key value => .insert key value
  | .remove key => .remove key
  | .containsKey key => .containsKey key
  | .get key => .get key
  | .getMut key => .getMut key
  | .asVec => .asVec

variable (L) in
/-- What the visit of a call has recorded before slot `j` of its shard. -/
def Visit.past (t : ι) (v : Visit K V) (j : ℕ) : List (Effect ι K V) :=
  match v.job with
  | .asVec => collections L t v.seen (slotsBefore L v.shard j)
  | _ => []

variable (L) in
/-- The visit of a call that has had no effect in its slot `j`. -/
def Visit.Pending (t : ι) (op : Op ι K V) (es : List (Effect ι K V)) (v : Visit K V)
    (j : ℕ) : Prop :=
  op = v.job.op ∧ (v.job = .asVec → v.shard < L.shardAmount) ∧ es = v.past L t j

variable (L) in
/-- The visit of a call that has had its effect, and is to return `r`. -/
def Visit.Settled (t : ι) (op : Op ι K V) (es : List (Effect ι K V)) (v : Visit K V)
    (r : Ret ι K V) : Prop :=
  op = v.job.op ∧ (v.job = .asVec → v.shard < L.shardAmount) ∧
    (v.job = .asVec ∧ r = .unit ∨ v.job ≠ .asVec ∧ op.Recorded L t [⟨t, v.act, v.told L r⟩] r) ∧
    es = v.past L t v.slot ++ [⟨t, v.act, v.told L r⟩]

variable (L) in
/-- `clear` has swapped the heads before slot `j` of shard `i`. -/
def Clearing (t : ι) (op : Op ι K V) (es : List (Effect ι K V)) (i j : ℕ) : Prop :=
  op = .clear ∧ i < L.shardAmount ∧ es = evictions t (slotsBefore L i j)

variable (L) in
def After.Course (t : ι) (s : Store ι K V) (op : Op ι K V) (es : List (Effect ι K V)) :
    After ι K V → Prop
  | .visit v => v.Pending L t op es 0
  | .nextShard i seen =>
    op = .asVec ∧ i < L.shardAmount ∧ es = collections L t seen (slotsBefore L (i + 1) 0)
  | .len _ _ | .lenNext _ _ => op = .len ∧ es = []
  | .finish _ r => op.Recorded L t es r
  | .guard g => op.Got t s es g
  | .attempt i | .inspect i | .retry i | .backOut i _ => Clearing L t op es i 0
  | .detached i _ => Clearing L t op es i L.capacity

variable (L) in
def Next.Course (t : ι) (op : Op ι K V) (es : List (Effect ι K V)) : Next ι K V → Prop
  | .locked v => v.Pending L t op es v.slot
  | .unlocked v r => v.Settled L t op es r
  | .dropped g => op = .dropGuard g ∧ es = []
  | .attempt i _ | .backOut i _ _ _ => Clearing L t op es i 0
  | .detached i _ _ => Clearing L t op es i L.capacity

variable (L) in
/-- **The course of a call** of `op` by `t` at a program point: what it has recorded. -/
def Pc.Course (t : ι) (s : Store ι K V) (op : Op ι K V) (es : List (Effect ι K V)) : Pc ι K V → Prop
  | .shard _ k => k.Course L t s op es
  | .slot _ k => k.Course L t op es
  | .loadHead v | .walk v _ _ | .replace v _ _ | .newEntry v _ _ | .linkEntry v _
  | .unlinkLoad v _ _
  | .unlinkStore v _ _ _ => v.Pending L t op es v.slot
  | .countUp v => v.Settled L t op es (.value none)
  | .countDown v cur => v.Settled L t op es (.value ((s.heap cur).map Entry.value))
  | .freeEntry v _ value => v.Settled L t op es (.value (some value))
  | .lenLoad _ _ => op = .len ∧ es = []
  | .owned i _ | .inspect i _ => Clearing L t op es i 0
  | .detachSwap i j _ => Clearing L t op es i j
  | .detachCount i j _ _ _ _ | .detachSub i j _ _ _ => Clearing L t op es i (j + 1)
  | .dropChains i _ => Clearing L t op es i L.capacity

variable (L) in
/-- What an outcome of a step of a call leaves. -/
def Runs (t : ι) (s : Store ι K V) (op : Op ι K V) (es : List (Effect ι K V)) :
    Outcome (Pc ι K V) (Ret ι K V) → Prop
  | .goto q => q.Course L t s op es
  | .ret e => op.Ended L t s es e

end Recorded

/-! ### Frame

What a call has entered and found is about its own slot. -/

section Frame

variable {s s' : Store ι K V} {op : Op ι K V} {es : List (Effect ι K V)} {t : ι} {p : Pc ι K V}

omit [DecidableEq ι] [Hashable K] in
/-- What a call has found stays found as long as its slot is kept. -/
theorem Op.Got.kept {g : Guard ι} (h : op.Got t s es g) (hk : Kept s s' g.hold.shard g.hold.slot) :
    op.Got t s' es g := by
  cases op with
  | get key | getMut key => exact ⟨h.1, h.2.1, h.2.2.kept hk⟩
  | _ => exact h.elim

omit [DecidableEq ι] in
/-- **Frame.** The course of a call depends on the slots it holds, and on the entry it has
unlinked. -/
theorem Pc.Course.frame (h : p.Course L t s op es)
    (hslot : ∀ x ∈ p.hands L t, Kept s s' x.shard x.slot)
    (hown : ∀ v cur, p = .countDown v cur → (s'.heap cur).map Entry.value =
      (s.heap cur).map Entry.value) :
    p.Course L t s' op es := by
  cases p with
  | shard q k =>
    cases k with
    | guard g => exact Op.Got.kept h (hslot g.hold (List.mem_cons_self ..))
    | _ => exact h
  | countDown v cur =>
    show v.Settled L t op es _
    rw [hown v cur rfl]
    exact h
  | _ => exact h

omit [DecidableEq ι] in
theorem Pc.Course.same (h : p.Course L t s op es) (hheap : s'.heap = s.heap)
    (hheads : s'.heads = s.heads) :
    p.Course L t s' op es :=
  h.frame (fun _ _ ↦ .same hheap hheads) fun _ _ _ ↦ by rw [hheap]

end Frame

/-! ### Where a call goes on

One lemma for each function that picks the next program point of a call. -/

section Places

variable {s s₀ : Store ι K V} {op : Op ι K V} {es : List (Effect ι K V)} {t : ι}
  {v : Visit K V} {i j : ℕ}
  {seen : List (K × V)}

omit [DecidableEq ι] in
/-- Before and after its effect in a slot, `as_vec` has recorded what it has collected so far. -/
theorem Visit.past_succ (hjob : v.job = .asVec) :
    v.past L t v.slot ++ [⟨t, v.act, v.told (ι := ι) L .unit⟩] =
      collections L t v.seen (slotsBefore L v.shard (v.slot + 1)) := by
  rw [Visit.past, Visit.act, hjob, slotsBefore_succ, collections, collections, List.map_append]
  rfl

omit [DecidableEq ι] in
theorem course_visitNext (hi : i < L.shardAmount) (hj : j ≤ L.capacity) :
    (visitNext L i j seen : Pc ι K V).Course L t s .asVec
      (collections L t seen (slotsBefore L i j)) := by
  unfold visitNext
  split_ifs with hlt
  · exact ⟨rfl, fun _ ↦ hi, rfl⟩
  · obtain rfl : j = L.capacity := le_antisymm hj (not_lt.1 hlt)
    exact ⟨rfl, hi, by rw [slotsBefore_next]⟩

omit [DecidableEq ι] in
/-- A call on a key records nothing before its effect. -/
theorem Visit.past_of_ne (hjob : v.job ≠ .asVec) (j : ℕ) :
    v.past L t j = ([] : List (Effect ι K V)) := by
  unfold Visit.past
  split
  · contradiction
  · rfl

omit [DecidableEq ι] in
theorem course_visit (h : v.Pending L t op es 0) : (visit L v : Pc ι K V).Course L t s op es := by
  obtain ⟨rfl, hi, rfl⟩ := h
  unfold visit
  split
  · rename_i hjob
    rw [Visit.past, hjob]
    exact course_visitNext (hi hjob) (Nat.zero_le _)
  · rename_i hjob
    exact ⟨rfl, hi, by rw [v.past_of_ne hjob, v.past_of_ne hjob]⟩

omit [DecidableEq ι] in
theorem course_visited {r : Ret ι K V} (h : v.Settled L t op es r) (hv : v.slot < L.capacity) :
    (visited L v r).Course L t s op es := by
  obtain ⟨rfl, hi, hr, rfl⟩ := h
  unfold visited
  split
  · rename_i hjob
    obtain ⟨-, rfl⟩ | ⟨hne, -⟩ := hr
    · rw [Visit.past_succ hjob, hjob]
      exact course_visitNext (hi hjob) hv
    · exact absurd hjob hne
  · rename_i hne
    obtain ⟨hjob, -⟩ | ⟨-, hr⟩ := hr
    · exact absurd hjob hne
    · rw [v.past_of_ne hne]
      exact hr

omit [DecidableEq ι] in
/-- `as_vec` goes on at a shard, or returns what it has collected. -/
theorem runs_asVecNext (hi : i ≤ L.shardAmount) (hd : Spec.Distinct seen) :
    Runs L t s .asVec (collections L t seen (slotsBefore L i 0)) (asVecNext L i seen) := by
  unfold asVecNext
  split_ifs with hlt
  · exact ⟨rfl, fun _ ↦ hlt, rfl⟩
  · obtain rfl : i = L.shardAmount := le_antisymm hi (not_lt.1 hlt)
    exact ⟨hd, rfl⟩

omit [DecidableEq ι] in
theorem runs_lenNext (n : ℤ) : Runs L t s .len [] (lenNext L i n) := by
  unfold lenNext
  split_ifs
  · exact ⟨rfl, rfl⟩
  · rfl

omit [DecidableEq ι] in
/-- `clear` goes on at a shard, or returns. -/
theorem runs_clearNext (hi : i ≤ L.shardAmount) :
    Runs L t s .clear (evictions t (slotsBefore L i 0)) (clearNext L i) := by
  unfold clearNext
  split_ifs with hlt
  · exact ⟨rfl, hlt, rfl⟩
  · obtain rfl : i = L.shardAmount := le_antisymm hi (not_lt.1 hlt)
    rfl

omit [DecidableEq ι] in
theorem course_backOutNext (h : Clearing L t op es i 0) (n : ℕ) (b : Bool) :
    (backOutNext t i j n b : Pc ι K V).Course L t s op es := by
  unfold backOutNext
  split_ifs
  · exact h
  · exact h

omit [DecidableEq ι] in
theorem course_releaseNext (h : Clearing L t op es i L.capacity) (chains : List ℕ) :
    (releaseNext L t i j chains : Pc ι K V).Course L t s op es := by
  unfold releaseNext
  split_ifs
  · exact h
  · exact h

omit [DecidableEq ι] in
theorem course_swapNext (h : Clearing L t op es i j) (hj : j ≤ L.capacity) (chains : List ℕ) :
    (swapNext L t i j chains : Pc ι K V).Course L t s op es := by
  unfold swapNext
  split_ifs with hlt
  · exact h
  · obtain rfl : j = L.capacity := le_antisymm hj (not_lt.1 hlt)
    exact course_releaseNext h chains

omit [DecidableEq ι] in
theorem course_detachNext (h : Clearing L t op es i 0) :
    (detachNext L t i j : Pc ι K V).Course L t s op es := by
  unfold detachNext
  split_ifs
  · exact h
  · exact course_swapNext h (Nat.zero_le _) _

omit [DecidableEq ι] in
theorem course_countNext (h : Clearing L t op es i (j + 1)) (chains : List ℕ)
    (chain cur count : ℕ) :
    (countNext i j chains chain cur count : Pc ι K V).Course L t s op es := by
  unfold countNext
  split_ifs
  · exact h
  · exact h

omit [DecidableEq ι] in
theorem course_inspectNext (h : Clearing L t op es i 0) :
    (inspectNext L i j : Pc ι K V).Course L t s op es := by
  unfold inspectNext
  split_ifs
  · exact h
  · exact h

/-- The caller of a shard lock goes on. -/
theorem runs_resume {k : After ι K V} (h : k.Course L t s op es) (hk : k.Informed L)
    (r : RawMutex.Ret) :
    Runs L t s op es (resume L t s₀ k r).2 := by
  unfold resume
  split
  case h_1 => exact course_visit h
  case h_2 =>
    obtain ⟨rfl, hi, rfl⟩ := h
    exact runs_asVecNext hi hk.2
  case h_4 =>
    obtain ⟨rfl, rfl⟩ := h
    exact runs_lenNext _
  case h_5 _ e =>
    cases e with
    | guard g => cases op <;> exact h.elim
    | _ => exact h
  case h_7 => exact course_detachNext h
  case h_9 => exact course_inspectNext h
  case h_11 =>
    obtain ⟨rfl, hi, rfl⟩ := h
    exact ⟨_, hi, rfl⟩
  all_goals exact h

omit [DecidableEq ι] in
/-- A call that cannot take its slot panics, with nothing recorded there. -/
theorem Visit.Pending.refused (h : v.Pending L t op es j) :
    op.Recorded L t es (.panicked .lock) := by
  obtain ⟨rfl, -, rfl⟩ := h
  obtain ⟨job, i, j', seen⟩ := v
  cases job with
  | asVec => exact ⟨i, j, seen, rfl⟩
  | _ => exact rfl

omit [DecidableEq ι] in
/-- The caller of a slot mutex goes on, if the mutex was released as it should. -/
theorem runs_resumeSlot {k : Next ι K V} (h : k.Course L t op es) {r : SerialMutex.Ret}
    (hslot : ∀ j, k.index = some j → j < L.capacity)
    (hr : (∃ v e, k = .unlocked v e) ∨ (∃ g, k = .dropped g) → r = .unit) :
    Runs L t s op es (resumeSlot L t s₀ k r).2 := by
  unfold resumeSlot
  split
  case h_2 => exact Visit.Pending.refused h
  case h_3 => exact course_visited h (hslot _ rfl)
  case h_4 hne => exact absurd (hr (Or.inl ⟨_, _, rfl⟩)) hne
  case h_5 =>
    obtain ⟨rfl, rfl⟩ := h
    rfl
  case h_6 hne => exact absurd (hr (Or.inr ⟨_, rfl⟩)) hne
  case h_7 => exact course_detachNext h
  case h_9 => exact course_backOutNext h _ _
  case h_10 => exact course_releaseNext h _
  all_goals exact h

end Places

/-! ### Walks

A walk enters the history when it is settled, at its end or at the entry it was looking for. -/

section Walks

variable {s : Store ι K V} {op : Op ι K V} {es : List (Effect ι K V)} {t : ι} {v : Visit K V}
  {prev cur : ℕ}
  {e : Entry K V} {key : K} {r : Ret ι K V}

omit [DecidableEq ι] in
/-- A call on a key has its effect. -/
theorem Visit.Pending.settle (h : v.Pending L t op es v.slot) (hjob : v.job ≠ .asVec)
    (hr : v.job.op.Recorded L t [⟨t, v.act, v.told L r⟩] r) :
    v.Settled L t op (es ++ [⟨t, v.act, v.told L r⟩]) r := by
  obtain ⟨rfl, hi, rfl⟩ := h
  exact ⟨rfl, hi, Or.inr ⟨hjob, hr⟩, rfl⟩

omit [DecidableEq ι] in
/-- The walk has come to the end of the chain. -/
theorem course_missing (h : v.Pending L t op es v.slot) (v₀ : Visit K V) :
    (missing t v).Course L t s op (es ++ settled L t v₀ (.goto (missing t v))) := by
  obtain ⟨job, i, j, seen⟩ := v
  cases job with
  | insert key value =>
    show Visit.Pending L t op (es ++ []) _ _
    rw [List.append_nil]
    exact h
  | asVec =>
    obtain ⟨rfl, hi, rfl⟩ := h
    exact ⟨rfl, hi, Or.inl ⟨rfl, rfl⟩, rfl⟩
  | _ => exact h.settle (fun hjob ↦ by cases hjob) rfl

omit [DecidableEq ι] in
/-- The walk goes on. -/
theorem course_walkNext (h : v.Pending L t op es v.slot) (v₀ : Visit K V) :
    (walkNext t v prev cur).Course L t s op
      (es ++ settled L t v₀ (.goto (walkNext t v prev cur))) := by
  unfold walkNext
  split_ifs
  · exact course_missing h v₀
  · show Visit.Pending L t op (es ++ []) _ _
    rw [List.append_nil]
    exact h

omit [DecidableEq ι] in
/-- The walk has found its key. -/
theorem course_hit (h : v.Pending L t op es v.slot) (hf : v.job.finds e = true)
    (hhas : ∀ key, v.job.finds = found (hash key) key → Has s v.shard v.slot cur key) :
    (hit t v prev cur).Course L t s op (es ++ settled L t v (.goto (hit t v prev cur))) := by
  obtain ⟨job, i, j, seen⟩ := v
  cases job with
  | insert key value | remove key =>
    show Visit.Pending L t op (es ++ []) _ _
    rw [List.append_nil]
    exact h
  | containsKey key => exact h.settle (fun hjob ↦ by cases hjob) rfl
  | get key | getMut key =>
    obtain ⟨rfl, -, rfl⟩ := h
    exact ⟨rfl, rfl, hhas key rfl⟩
  | asVec => cases hf

omit [DecidableEq ι] in
/-- `as_vec` collects the entry it is at, which says nothing about the slots before. -/
theorem Visit.Pending.see [EquivBEq K] [LawfulHashable K] (h : v.Pending L t op es v.slot)
    (hhome : L.home e.key = (v.shard, v.slot)) : (v.see e).Pending L t op es (v.see e).slot := by
  obtain ⟨job, i, j, seen⟩ := v
  cases job with
  | asVec =>
    obtain ⟨rfl, hi, rfl⟩ := h
    refine ⟨rfl, hi, (collections_append fun slot hslot hne ↦ ?_).symm⟩
    exact (before_of_mem hslot).ne (hne.symm.trans hhome)
  | _ => exact h

end Walks

/-! ### Every step of a call

An own step moves the call along its course, a foreign one leaves the course where it is. -/

section Steps

variable [Fintype ι] {ids : SerialMutex.OwnerIds ι} {adaptive : ℕ}
  {c : Config ι (Store ι K V) (Pc ι K V)}
  {A : Regions ι} {E : ℕ → ℕ → ℕ} {s' : Store ι K V} {l : ℕ → ℕ → List (K × V)} {t u : ι}
    {ch : Choice ι}
  {o : Outcome (Pc ι K V) (Ret ι K V)} {p q : Pc ι K V} {op : Op ι K V} {es : List (Effect ι K V)}

omit [BEq K] [Hashable K] in
/-- The release of a slot mutex by its holder returns. -/
theorem Locks.released {q : SerialMutex.Pc ι} {k : Next ι K V} {m : SerialMutex.Store ι}
    {r : SerialMutex.Ret} (h : Locks L ids c) (hpc : c.pcs t = some (.slot q k))
    (hr : SerialMutex.exec ids adaptive t ch (c.shared.slotLock k.target.1 k.target.2) q =
      some (m, .ret r))
    (hk : (∃ v e, k = .unlocked v e) ∨ ∃ g, k = .dropped g) : r = .unit := by
  have hm := h.mine t
  rw [hpc] at hm
  have hexp : k.Expects L t (SerialMutex.phase q) := hm.phased _ rfl
  have hknows : SerialMutex.Knows ids t (c.shared.slotLock k.target.1 k.target.2) q :=
    hm.knows _ rfl
  have hphase : (∃ read a, SerialMutex.phase q = .release read a) ∨
      SerialMutex.phase q = .wake := by
    obtain ⟨v, e, rfl⟩ | ⟨g, rfl⟩ := hk
    · exact hexp.imp_left fun hq ↦ ⟨_, _, hq⟩
    · exact hexp.imp_left fun hq ↦ ⟨_, _, hq⟩
  have hne : ∀ {ph : SerialMutex.Phase ι}, SerialMutex.phase q = ph →
    (∀ read a, ph ≠ .release read a) →
      ph ≠ .wake → False := by
    rintro ph rfl h₁ h₂
    obtain ⟨read, a, hq⟩ | hq := hphase
    · exact h₁ read a hq
    · exact h₂ hq
  cases SerialMutex.exec_holds hr with
  | stay p' ho => cases ho
  | gain read hp | refused read hp => exact (hne hp (by simp) (by simp)).elim
  | won hp | lost hp => exact (hne hp (by simp) (by simp)).elim
  | drop read a hp ho =>
    obtain ho | ⟨p', ho, -⟩ := ho
    · cases ho
      rfl
    · cases ho
  | broken read a hp ho =>
    rw [ho] at hr
    exact absurd hr (SerialMutex.exec_consistent (h.sound.exact _ _) hknows)
  | woke hp ho =>
    cases ho
    rfl

variable [EquivBEq K] [LawfulHashable K]

omit [Fintype ι] [DecidableEq ι] in
/-- An access outside of the locks is in the course of its call. -/
theorem Access.runs (ha : Access L ids t c.shared p s' o) (hl : Lists L c.shared l)
    (h : Shape L c A E) (hpc : c.pcs t = some p) (hp : p.Informed L c.shared)
    (hc : p.Course L t c.shared op es) :
    Runs L t s' op (es ++ onExec L t p c.shared o) o := by
  have hf := h.fits t p hpc
  have hnil : es ++ [] = es := List.append_nil es
  cases ha with
  | astray hp hnone =>
    obtain ⟨e, he⟩ := h.derefs hpc hp
    rw [hnone] at he
    cases he
  | loadHead => exact course_walkNext hc _
  | hit he hfinds =>
    obtain ⟨pre, post, hchain, hw⟩ := hp
    exact course_hit hc hfinds fun key hkey ↦ has_of_finds hchain he (hkey ▸ hfinds)
  | @pass v prev cur e he hfinds =>
    obtain ⟨pre, post, hchain, hw⟩ := hp
    have hmem : (e.key, e.value) ∈ l v.shard v.slot := by
      rw [hl.eq_pairs hchain]
      exact mem_pairs.2 ⟨cur, by simp, e, he, rfl⟩
    exact course_walkNext (Visit.Pending.see hc (hl.home_of_beq hmem (BEq.refl e.key))) _
  | @replace v cur value e he =>
    obtain ⟨key, hjob, -⟩ := hp
    refine Visit.Pending.settle hc (by rw [hjob]; simp) ?_
    rw [Visit.act, hjob]
    rfl
  | newEntry | unlinkLoad => exact hnil.symm ▸ hc
  | linkEntry =>
    obtain ⟨key, value, n, hjob, -⟩ := hp
    refine Visit.Pending.settle hc (by rw [hjob]; simp) ?_
    rw [Visit.act, hjob]
    rfl
  | unlinkHead =>
    obtain ⟨key, hjob, -⟩ := hp
    refine Visit.Pending.settle hc (by rw [hjob]; simp) ?_
    rw [Visit.act, hjob]
    rfl
  | @unlinkAfter v prev cur next ep hne hep =>
    obtain ⟨key, hjob, -⟩ := hp
    have hvalue : ((c.shared.setEntry prev (some { ep with next := next })).heap cur).map
      Entry.value =
        (c.shared.heap cur).map Entry.value := by
      by_cases hcur : cur = prev
      · rw [hcur, setEntry_self, hep]
        rfl
      · rw [setEntry_of_ne _ _ hcur]
    show v.Settled L t op _ (.value _)
    rw [hvalue]
    refine Visit.Pending.settle hc (by rw [hjob]; simp) ?_
    rw [Visit.act, hjob]
    rfl
  | countDown he =>
    have hc' : Visit.Settled L t op es _ (.value _) := hc
    rw [he] at hc'
    exact hnil.symm ▸ hc'
  | countUp | freeEntry | dropNull | dropEntry => exact hnil.symm ▸ hc
  | lenLoad => exact hnil.symm ▸ hc
  | owned => exact hnil.symm ▸ course_backOutNext hc _ _
  | @detachSwap i j chains =>
    obtain ⟨rfl, hi, rfl⟩ := hc
    refine course_countNext ⟨rfl, hi, ?_⟩ _ _ _ _
    rw [slotsBefore_succ, evictions, evictions, List.map_append]
    rfl
  | detachCount => exact hnil.symm ▸ course_countNext hc _ _ _ _
  | detachSub => exact hnil.symm ▸ course_swapNext hc (hf.slot _ rfl) _
  | reentrant =>
    obtain ⟨rfl, hi, rfl⟩ := hc
    exact ⟨_, hi, hnil⟩
  | inspect => exact hnil.symm ▸ course_inspectNext hc
  | dropped =>
    obtain ⟨rfl, hi, rfl⟩ := hc
    rw [← slotsBefore_next]
    exact (List.append_nil _).symm ▸ runs_clearNext hi

/-- **Every access is in the course of its call.** -/
theorem exec_runs (hl : Lists L c.shared l) (h : Shape L c A E) (hlk : Locks L ids c)
    (hpc : c.pcs t = some p) (hp : p.Informed L c.shared) (hc : p.Course L t c.shared op es)
    (he : exec L ids adaptive t ch c.shared p = some (s', o)) :
    Runs L t s' op (es ++ onExec L t p c.shared o) o := by
  have hnil : es ++ [] = es := List.append_nil es
  obtain ⟨q, k, rfl⟩ | ⟨q, k, rfl⟩ | ha := exec_cases he
  · obtain ⟨m, hs⟩ := exec_shard_store he
    have hheap : s'.heap = c.shared.heap := by obtain rfl | ⟨g, -, rfl⟩ := hs <;> rfl
    have hheads : s'.heads = c.shared.heads := by obtain rfl | ⟨g, -, rfl⟩ := hs <;> rfl
    have hc' : (Pc.shard q k : Pc ι K V).Course L t s' op es := hc.same hheap hheads
    show Runs L t s' op (es ++ []) o
    rw [hnil]
    simp only [exec] at he
    split at he
    · cases he
    · cases he
      exact hc'
    · have ho : _ = o := congrArg Prod.snd (Option.some.inj he)
      exact ho ▸ runs_resume hc' hp _
  · obtain ⟨m, e, -, hs⟩ := exec_slot_store he
    have hc' : (Pc.slot q k : Pc ι K V).Course L t s' op es := hc
    show Runs L t s' op (es ++ []) o
    rw [hnil]
    simp only [exec] at he
    split at he
    · cases he
    · cases he
      exact hc'
    · rename_i hr
      have ho : _ = o := congrArg Prod.snd (Option.some.inj he)
      exact ho ▸ runs_resumeSlot hc' (h.fits t _ hpc).slot (hlk.released hpc hr)
  · exact ha.runs hl h hpc hp hc

omit [Fintype ι] [EquivBEq K] [LawfulHashable K] in
/-- Where a call starts. -/
theorem enter_course {s : Store ι K V} (he : enter L t op s = some (s', o)) (hq : o.pc = some q) :
    q.Course L t s' op (onCall t op s o) := by
  have hrun : ∀ {es : List (Effect ι K V)}, Runs L t s' op es o → q.Course L t s' op es :=
    fun hr ↦ by
    cases o with
    | goto q' =>
      cases hq
      exact hr
    | ret e => cases hq
  cases op with
  | insert key value | get key | getMut key | remove key | containsKey key =>
    cases he
    exact hrun ⟨rfl, by rintro ⟨⟩, rfl⟩
  | clear =>
    cases he
    exact hrun (runs_clearNext (Nat.zero_le _))
  | len =>
    cases he
    exact hrun (runs_lenNext 0)
  | asVec =>
    cases he
    exact hrun (runs_asVecNext (Nat.zero_le _) .nil)
  | deref g | write g v =>
    simp only [enter] at he
    split_ifs at he
    split at he <;> cases he <;> cases hq
  | dropGuard g =>
    simp only [enter] at he
    split_ifs at he
    cases he
    exact hrun ⟨rfl, rfl⟩
  | sendGuard g u =>
    simp only [enter] at he
    split_ifs at he
    obtain ⟨x, hx, hx'⟩ := Option.map_eq_some_iff.1 he
    cases hx'
    cases hq

omit [EquivBEq K] [LawfulHashable K] [Fintype ι] [DecidableEq ι] in
/-- The step of another thread leaves the course of a call as it is. -/
theorem Pc.Course.untouched (hc : q.Course L u c.shared op es) (hu : Untouched L A u q c.shared s')
    (h : Shape L c A E) (hq : c.pcs u = some q) : q.Course L u s' op es := by
  refine hc.frame hu.slot fun v cur hcur ↦ ?_
  subst hcur
  obtain ⟨hown, -⟩ := h.here u _ hq
  rw [hu.own cur (hown ▸ List.mem_cons_self ..)]

end Steps

/-! ### The history of a call

The entries of a call are cut out of the history by thread and position. -/

section Own

variable {t u : ι} {p : Pc ι K V} {s : Store ι K V} {o : Outcome (Pc ι K V) (Ret ι K V)}
  {op : Op ι K V}
  {e : Effect ι K V}

omit [DecidableEq ι] in
/-- What a call settles is entered under its own thread. -/
theorem thread_of_settled {v : Visit K V} (he : e ∈ settled L t v o) : e.thread = t := by
  unfold settled at he
  split at he
  · rw [List.mem_singleton.1 he]
  · rw [List.mem_singleton.1 he]
  · cases he

omit [DecidableEq ι] in
/-- What takes effect at an access is by its thread. -/
theorem thread_of_onExec (he : e ∈ onExec L t p s o) : e.thread = t := by
  unfold onExec at he
  split at he
  all_goals first
    | exact thread_of_settled he
    | rw [List.mem_singleton.1 he]
    | cases he

omit [DecidableEq ι] [BEq K] [Hashable K] in
/-- What the start of a call enters is entered under its own thread. -/
theorem thread_of_onCall (he : e ∈ onCall t op s o) : e.thread = t := by
  unfold onCall at he
  split at he
  · obtain ⟨x, -, rfl⟩ := Option.map_eq_some_iff.1 (Option.mem_toList.1 he)
    rfl
  · obtain ⟨x, -, rfl⟩ := Option.map_eq_some_iff.1 (Option.mem_toList.1 he)
    rfl
  · cases he

omit [BEq K] [Hashable K] in
theorem ownSince_append_self {n : ℕ} {es es' : List (Effect ι K V)} (hn : n ≤ es.length)
    (h : ∀ e ∈ es', e.thread = t) : ownSince t n (es ++ es') = ownSince t n es ++ es' := by
  rw [ownSince_append hn, List.filter_eq_self.2 fun e he ↦ decide_eq_true (h e he)]

omit [BEq K] [Hashable K] in
theorem ownSince_append_of_ne {n : ℕ} {es es' : List (Effect ι K V)} (hn : n ≤ es.length)
    (hu : u ≠ t) (h : ∀ e ∈ es', e.thread = u) : ownSince t n (es ++ es') = ownSince t n es := by
  rw [ownSince_append hn, List.filter_eq_nil_iff.2 fun e he hd ↦
    hu ((h e he).symm.trans (of_decide_eq_true hd)),
    List.append_nil]

end Own

section Calls

variable [Fintype ι] [EquivBEq K] [LawfulHashable K] {ids : SerialMutex.OwnerIds ι} {adaptive : ℕ}
  {c : Config ι (Recorded (Store ι K V) (Effect ι K V)) (Pc ι K V)} {t : ι} {op : Op ι K V}
  {ss : List (Recorded (Store ι K V) (Effect ι K V) × Recorded (Store ι K V) (Effect ι K V))}

variable (L) in
/-- A call of `op` that began after `n` entries of the history is at a program point. -/
def During (t : ι) (op : Op ι K V) (n : ℕ) (s : Recorded (Store ι K V) (Effect ι K V))
    (p : Pc ι K V) : Prop :=
  n ≤ s.log.length ∧ p.Course L t s.store op (ownSince t n s.log)

omit [Fintype ι] [EquivBEq K] [LawfulHashable K] in
/-- The step of another thread. -/
theorem During.other {n : ℕ} {s s' : Recorded (Store ι K V) (Effect ι K V)} {p : Pc ι K V}
    {es : List (Effect ι K V)} {u : ι} (h : During L t op n s p) (hu : u ≠ t)
    (hlog : s'.log = s.log ++ es) (hes : ∀ e ∈ es, e.thread = u)
    (hcourse : ∀ es, p.Course L t s.store op es → p.Course L t s'.store op es) :
    During L t op n s' p := by
  refine ⟨?_, ?_⟩
  · rw [hlog, List.length_append]
    exact h.1.trans (Nat.le_add_right _ _)
  · rw [hlog, ownSince_append_of_ne h.1 hu hes]
    exact hcourse _ h.2

/-- **Along a call** its thread puts into the history what the course of the call says. -/
theorem calls_during (hL : 0 < L.capacity)
    (h : Calls (recorded L ids adaptive) Always recordedInit t op ss c) :
    ∀ p, c.pcs t = some p → ∃ s, ss.head?.map Prod.fst = some s ∧
      During L t op s.log.length c.shared p := by
  refine h.invariant (I := fun ss s' p ↦
    ∃ s, ss.head?.map Prod.fst = some s ∧ During L t op s.log.length s' p) ?_ ?_ ?_
  · intro c s' o _ he p hp
    obtain ⟨he, hlog⟩ := Object.recording_enter he
    refine ⟨c.shared, rfl, ?_, ?_⟩
    · rw [hlog, List.length_append]
      omega
    · rw [hlog, ownSince_append_self le_rfl fun e ↦ thread_of_onCall, ownSince_length,
        List.nil_append]
      exact enter_course he hp
  · rintro ss c ch p s' o hc ⟨s, hs, hle, hcourse⟩ - hpc he q hq
    obtain ⟨hlk, A, E, hshape⟩ := reach_shape hL (reach_erase hc)
    have hI := reach_represents hL hc
    obtain ⟨l, hl, -⟩ := hI.content
    obtain ⟨he, hlog⟩ := Object.recording_exec he
    have hrun := exec_runs hl hshape hlk hpc (hI.informed t p hpc) hcourse he
    refine ⟨s, ?_, ?_, ?_⟩
    · cases ss with
      | nil => cases hs
      | cons x ss => exact hs
    · rw [hlog, List.length_append]
      omega
    · rw [hlog, ownSince_append_self hle fun e ↦ thread_of_onExec]
      cases o with
      | goto q' =>
        cases hq
        exact hrun
      | ret e => cases hq
  · rintro ss c c' l p hc ⟨s, hs, hI⟩ hpc - hne hn
    obtain ⟨hlk, A, E, hshape⟩ := reach_shape hL (reach_erase hc)
    refine ⟨s, hs, ?_⟩
    obtain ⟨u, op', ⟨s', o⟩, rfl, -, he, rfl⟩ | ⟨u, ch, q, ⟨s', o⟩, rfl, hq, he, rfl⟩ :=
      Object.next_cases hn
    · obtain ⟨he, hlog⟩ := Object.recording_enter he
      exact hI.other hne hlog (fun e ↦ thread_of_onCall) fun es hc ↦
        hc.untouched (enter_untouched hshape hlk he (Ne.symm hne) hpc) hshape hpc
    · obtain ⟨he, hlog⟩ := Object.recording_exec he
      exact hI.other hne hlog (fun e ↦ thread_of_onExec) fun es hc ↦
        hc.untouched (exec_untouched hshape hlk hL hq he (Ne.symm hne) hpc) hshape hpc

/-- **Linearizability of the calls.** In every run of a map that the constructor accepts, a call
that returns has put into the history, since it began, exactly what it has to for what it returns: a
call on a key one effect with its result, and a guard is for the entry of the key; `clear` the
emptying of every slot of the shards before the one it gave up at, and of all of them if it returns;
`as_vec` a look at every slot, each as its list says, and the list has no key twice. -/
theorem calls_linearizable {capacity shardAmount : UInt64}
    (hL : withCapacityHasherAndShardAmount capacity shardAmount = .ok L)
    (h : Calls (recorded L ids adaptive) Always recordedInit t op ss c) {p : Pc ι K V}
    {ch : Choice ι} {s' : Recorded (Store ι K V) (Effect ι K V)} {e : Ret ι K V}
    (hpc : c.pcs t = some p)
    (he : (recorded L ids adaptive).exec t ch c.shared p = some (s', .ret e)) :
    ∃ s, ss.head?.map Prod.fst = some s ∧
      op.Ended L t s'.store (ownSince t s.log.length s'.log) e := by
  have hcap : 0 < L.capacity := (valid_of_ok hL).capacity_pos
  obtain ⟨hlk, A, E, hshape⟩ := reach_shape hcap (reach_erase h.reach)
  have hI := reach_represents hcap h.reach
  obtain ⟨l, hl, -⟩ := hI.content
  obtain ⟨s, hs, hle, hcourse⟩ := calls_during hcap h p hpc
  obtain ⟨he, hlog⟩ := Object.recording_exec he
  have hrun := exec_runs hl hshape hlk hpc (hI.informed t p hpc) hcourse he
  refine ⟨s, hs, ?_⟩
  rw [hlog, ownSince_append_self hle fun e ↦ thread_of_onExec]
  exact hrun

end Calls

/-! ### A run -/

/-- A small map with its history. -/
abbrev smallRecorded : Object (Fin 2) (Recorded (Store (Fin 2) ℕ ℕ) (Effect (Fin 2) ℕ ℕ))
    (Pc (Fin 2) ℕ ℕ)
    (Op (Fin 2) ℕ ℕ) (Ret (Fin 2) ℕ ℕ) :=
  recorded twoShards SerialMutex.twoIds 4

/-- The call is over with a guard. -/
def givesGuard : Outcome (Pc ι K V) (Ret ι K V) → Bool
  | .ret (.guard _) => true
  | _ => false

/-- The call of `t` returns a guard at its next access. -/
def returnsGuard (t : Fin 2) (c : Config (Fin 2) (Recorded (Store (Fin 2) ℕ ℕ) (Effect (Fin 2) ℕ ℕ))
    (Pc (Fin 2) ℕ ℕ)) : Bool :=
  (c.pcs t).any fun p ↦ (smallRecorded.exec t .go c.shared p).any fun r ↦ givesGuard r.2

/-- Thread `u` inserts while thread `t` is on its way to the same slot. -/
def overtakenSchedule (t u : Fin 2) : List (Label (Fin 2) (Op (Fin 2) ℕ ℕ)) :=
  List.replicate 5 (.exec u (.addr 1)) ++ List.replicate 5 (.exec t .go)

/-- A `get` that begins before the key is inserted returns a guard on its entry. -/
theorem calls_linearizable_overtaken :
    withCapacityHasherAndShardAmount 2 2 = .ok twoShards ∧
    ∃ ss c p s' g s, Calls smallRecorded Always recordedInit 1 (.get 0) ss c ∧ c.pcs 1 = some p ∧
      smallRecorded.exec 1 .go c.shared p = some (s', .ret (.guard g)) ∧
      ss.head?.map Prod.fst = some s ∧ s.log = [] ∧
      (Op.get 0).Ended twoShards 1 s'.store (ownSince 1 s.log.length s'.log) (.guard g) := by
  have hL : withCapacityHasherAndShardAmount 2 2 = .ok twoShards := by decide
  obtain ⟨c₁, hc₁, h₁⟩ := Reach.exists_of_replay smallRecorded Always recordedInit
    (.call 0 (.insert 0 7) :: List.replicate 4 (.exec 0 (.addr 1)))
    (fun c ↦ c.shared.log.isEmpty && (c.pcs 1).isNone &&
      (smallRecorded.enter 1 (.get 0) c.shared).any fun r ↦
      (smallRecorded.replay Always (c.put 1 r) (overtakenSchedule 1 0)).any (returnsGuard 1))
        (by decide +kernel)
  obtain ⟨h₂, h₃⟩ := Bool.and_eq_true_iff.1 h₁
  obtain ⟨hlog, hpc₁⟩ := Bool.and_eq_true_iff.1 h₂
  obtain ⟨r, hr, h₄⟩ := (Option.any_eq_true _ _).1 h₃
  obtain ⟨c, hc, hret⟩ := (Option.any_eq_true _ _).1 h₄
  have hstart : Calls smallRecorded Always recordedInit 1 (.get 0) [(c₁.shared, r.1)]
      (c₁.put 1 r) :=
    .start hc₁ trivial (Option.isNone_iff_eq_none.1 hpc₁) hr
  obtain ⟨ss', hcalls⟩ := hstart.of_replay (by simp [overtakenSchedule]) hc
  obtain ⟨p, hp, hex⟩ := (Option.any_eq_true _ _).1 hret
  obtain ⟨⟨s', o⟩, he, hgives⟩ := (Option.any_eq_true _ _).1 hex
  obtain ⟨g, rfl⟩ : ∃ g, o = .ret (.guard g) := by
    cases o with
    | goto q => cases hgives
    | ret r =>
      cases r with
      | guard g => exact ⟨g, rfl⟩
      | _ => cases hgives
  obtain ⟨s, hs, hended⟩ := calls_linearizable hL hcalls hp he
  obtain rfl : c₁.shared = s := Option.some.inj hs
  exact ⟨hL, _, c, p, s', g, _, hcalls, hp, he, hs, List.isEmpty_iff.1 hlog, hended⟩

end Shared

end AtomicHashMap

end Crossync
