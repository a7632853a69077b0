import Mathlib.Data.List.Count
import Mathlib.Data.List.Forall2
import Crossync.Unwind.Scope
import Crossync.Atomic.HashMapRefines

/-!
# Dropping detached chains

`clear` and `Drop for Shard` take every chain out of its slot and then drop the detached chains. The
destructors of the keys and of the values are the user's, and one of them may panic.

The model keeps a log of what is run: the destructor of a value or of a key, and the release of an
entry's memory. A destructor is known by the entry it belongs to, and `panics` says which ones
panic. An access to an entry that is not there has no meaning, so a result at all says that nothing
was touched after it was freed.

## Who owns what

`Drop for DetachedChain` owns three things while a destructor runs. The entry is in `boxed`, which
`drop` takes on the normal path and the unwinding otherwise. The rest of the chain is in
`remainder`, which the loop takes back on the normal path and the unwinding drops otherwise. And the
other chains are in the vector, whose drop goes on with the elements that are left in either case.
All three have the shape of `Unwind.Ends.owning_seq`, so what is run does not depend on where the
panic strikes (`dropVec_ends`).

## What is assumed about panics

At most one destructor panics. A second one during the unwinding aborts the process, and then
nothing is promised. The theorem covers every position of the one that panics, the absence of any,
and chains of any length and number, empty ones included.
-/

open Linked

namespace Crossync

namespace AtomicHashMap

/-- A destructor of the user's, by the entry that holds what it destroys. -/
inductive Destructor where
  | value (entry : ℕ)
  | key (entry : ℕ)
  deriving DecidableEq, Repr

/-- The entry that holds what it destroys. -/
def Destructor.entry : Destructor → ℕ
  | .value entry => entry
  | .key entry => entry

/-- What is done to an entry. -/
inductive Event where
  | destroy (d : Destructor)
  | free (entry : ℕ)
  deriving DecidableEq, Repr

/-- The heap, and what was done to its entries. -/
structure Graveyard (K V : Type*) where
  heap : Mem (Entry K V)
  log : List Event

section Code

variable {K V : Type*} (panics : Destructor → Bool) (fuel : ℕ)

/-- The destructor of a key or of a value runs. -/
def destroy (d : Destructor) : Unwind.Code (Graveyard K V) := fun s ↦
  match s.heap d.entry with
  | none => none
  | some _ => some ({ s with log := s.log ++ [.destroy d] }, .of (panics d))

/-- The memory of an entry is released. -/
def freeBox (entry : ℕ) : Unwind.Code (Graveyard K V) := fun s ↦
  match s.heap entry with
  | none => none
  | some _ =>
    some ({ heap := Function.update s.heap entry none, log := s.log ++ [.free entry] }, .done)

/-- The drop of a `Box<Entry>`: of its fields only the key has a destructor, since the value is in a
`ManuallyDrop`, and the memory is released in either case. -/
def dropBoxed (entry : ℕ) : Unwind.Code (Graveyard K V) :=
  Unwind.seq (Unwind.owning (destroy panics (.key entry)) (freeBox entry)) (freeBox entry)

/-- `ManuallyDrop::drop(&mut boxed.value)` and `drop(boxed)`, with `boxed` in scope. -/
def dropEntry (entry : ℕ) : Unwind.Code (Graveyard K V) :=
  Unwind.seq (Unwind.owning (destroy panics (.value entry)) (dropBoxed panics entry))
    (dropBoxed panics entry)

/-- `Drop for DetachedChain`. The link is read before the entry goes; `remainder` is in scope while
it does, and the loop goes on with it after. -/
def dropChain : ℕ → ℕ → Unwind.Code (Graveyard K V)
  | 0, _, _ => none
  | k + 1, entry, s =>
    if entry = 0 then some (s, .done)
    else
      match s.heap entry with
      | none => none
      | some e =>
        let remainder := dropChain k e.next
        Unwind.seq (Unwind.owning (dropEntry panics entry) remainder) remainder s

/-- The drop of a `Vec<DetachedChain>`. -/
def dropVec : List ℕ → Unwind.Code (Graveyard K V)
  | [], s => some (s, .done)
  | chain :: chains, s =>
    Unwind.seq (Unwind.owning (dropChain panics fuel chain) (dropVec chains)) (dropVec chains) s

/-- `slot.head.swap(null_mut())` over the slots, collecting the chains. -/
def swapHeads : List ℕ → Shard → Shard × List ℕ
  | [], sh => (sh, [])
  | j :: js, sh =>
    let r := swapHeads js (sh.setHead j 0)
    (r.1, sh.heads j :: r.2)

/-- `Drop for Shard`. -/
def dropShard (capacity : ℕ) (sh : Shard) (s : Graveyard K V) :
    Option (Shard × Graveyard K V × Unwind.Exit) :=
  let r := swapHeads (List.range capacity) sh
  (dropVec panics fuel r.2 s).map fun x ↦ (r.1, x)

/-- One shard of `clear`: detach, then drop the chains. -/
def clearShard (capacity i : ℕ) (s : Store K V) (log : List Event) :
    Option (Store K V × List Event × Unwind.Exit) :=
  match tryDetach fuel i (List.range capacity) s with
  | none => none
  | some (s, chains) =>
    (dropVec panics fuel chains ⟨s.heap, log⟩).map fun x ↦
      ({ s with heap := x.1.heap }, x.1.log, x.2)

end Code

/-! ### What is run

The destructors and releases in order, for an entry, a chain and a vector of chains. -/

section Run

variable {K V : Type*} {panics : Destructor → Bool} {fuel : ℕ} {s : Graveyard K V} {a : ℕ}
  {as bs : List ℕ} {e : Entry K V}

/-- All that is done to an entry. -/
def burial (a : ℕ) : List Event := [.destroy (.value a), .destroy (.key a), .free a]

/-- The entries are destroyed and freed, one after the other. -/
def Graveyard.bury (s : Graveyard K V) (as : List ℕ) : Graveyard K V where
  heap b := if b ∈ as then none else s.heap b
  log := s.log ++ as.flatMap burial

/-- A destructor of one of the entries panics. -/
def blames (panics : Destructor → Bool) (as : List ℕ) : Bool :=
  as.any fun a ↦ panics (.value a) || panics (.key a)

/-- At most one destructor panics. -/
def AtMostOne (panics : Destructor → Bool) : Prop :=
  ∀ d d', panics d = true → panics d' = true → d = d'

theorem Graveyard.bury_nil : s.bury [] = s := by
  simp [Graveyard.bury]

theorem Graveyard.bury_bury : (s.bury as).bury bs = s.bury (as ++ bs) := by
  unfold Graveyard.bury
  simp only [List.flatMap_append, List.append_assoc, Graveyard.mk.injEq, and_true]
  funext b
  by_cases hb : b ∈ bs
  · simp [hb]
  · simp [hb]

/-- Chains off the buried entries stay. -/
theorem Graveyard.chain_bury {p : ℕ} (h : Linked.Chain s.heap p bs) (hd : ∀ a ∈ as, a ∉ bs) :
    Linked.Chain (s.bury as).heap p bs := by
  refine h.congr fun b hb ↦ ?_
  have hnot : b ∉ as := fun ha ↦ hd b ha hb
  exact congrArg (Option.map next) (if_neg hnot)

/-- Two disjoint sets of entries are not both to blame. -/
theorem AtMostOne.blames_eq_false (h : AtMostOne panics) (hd : ∀ a ∈ as, a ∉ bs)
    (has : blames panics as = true) : blames panics bs = false := by
  obtain ⟨a, ha, hpa⟩ := List.any_eq_true.1 has
  by_contra hbs
  rw [Bool.not_eq_false] at hbs
  obtain ⟨b, hb, hpb⟩ := List.any_eq_true.1 hbs
  have hab : a = b := by
    rcases Bool.or_eq_true_iff.1 hpa with hva | hka
    · rcases Bool.or_eq_true_iff.1 hpb with hvb | hkb
      · cases h _ _ hva hvb
        rfl
      · cases h _ _ hva hkb
    · rcases Bool.or_eq_true_iff.1 hpb with hvb | hkb
      · cases h _ _ hka hvb
      · cases h _ _ hka hkb
        rfl
  exact hd a ha (hab ▸ hb)

theorem destroy_ends {d : Destructor} (he : s.heap d.entry = some e) :
    Unwind.Ends (destroy panics d) s { s with log := s.log ++ [.destroy d] } (panics d) := by
  simp only [Unwind.Ends, destroy, he]

theorem freeBox_ends (he : s.heap a = some e) :
    Unwind.Ends (freeBox a) s
      { heap := Function.update s.heap a none, log := s.log ++ [.free a] } false := by
  simp only [Unwind.Ends, freeBox, he]
  rfl

theorem dropBoxed_ends (he : s.heap a = some e) :
    Unwind.Ends (dropBoxed panics a) s
      { heap := Function.update s.heap a none, log := s.log ++ [.destroy (.key a), .free a] }
      (panics (.key a)) := by
  have hkey : Unwind.Ends (destroy panics (.key a)) s _ _ := destroy_ends he
  have hboth := hkey.owning_seq (freeBox_ends he) fun _ ↦ rfl
  rw [Bool.or_false, List.append_assoc] at hboth
  exact hboth

/-- **One entry**: the value is destroyed, then the key, then the memory goes, wherever the panic
strikes. -/
theorem dropEntry_ends (hone : AtMostOne panics) (he : s.heap a = some e) :
    Unwind.Ends (dropEntry panics a) s (s.bury [a]) (blames panics [a]) := by
  have hvalue : Unwind.Ends (destroy panics (.value a)) s _ _ := destroy_ends he
  have hbox : Unwind.Ends (dropBoxed panics a)
      { s with log := s.log ++ [.destroy (.value a)] } _ _ := dropBoxed_ends he
  have hboth := hvalue.owning_seq hbox fun hv ↦ by
    by_contra hk
    rw [Bool.not_eq_false] at hk
    cases hone _ _ hv hk
  have hgone : s.bury [a] = ⟨Function.update s.heap a none,
      s.log ++ [.destroy (.value a)] ++ [.destroy (.key a), .free a]⟩ := by
    unfold Graveyard.bury
    rw [List.append_assoc]
    refine congrArg₂ Graveyard.mk (funext fun b ↦ ?_) rfl
    simp [Function.update_apply]
  rw [hgone, blames, List.any_cons, List.any_nil, Bool.or_false]
  exact hboth

/-- **One chain.** -/
theorem dropChain_ends (hone : AtMostOne panics) {p : ℕ} (h : Linked.Chain s.heap p as)
    (hd : as.Nodup) (hf : as.length < fuel) :
    Unwind.Ends (dropChain panics fuel p) s (s.bury as) (blames panics as) := by
  induction as generalizing p s fuel with
  | nil =>
    cases fuel with
    | zero => cases hf
    | succ k =>
      rw [Graveyard.bury_nil]
      exact if_pos (show p = 0 from h)
  | cons a as ih =>
    obtain ⟨rfl, hne, e, he, hrest⟩ := h
    obtain ⟨hnot, hd'⟩ := List.nodup_cons.1 hd
    cases fuel with
    | zero => cases hf
    | succ k =>
      have hoff : ∀ b ∈ [p], b ∉ as := fun b hb ↦ List.mem_singleton.1 hb ▸ hnot
      have hrest' := Graveyard.chain_bury hrest hoff
      have hboth := (dropEntry_ends hone he).owning_seq (ih hrest' hd' (by simpa using hf))
        (hone.blames_eq_false hoff)
      rw [Graveyard.bury_bury] at hboth
      have hblames : blames panics (p :: as) = (blames panics [p] || blames panics as) := by
        simp [blames]
      rw [hblames]
      unfold Unwind.Ends dropChain
      simp only [if_neg hne, he]
      exact hboth

/-- **All the chains.** What is run, and in which order, does not depend on the panic. -/
theorem dropVec_ends (hone : AtMostOne panics) {chains : List ℕ} {ass : List (List ℕ)}
    (h : List.Forall₂ (Linked.Chain s.heap) chains ass) (hd : ass.flatten.Nodup)
    (hf : ∀ as ∈ ass, as.length < fuel) :
    Unwind.Ends (dropVec panics fuel chains) s (s.bury ass.flatten)
      (blames panics ass.flatten) := by
  induction ass generalizing chains s with
  | nil =>
    cases h
    rw [List.flatten_nil, Graveyard.bury_nil]
    rfl
  | cons as ass ih =>
    obtain ⟨chain, chains, hchain, hrest, rfl⟩ := List.forall₂_cons_right_iff.1 h
    rw [List.flatten_cons, List.nodup_append] at hd
    obtain ⟨hd₁, hd₂, hdis⟩ := hd
    have hoff : ∀ b ∈ as, b ∉ ass.flatten := fun b hb hb' ↦ hdis b hb b hb' rfl
    have hfirst := dropChain_ends hone hchain hd₁ (hf as (List.mem_cons_self ..))
    have hrest' : List.Forall₂ (Linked.Chain (s.bury as).heap) chains ass :=
      Linked.chains_congr hrest fun b hb ↦
        congrArg (Option.map next) (if_neg fun hb' ↦ hoff b hb' hb)
    have hboth := hfirst.owning_seq
      (ih hrest' hd₂ fun bs hbs ↦ hf bs (List.mem_cons_of_mem _ hbs)) (hone.blames_eq_false hoff)
    rw [Graveyard.bury_bury] at hboth
    have hblames : blames panics (as ++ ass.flatten) =
        (blames panics as || blames panics ass.flatten) := List.any_append ..
    rw [List.flatten_cons, hblames]
    exact hboth

/-! ### Exactly once

Counting in the log that has been built up. -/

/-- **The entries are destroyed**: every value and every key exactly once, every entry freed exactly
once, and nothing else is touched. -/
structure Destroyed (s s' : Graveyard K V) (as : List ℕ) : Prop where
  heap : ∀ b, s'.heap b = if b ∈ as then none else s.heap b
  log : ∃ events, s'.log = s.log ++ events ∧ ∀ a,
    events.count (.destroy (.value a)) = (if a ∈ as then 1 else 0) ∧
    events.count (.destroy (.key a)) = (if a ∈ as then 1 else 0) ∧
    events.count (.free a) = (if a ∈ as then 1 else 0)

theorem count_burials (hd : as.Nodup) (mk : ℕ → Event) (hmk : ∀ a b, (burial b).count (mk a) =
    if a = b then 1 else 0) (a : ℕ) :
    (as.flatMap burial).count (mk a) = if a ∈ as then 1 else 0 := by
  induction as with
  | nil => rfl
  | cons b as ih =>
    obtain ⟨hnot, hd'⟩ := List.nodup_cons.1 hd
    rw [List.flatMap_cons, List.count_append, hmk, ih hd']
    by_cases hab : a = b
    · subst hab
      simp [hnot]
    · simp [hab]

theorem Graveyard.bury_destroyed (hd : as.Nodup) : Destroyed s (s.bury as) as where
  heap _ := rfl
  log := by
    refine ⟨as.flatMap burial, rfl, fun a ↦ ⟨?_, ?_, ?_⟩⟩
    · exact count_burials hd (fun a ↦ .destroy (.value a)) (fun a b ↦ by
        by_cases hab : b = a
        · simp [burial, hab]
        · simp [burial, hab, Ne.symm hab]) a
    · exact count_burials hd (fun a ↦ .destroy (.key a)) (fun a b ↦ by
        by_cases hab : b = a
        · simp [burial, hab]
        · simp [burial, hab, Ne.symm hab]) a
    · exact count_burials hd .free (fun a b ↦ by
        by_cases hab : b = a
        · simp [burial, hab]
        · simp [burial, hab, Ne.symm hab]) a

theorem swapHeads_eq {js : List ℕ} (hjs : js.Nodup) (sh : Shard) :
    (swapHeads js sh).2 = js.map sh.heads ∧
      ∀ j, (swapHeads js sh).1.heads j = if j ∈ js then 0 else sh.heads j := by
  induction js generalizing sh with
  | nil => exact ⟨rfl, fun _ ↦ by simp [swapHeads]⟩
  | cons j js ih =>
    obtain ⟨hnot, hjs'⟩ := List.nodup_cons.1 hjs
    obtain ⟨hchains, hheads⟩ := ih hjs' (sh.setHead j 0)
    have hset : ∀ j', (sh.setHead j 0).heads j' = if j' = j then 0 else sh.heads j' := fun j' ↦
      Function.update_apply ..
    constructor
    · simp only [swapHeads, hchains, List.map_cons, List.cons.injEq, true_and]
      exact List.map_congr_left fun j' hj' ↦ by
        rw [hset, if_neg (ne_of_mem_of_not_mem hj' hnot)]
    · intro j'
      simp only [swapHeads, hheads, hset, List.mem_cons]
      by_cases hj' : j' ∈ js
      · simp [hj']
      · simp [hj']

/-- The chains of the slots of a shard. -/
theorem dropVec_range (hone : AtMostOne panics) {p : ℕ → ℕ} {as : ℕ → List ℕ} {capacity : ℕ}
    (hc : ∀ j < capacity, Linked.Chain s.heap (p j) (as j))
    (hd : ((List.range capacity).flatMap as).Nodup) (hf : ∀ j < capacity, (as j).length < fuel) :
    Unwind.Ends (dropVec panics fuel ((List.range capacity).map p)) s
      (s.bury ((List.range capacity).flatMap as))
      (blames panics ((List.range capacity).flatMap as)) := by
  rw [List.flatMap_def] at hd ⊢
  refine dropVec_ends hone ?_ hd fun bs hbs ↦ ?_
  · rw [List.forall₂_map_left_iff, List.forall₂_map_right_iff, List.forall₂_same]
    exact fun j hj ↦ hc j (List.mem_range.1 hj)
  · obtain ⟨j, hj, rfl⟩ := List.mem_map.1 hbs
    exact hf j (List.mem_range.1 hj)

/-- **Detached chains are destroyed exactly once**, with at most one destructor that panics. Whether
the chains come as a vector, from `Drop for Shard` or from `clear`: every value and every key is
destroyed once and every entry freed once, with the slots already empty, and the panic then goes
on. -/
theorem chains_destroyed_once (hone : AtMostOne panics) :
    (∀ (s : Graveyard K V) (fuel : ℕ) (chains : List ℕ) (ass : List (List ℕ)),
      List.Forall₂ (Linked.Chain s.heap) chains ass → ass.flatten.Nodup →
      (∀ as ∈ ass, as.length < fuel) →
      ∃ s', dropVec panics fuel chains s = some (s', .of (blames panics ass.flatten)) ∧
        Destroyed s s' ass.flatten) ∧
    (∀ (s : Graveyard K V) (sh : Shard) (fuel capacity : ℕ) (as : ℕ → List ℕ),
      (∀ j < capacity, Linked.Chain s.heap (sh.heads j) (as j)) →
      ((List.range capacity).flatMap as).Nodup → (∀ j < capacity, (as j).length < fuel) →
      ∃ sh' s', dropShard panics fuel capacity sh s =
          some (sh', s', .of (blames panics ((List.range capacity).flatMap as))) ∧
        (∀ j < capacity, sh'.heads j = 0) ∧
        Destroyed s s' ((List.range capacity).flatMap as)) ∧
    (∀ (s : Store K V) (log : List Event) (fuel capacity i : ℕ) (as : ℕ → List ℕ),
      (∀ j < capacity, Linked.Chain s.heap ((s.shards i).heads j) (as j)) →
      ((List.range capacity).flatMap as).Nodup → (∀ j < capacity, (as j).length < fuel) →
      ∃ s' log', clearShard panics fuel capacity i s log =
          some (s', log', .of (blames panics ((List.range capacity).flatMap as))) ∧
        (∀ j < capacity, (s'.shards i).heads j = 0) ∧
        Destroyed ⟨s.heap, log⟩ ⟨s'.heap, log'⟩ ((List.range capacity).flatMap as)) := by
  refine ⟨fun s fuel chains ass hc hd hf ↦ ?_, fun s sh fuel capacity as hc hd hf ↦ ?_,
    fun s log fuel capacity i as hc hd hf ↦ ?_⟩
  · exact ⟨s.bury ass.flatten, dropVec_ends hone hc hd hf, Graveyard.bury_destroyed hd⟩
  · obtain ⟨hchains, hheads⟩ := swapHeads_eq (List.nodup_range (n := capacity)) sh
    have hends := dropVec_range hone hc hd hf
    refine ⟨(swapHeads (List.range capacity) sh).1, s.bury ((List.range capacity).flatMap as), ?_,
      fun j hj ↦ ?_, Graveyard.bury_destroyed hd⟩
    · simp only [dropShard, hchains]
      rw [hends]
      rfl
    · rw [hheads j, if_pos (List.mem_range.2 hj)]
  · obtain ⟨s', hrun, hheap, -, hheads, -⟩ := tryDetach_eq (A := fun _ ↦ as)
      (List.nodup_range (n := capacity)) (fun j hj ↦ hc j (List.mem_range.1 hj))
      (fun j hj ↦ hf j (List.mem_range.1 hj))
    have hends := dropVec_range (s := ⟨s.heap, log⟩) hone hc hd hf
    refine ⟨{ s' with heap := ((⟨s.heap, log⟩ : Graveyard K V).bury _).heap }, _, ?_, fun j hj ↦ ?_,
      Graveyard.bury_destroyed hd⟩
    · simp only [clearShard, hrun, hheap]
      rw [hends]
      rfl
    · rw [hheads j, if_pos (List.mem_range.2 hj)]

/-- Three entries in two slots; the destructor of the key of the second entry panics, and what is
behind it in its chain is still destroyed. -/
theorem chains_destroyed_once_key :
    ∃ sh' s', dropShard (fun d ↦ d = .key 2) 4 2 ⟨fun j ↦ if j = 0 then 2 else 3, 3⟩
        (⟨fun a ↦ if a = 2 then some ⟨7, 8, 0, 1⟩ else if a = 1 ∨
          a = 3 then some ⟨5, 6, 0, 0⟩ else none,
          []⟩ : Graveyard ℕ ℕ) = some (sh', s', .unwinding) ∧
      (∀ j < 2, sh'.heads j = 0) ∧
      Destroyed ⟨fun a ↦ if a = 2 then some ⟨7, 8, 0, 1⟩ else
        if a = 1 ∨ a = 3 then some ⟨5, 6, 0, 0⟩ else none, []⟩ s' [2, 1, 3] := by
  refine (chains_destroyed_once fun d d' hd hd' ↦ ?_).2.1 _ _ _ _
    (fun j ↦ if j = 0 then [2, 1] else [3]) ?_ (by decide) (by decide)
  · rw [of_decide_eq_true hd, of_decide_eq_true hd']
  · intro j hj
    obtain rfl | rfl : j = 0 ∨ j = 1 := by omega
    · exact ⟨rfl, by decide, _, rfl, rfl, by decide, _, rfl, rfl⟩
    · exact ⟨rfl, by decide, _, rfl, rfl⟩

end Run

end AtomicHashMap

end Crossync
