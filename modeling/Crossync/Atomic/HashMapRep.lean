import Mathlib.Algebra.BigOperators.Group.List.Basic
import Mathlib.Data.List.Pairwise
import Mathlib.Data.List.Perm.Basic
import Mathlib.Tactic.Ring
import Crossync.Atomic.HashMapLayout

/-!
# What an `AtomicHashMap` represents

A finite map is a list of key-value pairs with different keys (`Spec`), and a store represents it
when the pairs of the list are the entries linked in the chains.

## Placement

An entry is in the shard and the slot that its hash selects, and equal keys have equal hashes. So
two entries with equal keys would be in the same chain, and a walk over one chain decides whether a
key is in the map (`Rep.lookup_cases`). Chains in different slots are disjoint for the same reason,
which is why a write to one chain is invisible to the others.

The representation `Rep` relates a store to a list through the addresses of each chain. It says
nothing about the other cells of the heap, so a detached chain is simply forgotten before it is
freed.

## Keys up to equality

Keys are compared by `==`, which need not be identity: a key that is inserted again keeps the old
key of its entry and gets the new value. The list of the specification does the same, and `Distinct`
says that no two of its keys are `==`.
-/

open Linked

namespace Crossync

namespace AtomicHashMap

/-! ### The finite map

The map as a list of pairs, with `lookup`, `put`, `erase` and `adjust` up to `==`, as the code
compares keys. -/

namespace Spec

variable {K V : Type*} [BEq K]

/-- The value of a key. -/
def lookup (key : K) (l : List (K × V)) : Option V := (l.find? fun e ↦ e.1 == key).map Prod.snd

/-- The value of a key, if there is one, is changed. -/
def adjust (key : K) (f : V → V) (l : List (K × V)) : List (K × V) :=
  l.map fun e ↦ if e.1 == key then (e.1, f e.2) else e

/-- A key gets a value, in its pair if there is one. -/
def put (key : K) (value : V) (l : List (K × V)) : List (K × V) :=
  if (lookup key l).isSome then adjust key (fun _ ↦ value) l else (key, value) :: l

/-- A key and its value are taken out. -/
def erase (key : K) (l : List (K × V)) : List (K × V) := l.filter fun e ↦ !(e.1 == key)

/-- What a call does to the map, and what it returns. -/
def exec (cmd : Cmd K V) (l : List (K × V)) : List (K × V) × Result K V :=
  match cmd with
  | .insert _ key value => (put key value l, .value (lookup key l))
  | .get key => (l, .value (lookup key l))
  | .getMut key f => (adjust key f l, .value (lookup key l))
  | .remove key => (erase key l, .value (lookup key l))
  | .containsKey key => (l, .bool (lookup key l).isSome)
  | .clear => ([], .unit)
  | .len => (l, .len l.length)
  | .asVec => (l, .entries l)

/-- A sequence of calls. -/
def run : List (Cmd K V) → List (K × V) → List (K × V) × List (Result K V)
  | [], l => (l, [])
  | cmd :: cmds, l =>
    let x := run cmds (exec cmd l).1
    (x.1, (exec cmd l).2 :: x.2)

/-- The keys are different. -/
def Distinct (l : List (K × V)) : Prop := l.Pairwise fun x y ↦ (x.1 == y.1) = false

variable [EquivBEq K] {key k : K} {v : V} {f : V → V} {l : List (K × V)}

/-- No pair is listed twice. -/
theorem Distinct.nodup (h : Distinct l) : l.Nodup := by
  refine h.imp fun hne heq ↦ ?_
  rw [heq, BEq.refl] at hne
  cases hne

/-- Equal keys belong to one pair. -/
theorem Distinct.eq_of_beq (h : Distinct l) {x y : K × V} (hx : x ∈ l) (hy : y ∈ l)
    (he : (x.1 == y.1) = true) : x = y := by
  have : Std.Symm fun x y : K × V ↦ (x.1 == y.1) = false :=
    ⟨fun x y hxy ↦ by rw [BEq.comm]; exact hxy⟩
  by_contra hne
  have hf := List.Pairwise.forall h hx hy hne
  rw [he] at hf
  cases hf

/-- A key has a value exactly when a pair of an equal key is listed. -/
theorem lookup_eq_some_iff (h : Distinct l) :
    lookup key l = some v ↔ ∃ k, (k, v) ∈ l ∧ (k == key) = true := by
  rw [lookup, Option.map_eq_some_iff]
  constructor
  · rintro ⟨⟨k, v'⟩, hfind, rfl⟩
    have hk := List.find?_some hfind
    exact ⟨k, List.mem_of_find?_eq_some hfind, hk⟩
  · rintro ⟨k, hmem, hk⟩
    cases hfind : l.find? fun e ↦ e.1 == key with
    | none => exact absurd hk (by simpa using List.find?_eq_none.1 hfind _ hmem)
    | some x =>
      refine ⟨x, rfl, ?_⟩
      have hx := List.mem_of_find?_eq_some hfind
      have hxk := List.find?_some hfind
      rw [h.eq_of_beq hx hmem (BEq.trans hxk (BEq.symm hk))]

omit [EquivBEq K] in
/-- A key has no value exactly when no pair of an equal key is listed. -/
theorem lookup_eq_none_iff : lookup key l = none ↔ ∀ x ∈ l, (x.1 == key) = false := by
  rw [lookup, Option.map_eq_none_iff, List.find?_eq_none]
  simp

omit [EquivBEq K] in
/-- The pairs after an update are those before it, with the value of the key replaced. -/
theorem mem_adjust : (k, v) ∈ adjust key f l ↔
    ∃ v', (k, v') ∈ l ∧ v = if k == key then f v' else v' := by
  rw [adjust, List.mem_map]
  constructor
  · rintro ⟨⟨k', v'⟩, hmem, he⟩
    split_ifs at he with hk
    · cases he
      exact ⟨v', hmem, (if_pos hk).symm⟩
    · obtain ⟨rfl, rfl⟩ := Prod.mk.inj he
      exact ⟨v', hmem, (if_neg hk).symm⟩
  · rintro ⟨v', hmem, rfl⟩
    refine ⟨(k, v'), hmem, ?_⟩
    dsimp only
    split_ifs <;> rfl

omit [EquivBEq K] in
/-- An update keeps the keys different. -/
theorem Distinct.adjust (h : Distinct l) : Distinct (adjust key f l) := by
  refine List.pairwise_map.2 (h.imp fun {x y} hxy ↦ ?_)
  have hfst : ∀ e : K × V, (if e.1 == key then (e.1, f e.2) else e).1 = e.1 := fun e ↦ by
    split_ifs <;> rfl
  rwa [hfst, hfst]

omit [EquivBEq K] in
/-- An erasure keeps the keys different. -/
theorem Distinct.erase (h : Distinct l) : Distinct (erase key l) := List.Pairwise.filter _ h

/-- Putting a key keeps the keys different, whether it was there or not. -/
theorem Distinct.put (h : Distinct l) : Distinct (put key v l) := by
  unfold Spec.put
  split_ifs with hk
  · exact h.adjust
  · rw [Option.not_isSome_iff_eq_none, lookup_eq_none_iff] at hk
    refine List.pairwise_cons.2 ⟨fun x hx ↦ ?_, h⟩
    rw [BEq.comm]
    exact hk x hx

end Spec

/-! ### Representation

The addresses of the chains are part of the relation, so that what an operation does to one chain
can be said without mentioning the others. -/

section Rep

variable {K V : Type*} [BEq K] [EquivBEq K] [Hashable K] [LawfulHashable K]

/-- The addresses in the chain of every slot of every shard. -/
abbrev Addresses := ℕ → ℕ → List ℕ

/-- The chain of one slot becomes `as`. -/
def Addresses.set (A : Addresses) (i j : ℕ) (as : List ℕ) : Addresses :=
  Function.update A i (Function.update (A i) j as)

@[simp] theorem Addresses.set_self (A : Addresses) (i j : ℕ) (as : List ℕ) :
    A.set i j as i j = as := by
  simp [Addresses.set]

theorem Addresses.set_of_ne (A : Addresses) {i j i' j' : ℕ} (as : List ℕ)
    (h : i' ≠ i ∨ j' ≠ j) : A.set i j as i' j' = A i' j' := by
  unfold Addresses.set
  by_cases hi : i' = i
  · subst hi
    rw [Function.update_self, Function.update_of_ne (h.resolve_left fun h ↦ h rfl)]
  · rw [Function.update_of_ne hi]

/-- The entries that a shard should count. -/
def Addresses.total (A : Addresses) (L : Layout) (i : ℕ) : ℕ :=
  ((List.range L.capacity).map fun j ↦ (A i j).length).sum

/-- Changing one summand changes the sum by the difference. -/
theorem sum_range_update (f : ℕ → ℕ) {n j : ℕ} (hj : j < n) (x : ℕ) :
    ((List.range n).map (Function.update f j x)).sum + f j = ((List.range n).map f).sum + x := by
  induction n with
  | zero => cases hj
  | succ n ih =>
    simp only [List.range_succ, List.map_append, List.sum_append, List.map_cons, List.map_nil,
      List.sum_cons, List.sum_nil]
    rcases Nat.lt_succ_iff_lt_or_eq.1 hj with hlt | rfl
    · have := ih hlt
      rw [Function.update_of_ne (by omega)]
      omega
    · have hsame : (List.range j).map (Function.update f j x) = (List.range j).map f :=
        List.map_congr_left fun i hi ↦ Function.update_of_ne (List.mem_range.1 hi).ne _ _
      rw [hsame, Function.update_self]
      omega

/-- Changing one chain of a shard changes the shard's total by the difference. -/
theorem Addresses.total_set (A : Addresses) (L : Layout) {i j : ℕ} (hj : j < L.capacity)
    (as : List ℕ) :
    (A.set i j as).total L i + (A i j).length = A.total L i + as.length := by
  have hf : (fun j' ↦ (A.set i j as i j').length) =
      Function.update (fun j' ↦ (A i j').length) j as.length := by
    funext j'
    by_cases hj' : j' = j
    · subst hj'
      simp
    · rw [A.set_of_ne as (Or.inr hj'), Function.update_of_ne hj']
  unfold Addresses.total
  rw [hf]
  exact sum_range_update _ hj _

theorem Addresses.total_set_of_ne (A : Addresses) (L : Layout) {i i' j : ℕ} (hi : i' ≠ i)
    (as : List ℕ) : (A.set i j as).total L i' = A.total L i' := by
  unfold Addresses.total
  simp only [A.set_of_ne as (Or.inl hi)]

/-- **The store represents the finite map** `l`, with the chains `A`. -/
structure RepAt (L : Layout) (s : Store K V) (A : Addresses) (l : List (K × V)) : Prop where
  /-- Every slot heads a chain. -/
  chain : ∀ i j, Chain s.heap ((s.shards i).heads j) (A i j)
  nodup : ∀ i j, (A i j).Nodup
  /-- An entry is in the shard and the slot of its hash. -/
  placed : ∀ i j a e, a ∈ A i j → s.heap a = some e →
    e.hash = hash e.key ∧ i = L.determineShard e.hash ∧ j = L.getSlot e.hash
  /-- A key has at most one entry in a chain. -/
  unique : ∀ i j a b ea eb, a ∈ A i j → b ∈ A i j → s.heap a = some ea → s.heap b = some eb →
    (ea.key == eb.key) = true → a = b
  /-- The pairs of the map are the linked entries. -/
  members : ∀ k v, (k, v) ∈ l ↔ ∃ i j a e, a ∈ A i j ∧ s.heap a = some e ∧ e.key = k ∧ e.value = v
  distinct : Spec.Distinct l
  /-- Every shard counts its entries. -/
  count : ∀ i, (s.shards i).count = A.total L i
  /-- Finitely many addresses are in use. -/
  bounded : ∃ B, ∀ a, B ≤ a → s.heap a = none

variable {L : Layout} {s : Store K V} {A : Addresses} {l : List (K × V)} {key : K}

omit [EquivBEq K] in
/-- An entry of a key is in the chain that the hash of the key selects. -/
theorem RepAt.home (hR : RepAt L s A l) {i j a : ℕ} {e : Entry K V} (ha : a ∈ A i j)
    (he : s.heap a = some e) (hk : (e.key == key) = true) :
    i = L.determineShard (hash key) ∧ j = L.getSlot (hash key) ∧
      found (hash key) key e = true := by
  obtain ⟨hh, hi, hj⟩ := hR.placed i j a e ha he
  have hhash : e.hash = hash key := hh.trans (hash_eq hk)
  rw [hhash] at hi hj
  refine ⟨hi, hj, ?_⟩
  simp [found, hhash, hk]

/-- A key has at most one entry. -/
theorem RepAt.eq_of_key (hR : RepAt L s A l) {i j i' j' a b : ℕ} {ea eb : Entry K V}
    (ha : a ∈ A i j) (hb : b ∈ A i' j') (hea : s.heap a = some ea) (heb : s.heap b = some eb)
    (hk : (ea.key == eb.key) = true) : a = b := by
  obtain ⟨rfl, rfl, -⟩ := hR.home ha hea hk
  obtain ⟨rfl, rfl, -⟩ := hR.home hb heb (BEq.refl (a := eb.key))
  exact hR.unique _ _ a b ea eb ha hb hea heb hk

omit [EquivBEq K] [LawfulHashable K] in
/-- Chains of different slots are disjoint. -/
theorem RepAt.disjoint (hR : RepAt L s A l) {i j i' j' a : ℕ} (ha : a ∈ A i j)
    (ha' : a ∈ A i' j') : i = i' ∧ j = j' := by
  obtain ⟨-, e, he⟩ := (hR.chain i j).exists_of_mem ha
  obtain ⟨-, hi, hj⟩ := hR.placed i j a e ha he
  obtain ⟨-, hi', hj'⟩ := hR.placed i' j' a e ha' he
  exact ⟨hi.trans hi'.symm, hj.trans hj'.symm⟩

/-- **One chain decides**: the walk finds the entry of the key, or the key is not in the map. -/
theorem RepAt.lookup_cases (hR : RepAt L s A l) (key : K) :
    (∃ pre a post e, A (L.determineShard (hash key)) (L.getSlot (hash key)) = pre ++ a :: post ∧
      s.heap a = some e ∧ (e.key == key) = true ∧ found (hash key) key e = true ∧
      Misses (found (hash key) key) s.heap pre ∧ Spec.lookup key l = some e.value) ∨
    (Misses (found (hash key) key) s.heap
        (A (L.determineShard (hash key)) (L.getSlot (hash key))) ∧
      Spec.lookup key l = none) := by
  set as := A (L.determineShard (hash key)) (L.getSlot (hash key)) with has
  cases hfind : as.find? fun a ↦ (s.heap a).any (found (hash key) key) with
  | some a =>
    left
    obtain ⟨hhit, pre, post, happ, hmiss⟩ := List.find?_eq_some_iff_append.1 hfind
    obtain ⟨e, he, hfound⟩ : ∃ e, s.heap a = some e ∧ found (hash key) key e = true := by
      cases he : s.heap a with
      | none =>
        rw [he] at hhit
        cases hhit
      | some e =>
        rw [he] at hhit
        exact ⟨e, rfl, hhit⟩
    have hkey : (e.key == key) = true := by
      simp only [found, Bool.and_eq_true] at hfound
      exact hfound.2
    refine ⟨pre, a, post, e, happ, he, hkey, hfound, fun b hb n hn ↦ ?_, ?_⟩
    · have := hmiss b hb
      rw [hn] at this
      simpa using this
    · refine (Spec.lookup_eq_some_iff hR.distinct).2 ⟨e.key, ?_, hkey⟩
      exact (hR.members _ _).2 ⟨_, _, a, e, by rw [← has, happ]; simp, he, rfl, rfl⟩
  | none =>
    right
    have hnone := List.find?_eq_none.1 hfind
    have hmiss : Misses (found (hash key) key) s.heap as := fun a ha n hn ↦ by
      have := hnone a ha
      rw [hn] at this
      simpa using this
    refine ⟨hmiss, Spec.lookup_eq_none_iff.2 fun x hx ↦ ?_⟩
    obtain ⟨i, j, a, e, ha, he, hk, -⟩ := (hR.members x.1 x.2).1 hx
    by_contra hne
    rw [Bool.not_eq_false, ← hk] at hne
    obtain ⟨rfl, rfl, hfound⟩ := hR.home ha he hne
    rw [hmiss a ha e he] at hfound
    cases hfound

end Rep

end AtomicHashMap

end Crossync
