import Crossync.Atomic.HashMapRep

/-!
# `AtomicHashMap` is a finite map

Every call moves the represented map as the list operation does, and returns what the list operation
returns. A call edits one chain in one of three ways (overwrite, link in front, unlink), and `clear`
empties the chains of one shard after the other; each of these has one lemma about `RepAt`.

A chain is never longer than the map has keys, so a walk ends within as many links as calls have
been made: the number of calls bounds the fuel a sequence of calls needs (`refines_finite_map`).

## What the theorem quantifies over

Any accepted layout, any hash function that respects equality, any allocator that returns free
addresses, and any list of calls. The allocator is a parameter of each insertion, so it may behave
differently each time. That enough fuel gives the result is part of the statement, so it is a total
one.
-/

open Linked

namespace Crossync

namespace AtomicHashMap

variable {K V : Type*} [BEq K] [EquivBEq K] [Hashable K] [LawfulHashable K] {L : Layout}
  {s s' : Store K V} {A : Addresses} {l : List (K × V)} {key : K} {i j a fuel : ℕ} {e : Entry K V}

omit [BEq K] [EquivBEq K] [Hashable K] [LawfulHashable K] in
/-- A store of an entry changes the memory at its address. -/
theorem heap_setEntry (s : Store K V) (p : ℕ) (x : Option (Entry K V)) :
    (s.setEntry p x).heap = Function.update s.heap p x := rfl

omit [BEq K] [EquivBEq K] [Hashable K] [LawfulHashable K] in
/-- Writing the head of one slot, and the count, leaves the other heads alone. -/
theorem heads_setHead (s : Store K V) (i j p n i' j' : ℕ) :
    ((s.setShard i { (s.shards i).setHead j p with count := n }).shards i').heads j' =
      if i' = i ∧ j' = j then p else (s.shards i').heads j' := by
  by_cases hi : i' = i
  · subst hi
    simp [Store.setShard, Shard.setHead, Function.update_apply]
  · simp [Store.setShard, hi]

omit [BEq K] [EquivBEq K] [Hashable K] [LawfulHashable K] in
/-- A store of a shard changes the count of that shard. -/
theorem count_setShard (s : Store K V) (i i' : ℕ) (sh : Shard) :
    ((s.setShard i sh).shards i').count = if i' = i then sh.count else (s.shards i').count := by
  by_cases hi : i' = i
  · subst hi
    simp [Store.setShard]
  · simp [Store.setShard, hi]

/-! ### Overwriting a value

The chains stay as they are, so only the represented pairs change. -/

/-- Overwriting the value of an entry updates the key in the represented map. -/
theorem RepAt.setValue (hR : RepAt L s A l) (ha : a ∈ A i j) (he : s.heap a = some e)
    (hk : (e.key == key) = true) (f : V → V) :
    RepAt L (s.setEntry a (some { e with value := f e.value })) A (Spec.adjust key f l) := by
  -- every cell keeps its key and its hash
  have hsame : ∀ b e', (s.setEntry a (some { e with value := f e.value })).heap b = some e' →
      ∃ e₀, s.heap b = some e₀ ∧ e₀.key = e'.key ∧ e₀.hash = e'.hash ∧
        e'.value = if e'.key == key then (if b = a then f e.value else e₀.value) else e₀.value := by
    intro b e' hb
    by_cases hba : b = a
    · subst hba
      rw [heap_setEntry, Function.update_self] at hb
      cases hb
      exact ⟨e, he, rfl, rfl, by simp [hk]⟩
    · rw [heap_setEntry, Function.update_of_ne hba] at hb
      exact ⟨e', hb, rfl, rfl, by simp [hba]⟩
  refine ⟨fun i' j' ↦ (hR.chain i' j').update_of_next he rfl, hR.nodup, ?_, ?_, ?_,
    hR.distinct.adjust, hR.count, ?_⟩
  · intro i' j' b e' hb he'
    obtain ⟨e₀, he₀, hkey, hhash, -⟩ := hsame b e' he'
    rw [← hkey, ← hhash]
    exact hR.placed i' j' b e₀ hb he₀
  · intro i' j' b c eb ec hb hc heb hec hkey
    obtain ⟨e₁, he₁, hk₁, -⟩ := hsame b eb heb
    obtain ⟨e₂, he₂, hk₂, -⟩ := hsame c ec hec
    rw [← hk₁, ← hk₂] at hkey
    exact hR.unique i' j' b c e₁ e₂ hb hc he₁ he₂ hkey
  · intro k v
    rw [Spec.mem_adjust]
    constructor
    · rintro ⟨v₀, hmem, rfl⟩
      obtain ⟨i', j', b, e₀, hb, he₀, rfl, rfl⟩ := (hR.members k v₀).1 hmem
      by_cases hba : b = a
      · subst hba
        obtain rfl : e = e₀ := Option.some.inj (he.symm.trans he₀)
        exact ⟨i', j', b, _, hb, Function.update_self .., rfl, (if_pos hk).symm⟩
      · have hne : ¬ (e₀.key == key) = true := fun hk₀ ↦
          hba (hR.eq_of_key hb ha he₀ he (BEq.trans hk₀ (BEq.symm hk)))
        exact ⟨i', j', b, e₀, hb, (Function.update_of_ne hba ..).trans he₀, rfl, (if_neg hne).symm⟩
    · rintro ⟨i', j', b, e', hb, he', rfl, rfl⟩
      obtain ⟨e₀, he₀, hkey, -, hval⟩ := hsame b e' he'
      refine ⟨e₀.value, (hR.members _ _).2 ⟨i', j', b, e₀, hb, he₀, hkey, rfl⟩, hval.trans ?_⟩
      split_ifs with hk' hba
      · subst hba
        rw [Option.some.inj (he.symm.trans he₀)]
      · rw [← hkey] at hk'
        exact absurd (hR.eq_of_key hb ha he₀ he (BEq.trans hk' (BEq.symm hk))) hba
      · rfl
  · obtain ⟨B, hB⟩ := hR.bounded
    refine ⟨B, fun b hb ↦ ?_⟩
    have hba : b ≠ a := by
      rintro rfl
      rw [hB b hb] at he
      cases he
    exact (Function.update_of_ne hba ..).trans (hB b hb)

/-! ### Linking a new entry

The new entry becomes the head of its chain and points at the old head. -/

/-- The store after an insertion in front of a chain. -/
def Store.link (s : Store K V) (i j a : ℕ) (key : K) (value : V) (h : UInt64) : Store K V :=
  (s.setEntry a (some ⟨key, value, h, (s.shards i).heads j⟩)).setShard i
    { (s.shards i).setHead j a with count := (s.shards i).count + 1 }

omit [LawfulHashable K] in
/-- Linking a new entry in front of its chain puts the key into the represented map. -/
theorem RepAt.link (hL : L.Valid) (hR : RepAt L s A l) (hnew : Spec.lookup key l = none)
    (ha0 : a ≠ 0) (hfree : s.heap a = none) (value : V) :
    RepAt L (s.link (L.determineShard (hash key)) (L.getSlot (hash key)) a key value (hash key))
      (A.set (L.determineShard (hash key)) (L.getSlot (hash key))
        (a :: A (L.determineShard (hash key)) (L.getSlot (hash key)))) ((key, value) :: l) := by
  set i := L.determineShard (hash key) with hi
  set j := L.getSlot (hash key) with hj
  set en : Entry K V := ⟨key, value, hash key, (s.shards i).heads j⟩ with hen
  have hnot : ∀ i' j', a ∉ A i' j' := by
    intro i' j' hmem
    obtain ⟨-, n, hn⟩ := (hR.chain i' j').exists_of_mem hmem
    rw [hfree] at hn
    cases hn
  have hheap : (s.link i j a key value (hash key)).heap = Function.update s.heap a (some en) := rfl
  have hself : (s.link i j a key value (hash key)).heap a = some en := by
    rw [hheap, Function.update_self]
  have hother : ∀ b, b ≠ a → (s.link i j a key value (hash key)).heap b = s.heap b := fun b hb ↦ by
    rw [hheap, Function.update_of_ne hb]
  -- the addresses of a chain are those of before and, in this slot, the new one
  have hmem : ∀ i' j' b, b ∈ A.set i j (a :: A i j) i' j' ↔
      (b = a ∧ i' = i ∧ j' = j) ∨ b ∈ A i' j' := by
    intro i' j' b
    by_cases hij : i' = i ∧ j' = j
    · obtain ⟨rfl, rfl⟩ := hij
      simp
    · rw [A.set_of_ne _ (not_and_or.1 hij)]
      simp [hij]
  have hold : ∀ {i' j' b}, b ∈ A i' j' → b ≠ a := fun hb ↦ ne_of_mem_of_not_mem hb (hnot _ _)
  have hfresh : ∀ {i' j' b e'}, b ∈ A i' j' → s.heap b = some e' → (e'.key == key) = false := by
    intro i' j' b e' hb he'
    exact Spec.lookup_eq_none_iff.1 hnew (e'.key, e'.value)
      ((hR.members _ _).2 ⟨i', j', b, e', hb, he', rfl, rfl⟩)
  refine ⟨fun i' j' ↦ ?_, fun i' j' ↦ ?_, ?_, ?_, ?_, ?_, fun i' ↦ ?_, ?_⟩
  · have hheads : ((s.link i j a key value (hash key)).shards i').heads j' =
        if i' = i ∧ j' = j then a else (s.shards i').heads j' :=
      heads_setHead (s.setEntry a (some en)) i j a _ i' j'
    rw [hheap, hheads]
    split_ifs with hij
    · obtain ⟨rfl, rfl⟩ := hij
      rw [A.set_self]
      exact (hR.chain _ _).push ha0 (hnot _ _) rfl
    · rw [A.set_of_ne _ (not_and_or.1 hij)]
      exact (hR.chain i' j').update_of_notMem (hnot i' j') _
  · by_cases hij : i' = i ∧ j' = j
    · obtain ⟨rfl, rfl⟩ := hij
      rw [A.set_self]
      exact List.nodup_cons.2 ⟨hnot _ _, hR.nodup _ _⟩
    · rw [A.set_of_ne _ (not_and_or.1 hij)]
      exact hR.nodup i' j'
  · intro i' j' b e' hb he'
    rcases (hmem i' j' b).1 hb with ⟨rfl, rfl, rfl⟩ | hb
    · rw [hself] at he'
      cases he'
      exact ⟨rfl, rfl, rfl⟩
    · rw [hother b (hold hb)] at he'
      exact hR.placed i' j' b e' hb he'
  · intro i' j' b c eb ec hb hc heb hec hkey
    rcases (hmem i' j' b).1 hb with ⟨hba, -, -⟩ | hb'
    · rcases (hmem i' j' c).1 hc with ⟨hca, -, -⟩ | hc'
      · exact hba.trans hca.symm
      · rw [hba, hself] at heb
        rw [hother c (hold hc')] at hec
        cases heb
        have := hfresh hc' hec
        rw [BEq.comm, hkey] at this
        cases this
    · rw [hother b (hold hb')] at heb
      rcases (hmem i' j' c).1 hc with ⟨hca, -, -⟩ | hc'
      · rw [hca, hself] at hec
        cases hec
        rw [hfresh hb' heb] at hkey
        cases hkey
      · rw [hother c (hold hc')] at hec
        exact hR.unique i' j' b c eb ec hb' hc' heb hec hkey
  · intro k v
    rw [List.mem_cons]
    constructor
    · rintro (heq | hmem')
      · cases heq
        exact ⟨i, j, a, en, (hmem i j a).2 (Or.inl ⟨rfl, rfl, rfl⟩), hself, rfl, rfl⟩
      · obtain ⟨i', j', b, e', hb, he', hk⟩ := (hR.members k v).1 hmem'
        exact ⟨i', j', b, e', (hmem i' j' b).2 (Or.inr hb), (hother b (hold hb)).trans he', hk⟩
    · rintro ⟨i', j', b, e', hb, he', hk, hv⟩
      rcases (hmem i' j' b).1 hb with ⟨rfl, -, -⟩ | hb
      · rw [hself] at he'
        cases he'
        left
        rw [← hk, ← hv]
      · rw [hother b (hold hb)] at he'
        exact Or.inr ((hR.members k v).2 ⟨i', j', b, e', hb, he', hk, hv⟩)
  · refine List.pairwise_cons.2 ⟨fun x hx ↦ ?_, hR.distinct⟩
    rw [BEq.comm]
    exact Spec.lookup_eq_none_iff.1 hnew x hx
  · rw [Store.link, count_setShard]
    split_ifs with hi'
    · have htot := A.total_set L (i := i) (hL.getSlot_lt (hash key)) (a :: A i j)
      have hc := hR.count i
      rw [List.length_cons, ← hj] at htot
      rw [hi']
      show (s.shards i).count + 1 = _
      omega
    · rw [A.total_set_of_ne L hi']
      exact hR.count i'
  · obtain ⟨B, hB⟩ := hR.bounded
    refine ⟨max B (a + 1), fun b hb ↦ ?_⟩
    rw [hother b (by omega)]
    exact hB b (by omega)

/-! ### Unlinking an entry

The entry before it, or the head, is made to point past it. -/

/-- Two cells hold the same entry, links aside. -/
def SameEntry (x y : Option (Entry K V)) : Prop :=
  x.map (fun e ↦ (e.key, e.value, e.hash)) = y.map fun e ↦ (e.key, e.value, e.hash)

omit [BEq K] [EquivBEq K] [Hashable K] [LawfulHashable K] in
/-- An entry that differs from another one in its link has the same key, value and hash. -/
theorem SameEntry.exists {x : Option (Entry K V)} (h : SameEntry x (some e)) :
    ∃ e', x = some e' ∧ e'.key = e.key ∧ e'.value = e.value ∧ e'.hash = e.hash := by
  obtain ⟨e', rfl, he⟩ := Option.map_eq_some_iff.1 h
  simp only [Prod.mk.injEq] at he
  exact ⟨e', rfl, he.1, he.2.1, he.2.2⟩

/-- An entry is taken out of its chain, and nothing else happens to the entries. -/
theorem RepAt.unlink (hL : L.Valid) (hR : RepAt L s A l) {pre post : List ℕ}
    (hA : A i j = pre ++ a :: post) (he : s.heap a = some e) (hk : (e.key == key) = true)
    (hchain : ∀ i' j', Chain s'.heap ((s'.shards i').heads j') (A.set i j (pre ++ post) i' j'))
    (hsame : ∀ b, b ≠ a → SameEntry (s'.heap b) (s.heap b))
    (hcount : ∀ i', (s'.shards i').count =
      if i' = i then (s.shards i).count - 1 else (s.shards i').count) :
    RepAt L s' (A.set i j (pre ++ post)) (Spec.erase key l) := by
  have hnd := hR.nodup i j
  rw [hA] at hnd
  have hmid := List.nodup_middle.1 hnd
  have ha : a ∈ A i j := by
    rw [hA]
    simp
  have hjlt : j < L.capacity := by
    rw [(hR.placed i j a e ha he).2.2]
    exact hL.getSlot_lt _
  -- the addresses of a chain are those of before without the one that is taken out
  have hmem : ∀ i' j' b, b ∈ A.set i j (pre ++ post) i' j' ↔ b ∈ A i' j' ∧ b ≠ a := by
    intro i' j' b
    by_cases hij : i' = i ∧ j' = j
    · obtain ⟨rfl, rfl⟩ := hij
      rw [A.set_self, hA]
      constructor
      · intro hb
        refine ⟨?_, ?_⟩
        · rw [List.mem_append, List.mem_cons]
          exact (List.mem_append.1 hb).imp_right Or.inr
        · rintro rfl
          exact (List.nodup_cons.1 hmid).1 hb
      · rintro ⟨hb, hne⟩
        rw [List.mem_append, List.mem_cons] at hb
        exact List.mem_append.2 (hb.imp_right fun h ↦ h.resolve_left hne)
    · rw [A.set_of_ne _ (not_and_or.1 hij)]
      refine ⟨fun hb ↦ ⟨hb, ?_⟩, fun hb ↦ hb.1⟩
      rintro rfl
      exact hij (hR.disjoint hb ha)
  have hback : ∀ {b e'}, b ≠ a → s'.heap b = some e' →
      ∃ e₀, s.heap b = some e₀ ∧ e₀.key = e'.key ∧ e₀.value = e'.value ∧ e₀.hash = e'.hash := by
    intro b e' hne he'
    have h := hsame b hne
    rw [he'] at h
    exact SameEntry.exists h.symm
  refine ⟨hchain, fun i' j' ↦ ?_, ?_, ?_, fun k v ↦ ?_, hR.distinct.erase, fun i' ↦ ?_, ?_⟩
  · by_cases hij : i' = i ∧ j' = j
    · obtain ⟨rfl, rfl⟩ := hij
      rw [A.set_self]
      exact (List.nodup_cons.1 hmid).2
    · rw [A.set_of_ne _ (not_and_or.1 hij)]
      exact hR.nodup i' j'
  · intro i' j' b e' hb he'
    obtain ⟨hb, hne⟩ := (hmem i' j' b).1 hb
    obtain ⟨e₀, he₀, hk₀, -, hh₀⟩ := hback hne he'
    rw [← hk₀, ← hh₀]
    exact hR.placed i' j' b e₀ hb he₀
  · intro i' j' b c eb ec hb hc heb hec hkey
    obtain ⟨hb, hbne⟩ := (hmem i' j' b).1 hb
    obtain ⟨hc, hcne⟩ := (hmem i' j' c).1 hc
    obtain ⟨e₁, he₁, hk₁, -⟩ := hback hbne heb
    obtain ⟨e₂, he₂, hk₂, -⟩ := hback hcne hec
    rw [← hk₁, ← hk₂] at hkey
    exact hR.unique i' j' b c e₁ e₂ hb hc he₁ he₂ hkey
  · rw [Spec.erase, List.mem_filter, hR.members]
    constructor
    · rintro ⟨⟨i', j', b, e₀, hb, he₀, rfl, rfl⟩, hne⟩
      have hba : b ≠ a := by
        rintro rfl
        rw [Option.some.inj (he₀.symm.trans he), hk] at hne
        cases hne
      have h := hsame b hba
      rw [he₀] at h
      obtain ⟨e', he', hk', hv', -⟩ := h.exists
      exact ⟨i', j', b, e', (hmem i' j' b).2 ⟨hb, hba⟩, he', hk', hv'⟩
    · rintro ⟨i', j', b, e', hb, he', rfl, rfl⟩
      obtain ⟨hb, hba⟩ := (hmem i' j' b).1 hb
      obtain ⟨e₀, he₀, hk₀, hv₀, -⟩ := hback hba he'
      refine ⟨⟨i', j', b, e₀, hb, he₀, hk₀, hv₀⟩, ?_⟩
      rw [Bool.not_eq_true', Bool.eq_false_iff]
      intro hk'
      rw [← hk₀] at hk'
      exact hba (hR.eq_of_key hb ha he₀ he (BEq.trans hk' (BEq.symm hk)))
  · rw [hcount i']
    split_ifs with hi
    · subst hi
      have htot := A.total_set L (i := i') hjlt (pre ++ post)
      have hc := hR.count i'
      rw [hA] at htot
      simp only [List.length_append, List.length_cons] at htot
      omega
    · rw [A.total_set_of_ne L hi]
      exact hR.count i'
  · obtain ⟨B, hB⟩ := hR.bounded
    refine ⟨B, fun b hb ↦ ?_⟩
    have hba : b ≠ a := by
      rintro rfl
      rw [hB b hb] at he
      cases he
    have h := hsame b hba
    rw [hB b hb] at h
    exact Option.map_eq_none_iff.1 h

/-- `remove` erases the key and returns the value it had. -/
theorem remove_spec (hL : L.Valid) (hR : RepAt L s A l) (hf : ∀ i j, (A i j).length < fuel) :
    ∃ s' A', remove L fuel key s = some (s', Spec.lookup key l) ∧
      RepAt L s' A' (Spec.erase key l) := by
  rcases hR.lookup_cases key with ⟨pre, a, post, e, hA, he, hk, hfound, hmiss, hlook⟩ |
    ⟨hmiss, hlook⟩
  · set i := L.determineShard (hash key) with hi
    set j := L.getSlot (hash key) with hj
    have hchain := hR.chain i j
    have hlen := hf i j
    have hnd := hR.nodup i j
    rw [hA] at hchain hlen hnd
    have hfind := findPrev_eq_some 0 hchain hlen hmiss he hfound
    have ha : a ∈ A i j := by
      rw [hA]
      simp
    have hmid := List.nodup_cons.1 (List.nodup_middle.1 hnd)
    -- another chain has neither the cell nor the one before it
    have hother : ∀ i' j', ¬ (i' = i ∧ j' = j) → ∀ b ∈ A i j, b ∉ A i' j' := by
      intro i' j' hij b hb hb'
      exact hij (hR.disjoint hb' hb)
    rw [hlook]
    cases hlast : pre.getLast? with
    | none =>
      obtain rfl := List.getLast?_eq_none_iff.1 hlast
      rw [hlast] at hfind
      refine ⟨(s.setShard i
        { (s.shards i).setHead j e.next with count := (s.shards i).count - 1 }).setEntry a none,
        _, ?_, hR.unlink hL hA he hk (fun i' j' ↦ ?_) (fun b hb ↦ ?_) fun i' ↦
          count_setShard s i i' _⟩
      · simp only [remove, ← hi, ← hj, hfind, he, Option.getD_none, if_true]
      · rw [heap_setEntry]
        show Chain _ (((s.setShard i _).shards i').heads j') _
        rw [heads_setHead]
        split_ifs with hij
        · obtain ⟨rfl, rfl⟩ := hij
          rw [A.set_self]
          exact (Chain.after hchain he).update_of_notMem hmid.1 none
        · rw [A.set_of_ne _ (not_and_or.1 hij)]
          exact (hR.chain i' j').update_of_notMem (hother i' j' hij a ha) none
      · rw [heap_setEntry, Function.update_of_ne hb]
        rfl
    | some b =>
      rw [hlast] at hfind
      have hbpre : b ∈ pre := List.mem_of_getLast? hlast
      have hb : b ∈ A i j := by
        rw [hA]
        exact List.mem_append_left _ hbpre
      obtain ⟨hb0, eb, heb⟩ := (hR.chain i j).exists_of_mem hb
      have hab : b ≠ a := by
        rintro rfl
        exact hmid.1 (List.mem_append_left _ hbpre)
      refine ⟨((s.setEntry b (some { eb with next := e.next })).setShard i
        { s.shards i with count := (s.shards i).count - 1 }).setEntry a none,
        _, ?_, hR.unlink hL hA he hk (fun i' j' ↦ ?_) (fun c hc ↦ ?_) fun i' ↦
          count_setShard s i i' _⟩
      · simp only [remove, ← hi, ← hj, hfind, he, Option.getD_some, if_neg hb0, heb]
      · rw [heap_setEntry]
        have hheads : ((((s.setEntry b (some { eb with next := e.next })).setShard i
            { s.shards i with count := (s.shards i).count - 1 }).setEntry a none).shards i').heads
              j' =
            (s.shards i').heads j' := by
          by_cases hi' : i' = i
          · rw [hi']
            simp [Store.setShard, Store.setEntry]
          · simp [Store.setShard, Store.setEntry, hi']
        rw [hheads]
        by_cases hij : i' = i ∧ j' = j
        · obtain ⟨rfl, rfl⟩ := hij
          rw [A.set_self]
          exact (Chain.unlink hchain hnd he hlast heb).update_of_notMem hmid.1 none
        · rw [A.set_of_ne _ (not_and_or.1 hij)]
          exact ((hR.chain i' j').update_of_notMem (hother i' j' hij b hb) _).update_of_notMem
            (hother i' j' hij a ha) none
      · rw [heap_setEntry, Function.update_of_ne hc]
        show SameEntry (Function.update s.heap b _ c) _
        by_cases hcb : c = b
        · subst hcb
          rw [Function.update_self, heb]
          rfl
        · rw [Function.update_of_ne hcb]
          rfl
  · have hfind := findPrev_eq_none 0 (hR.chain _ _) (hf _ _) hmiss
    refine ⟨s, A, ?_, ?_⟩
    · simp only [remove, hfind, hlook]
    · have hsame : Spec.erase key l = l := by
        refine List.filter_eq_self.2 fun x hx ↦ ?_
        rw [Spec.lookup_eq_none_iff.1 hlook x hx]
        rfl
      rw [hsame]
      exact hR

/-! ### Reading and inserting

From the walk over one chain to the answer of the whole map. -/

/-- The walk of most operations finds the entry of the key, or the key is not in the map. -/
theorem lookup_spec (hR : RepAt L s A l) (hf : ∀ i j, (A i j).length < fuel) (key : K) :
    (∃ i j a e, lookup L fuel (hash key) key s = some (some a) ∧ a ∈ A i j ∧ s.heap a = some e ∧
      (e.key == key) = true ∧ Spec.lookup key l = some e.value) ∨
    (lookup L fuel (hash key) key s = some none ∧ Spec.lookup key l = none) := by
  rcases hR.lookup_cases key with ⟨pre, a, post, e, hA, he, hk, hfound, hmiss, hlook⟩ |
    ⟨hmiss, hlook⟩
  · left
    have hchain := hR.chain (L.determineShard (hash key)) (L.getSlot (hash key))
    have hlen := hf (L.determineShard (hash key)) (L.getSlot (hash key))
    rw [hA] at hchain hlen
    refine ⟨L.determineShard (hash key), L.getSlot (hash key), a, e,
      find_eq_some hchain hlen hmiss he hfound, ?_, he, hk, hlook⟩
    rw [hA]
    simp
  · exact Or.inr ⟨find_eq_none (hR.chain _ _) (hf _ _) hmiss, hlook⟩

/-- What the allocator promises: an address that is not null and not in use, as long as finitely
many are. -/
def Allocates (alloc : Mem (Entry K V) → ℕ) : Prop :=
  ∀ m, (∃ B, ∀ a, B ≤ a → m a = none) → alloc m ≠ 0 ∧ m (alloc m) = none

/-- `insert` puts the key and returns the value it had. -/
theorem insert_spec (hL : L.Valid) (hR : RepAt L s A l) (hf : ∀ i j, (A i j).length < fuel)
    {alloc : Mem (Entry K V) → ℕ} (halloc : Allocates alloc) (value : V) :
    ∃ s' A', insert L fuel alloc key value s = some (s', Spec.lookup key l) ∧
      RepAt L s' A' (Spec.put key value l) := by
  rcases lookup_spec hR hf key with ⟨i, j, a, e, hlk, ha, he, hk, hlook⟩ | ⟨hlk, hlook⟩
  · rw [Spec.put, hlook, Option.isSome_some, if_pos rfl]
    refine ⟨_, A, ?_, hR.setValue ha he hk fun _ ↦ value⟩
    simp only [insert, hlk, he]
  · obtain ⟨ha0, hfree⟩ := halloc s.heap hR.bounded
    rw [Spec.put, hlook, Option.isSome_none, if_neg (by simp)]
    refine ⟨_, _, ?_, hR.link hL hlook ha0 hfree value⟩
    simp only [insert, hlk]
    rfl

/-- `get_mut` updates the value of the key, if there is one. -/
theorem getMut_spec (hR : RepAt L s A l) (hf : ∀ i j, (A i j).length < fuel) (f : V → V) :
    ∃ s', getMut L fuel key f s = some (s', Spec.lookup key l) ∧
      RepAt L s' A (Spec.adjust key f l) := by
  rcases lookup_spec hR hf key with ⟨i, j, a, e, hlk, ha, he, hk, hlook⟩ | ⟨hlk, hlook⟩
  · refine ⟨_, ?_, hR.setValue ha he hk f⟩
    simp only [getMut, hlk, he, hlook]
  · refine ⟨s, by simp only [getMut, hlk, hlook], ?_⟩
    have hsame : Spec.adjust key f l = l := by
      refine (List.map_congr_left fun x hx ↦ ?_).trans (List.map_id l)
      rw [Spec.lookup_eq_none_iff.1 hlook x hx]
      rfl
    rw [hsame]
    exact hR

/-- `get` returns the value of the key. -/
theorem get_spec (hR : RepAt L s A l) (hf : ∀ i j, (A i j).length < fuel) :
    get L fuel key s = some (Spec.lookup key l) := by
  rcases lookup_spec hR hf key with ⟨i, j, a, e, hlk, ha, he, hk, hlook⟩ | ⟨hlk, hlook⟩
  · simp only [get, hlk, he, hlook, Option.map_some]
  · simp only [get, hlk, hlook]

/-- `contains_key` tells whether there is a value. -/
theorem containsKey_spec (hR : RepAt L s A l) (hf : ∀ i j, (A i j).length < fuel) :
    containsKey L fuel key s = some (Spec.lookup key l).isSome := by
  rcases lookup_spec hR hf key with ⟨i, j, a, e, hlk, ha, he, hk, hlook⟩ | ⟨hlk, hlook⟩
  · simp only [containsKey, hlk, hlook, Option.map_some, Option.isSome_some]
  · simp only [containsKey, hlk, hlook, Option.map_some, Option.isSome_none]

/-! ### Clearing

Shard by shard, with the detached chains forgotten by the representation before they are freed. -/

omit [BEq K] [EquivBEq K] [Hashable K] [LawfulHashable K] in
/-- `try_detach` takes out the chains of a shard and leaves every slot empty. -/
theorem tryDetach_eq {js : List ℕ} (hjs : js.Nodup)
    (hc : ∀ j ∈ js, Chain s.heap ((s.shards i).heads j) (A i j))
    (hf : ∀ j ∈ js, (A i j).length < fuel) :
    ∃ s', tryDetach fuel i js s = some (s', js.map (s.shards i).heads) ∧ s'.heap = s.heap ∧
      (∀ i', i' ≠ i → s'.shards i' = s.shards i') ∧
      (∀ j, (s'.shards i).heads j = if j ∈ js then 0 else (s.shards i).heads j) ∧
      (s'.shards i).count = (s.shards i).count - (js.map fun j ↦ (A i j).length).sum := by
  induction js generalizing s with
  | nil => exact ⟨s, rfl, rfl, fun _ _ ↦ rfl, fun _ ↦ by simp, by simp⟩
  | cons j js ih =>
    obtain ⟨hnot, hjs'⟩ := List.nodup_cons.1 hjs
    have hj : j ∈ j :: js := List.mem_cons_self ..
    have hlen : ((A i j).filterMap s.heap).length = (A i j).length := by
      refine (List.filterMap_length_eq_length).2 fun a ha ↦ ?_
      obtain ⟨-, n, hn⟩ := (hc j hj).exists_of_mem ha
      rw [hn]
      rfl
    set s₁ := s.setShard i { (s.shards i).setHead j 0 with
      count := (s.shards i).count - (A i j).length } with hs₁
    have hheads : ∀ j', (s₁.shards i).heads j' = if j' = j then 0 else (s.shards i).heads j' := by
      intro j'
      have := heads_setHead s i j 0 ((s.shards i).count - (A i j).length) i j'
      simpa using this
    have hcount : (s₁.shards i).count = (s.shards i).count - (A i j).length :=
      (count_setShard s i i _).trans (if_pos rfl)
    have hdetach : detachSlot fuel i j s = some (s₁, (s.shards i).heads j) := by
      simp only [detachSlot, cells_eq (hc j hj) (hf j hj), hlen]
      rfl
    have hne : ∀ j' ∈ js, j' ≠ j := fun j' hj' ↦ ne_of_mem_of_not_mem hj' hnot
    obtain ⟨s', hrun, hheap, hsh, hh, hcnt⟩ := ih (s := s₁) hjs'
      (fun j' hj' ↦ by
        rw [hheads, if_neg (hne j' hj')]
        exact hc j' (List.mem_cons_of_mem _ hj'))
      (fun j' hj' ↦ hf j' (List.mem_cons_of_mem _ hj'))
    refine ⟨s', ?_, hheap, fun i' hi' ↦ ?_, fun j' ↦ ?_, ?_⟩
    · rw [tryDetach, hdetach]
      simp only [hrun, Option.map_some, List.map_cons]
      refine congrArg (fun x ↦ some (s', (s.shards i).heads j :: x)) ?_
      exact List.map_congr_left fun j' hj' ↦ by rw [hheads, if_neg (hne j' hj')]
    · rw [hsh i' hi']
      exact Function.update_of_ne hi' _ _
    · rw [hh j', hheads j']
      by_cases hj' : j' = j
      · simp [hj']
      · simp [hj']
    · rw [hcnt, hcount, List.map_cons, List.sum_cons]
      omega

omit [BEq K] [EquivBEq K] [Hashable K] [LawfulHashable K] in
/-- Freeing the detached chains removes their entries from the memory and nothing else. -/
theorem dropChains_eq {heap : Mem (Entry K V)} {js : List ℕ} {p : ℕ → ℕ} {as : ℕ → List ℕ}
    (hc : ∀ j ∈ js, Chain heap (p j) (as j)) (hnd : (js.flatMap as).Nodup)
    (hf : ∀ j ∈ js, (as j).length < fuel) :
    dropChains fuel (js.map p) heap =
      some fun b ↦ if b ∈ js.flatMap as then none else heap b := by
  induction js generalizing heap with
  | nil => simp [dropChains]
  | cons j js ih =>
    rw [List.flatMap_cons, List.nodup_append] at hnd
    obtain ⟨hnd₁, hnd₂, hdis⟩ := hnd
    have hj : j ∈ j :: js := List.mem_cons_self ..
    have hfree := free_eq (hc j hj) hnd₁ (hf j hj)
    have hc' : ∀ j' ∈ js, Chain (fun b ↦ if b ∈ as j then none else heap b) (p j') (as j') := by
      intro j' hj'
      refine (hc j' (List.mem_cons_of_mem _ hj')).congr fun a ha ↦ ?_
      rw [if_neg]
      intro has
      exact hdis a has a (List.mem_flatMap.2 ⟨j', hj', ha⟩) rfl
    rw [List.map_cons, dropChains, hfree]
    simp only
    rw [ih hc' hnd₂ fun j' hj' ↦ hf j' (List.mem_cons_of_mem _ hj')]
    refine congrArg some (funext fun b ↦ ?_)
    simp only [List.flatMap_cons, List.mem_append]
    by_cases h₁ : b ∈ as j <;> by_cases h₂ : b ∈ js.flatMap as <;> simp [h₁, h₂]

/-- The chains of one shard are gone. -/
def Addresses.clear (A : Addresses) (i : ℕ) : Addresses := Function.update A i fun _ ↦ []

/-- Clearing a shard empties its slots and no others. -/
theorem Addresses.mem_clear {i' j' b : ℕ} : b ∈ A.clear i i' j' ↔ b ∈ A i' j' ∧ i' ≠ i := by
  unfold Addresses.clear
  by_cases hi : i' = i
  · subst hi
    simp
  · simp [hi]

omit [EquivBEq K] [LawfulHashable K] in
/-- Only the slots of the layout have entries. -/
theorem RepAt.slot_lt (hL : L.Valid) (hR : RepAt L s A l) (ha : a ∈ A i j) :
    i < L.shardAmount ∧ j < L.capacity := by
  obtain ⟨-, e, he⟩ := (hR.chain i j).exists_of_mem ha
  obtain ⟨-, rfl, rfl⟩ := hR.placed i j a e ha he
  exact ⟨hL.determineShard_lt _, hL.getSlot_lt _⟩

/-- One round of `clear`: a shard loses its entries. -/
theorem RepAt.clearShard (hL : L.Valid) (hR : RepAt L s A l) (hf : ∀ i j, (A i j).length < fuel)
    (i : ℕ) :
    ∃ s₁ heap, tryDetach fuel i (List.range L.capacity) s =
        some (s₁, (List.range L.capacity).map (s.shards i).heads) ∧
      dropChains fuel ((List.range L.capacity).map (s.shards i).heads) s₁.heap = some heap ∧
      RepAt L { s₁ with heap := heap } (A.clear i)
        (l.filter fun x ↦ L.determineShard (hash x.1) != i) := by
  obtain ⟨s₁, hdetach, hheap, hother, hheads, hcount⟩ := tryDetach_eq (i := i) (A := A)
    List.nodup_range (fun j _ ↦ hR.chain i j) (fun j _ ↦ hf i j)
  have hnd : ((List.range L.capacity).flatMap (A i)).Nodup := by
    refine List.pairwise_flatMap.2 ⟨fun j _ ↦ hR.nodup i j, ?_⟩
    refine (List.nodup_range).imp fun hne x hx y hy hxy ↦ hne ?_
    rw [← hxy] at hy
    exact (hR.disjoint hx hy).2
  have hdrop := dropChains_eq (fun j _ ↦ hR.chain i j) hnd (fun j _ ↦ hf i j)
  rw [← hheap] at hdrop
  refine ⟨s₁, _, hdetach, hdrop, ?_⟩
  -- what is freed is the old chains of this shard
  have hgone : ∀ b, b ∈ (List.range L.capacity).flatMap (A i) ↔ ∃ j, b ∈ A i j := by
    intro b
    rw [List.mem_flatMap]
    exact ⟨fun ⟨j, _, hb⟩ ↦ ⟨j, hb⟩,
      fun ⟨j, hb⟩ ↦ ⟨j, List.mem_range.2 (hR.slot_lt hL hb).2, hb⟩⟩
  have hkeep : ∀ {i' j' b}, i' ≠ i → b ∈ A i' j' →
      (if b ∈ (List.range L.capacity).flatMap (A i) then none else s₁.heap b) = s.heap b := by
    intro i' j' b hi hb
    rw [if_neg, hheap]
    rw [hgone]
    rintro ⟨j, hb'⟩
    exact hi (hR.disjoint hb hb').1
  refine ⟨fun i' j' ↦ ?_, fun i' j' ↦ ?_, ?_, ?_, fun k v ↦ ?_, List.Pairwise.filter _ hR.distinct,
    fun i' ↦ ?_, ?_⟩
  · by_cases hi : i' = i
    · subst hi
      show Chain _ ((s₁.shards i').heads j') _
      rw [hheads j', Addresses.clear, Function.update_self]
      split_ifs with hj
      · rfl
      · -- a slot outside the layout never had a chain
        refine (hR.chain i' j').null_iff.2 (List.eq_nil_iff_forall_not_mem.2 fun b hb ↦ hj ?_)
        exact List.mem_range.2 (hR.slot_lt hL hb).2
    · show Chain _ ((s₁.shards i').heads j') _
      rw [hother i' hi, Addresses.clear, Function.update_of_ne hi]
      exact (hR.chain i' j').congr fun b hb ↦ congrArg (Option.map next) (hkeep hi hb)
  · unfold Addresses.clear
    by_cases hi : i' = i
    · subst hi
      simp
    · rw [Function.update_of_ne hi]
      exact hR.nodup i' j'
  · intro i' j' b e hb he
    obtain ⟨hb, hi⟩ := Addresses.mem_clear.1 hb
    replace he := (hkeep hi hb).symm.trans he
    exact hR.placed i' j' b e hb he
  · intro i' j' b c eb ec hb hc heb hec hkey
    obtain ⟨hb, hi⟩ := Addresses.mem_clear.1 hb
    obtain ⟨hc, -⟩ := Addresses.mem_clear.1 hc
    replace heb := (hkeep hi hb).symm.trans heb
    replace hec := (hkeep hi hc).symm.trans hec
    exact hR.unique i' j' b c eb ec hb hc heb hec hkey
  · rw [List.mem_filter, hR.members]
    constructor
    · rintro ⟨⟨i', j', b, e, hb, he, rfl, rfl⟩, hne⟩
      obtain ⟨rfl, -, -⟩ := hR.home hb he (BEq.refl (a := e.key))
      have hi := bne_iff_ne.1 hne
      exact ⟨_, j', b, e, Addresses.mem_clear.2 ⟨hb, hi⟩, (hkeep hi hb).trans he, rfl, rfl⟩
    · rintro ⟨i', j', b, e, hb, he, rfl, rfl⟩
      obtain ⟨hb, hi⟩ := Addresses.mem_clear.1 hb
      replace he := (hkeep hi hb).symm.trans he
      obtain ⟨rfl, -, -⟩ := hR.home hb he (BEq.refl (a := e.key))
      exact ⟨⟨_, j', b, e, hb, he, rfl, rfl⟩, bne_iff_ne.2 hi⟩
  · show (s₁.shards i').count = _
    by_cases hi : i' = i
    · subst hi
      rw [hcount, hR.count i']
      unfold Addresses.total Addresses.clear
      simp
    · rw [hother i' hi, hR.count i']
      unfold Addresses.total Addresses.clear
      simp only [Function.update_of_ne hi]
  · obtain ⟨B, hB⟩ := hR.bounded
    refine ⟨B, fun b hb ↦ ?_⟩
    show (if _ then none else s₁.heap b) = none
    rw [hheap, hB b hb, ite_self]

/-- `clear` removes the keys of the shards it visits. -/
theorem clear_spec (hL : L.Valid) (hR : RepAt L s A l) (hf : ∀ i j, (A i j).length < fuel)
    (is : List ℕ) :
    ∃ s' A', clear L fuel is s = some s' ∧
      RepAt L s' A' (l.filter fun x ↦ !is.contains (L.determineShard (hash x.1))) := by
  induction is generalizing s A l with
  | nil => exact ⟨s, A, rfl, by simpa using hR⟩
  | cons i is ih =>
    obtain ⟨s₁, heap, hdetach, hdrop, hR'⟩ := hR.clearShard hL hf i
    have hf' : ∀ i' j', (A.clear i i' j').length < fuel := by
      intro i' j'
      unfold Addresses.clear
      by_cases hi : i' = i
      · subst hi
        rw [Function.update_self]
        exact Nat.zero_lt_of_lt (hf i' j')
      · rw [Function.update_of_ne hi]
        exact hf i' j'
    obtain ⟨s', A', hrun, hR''⟩ := ih hR' hf'
    refine ⟨s', A', ?_, ?_⟩
    · rw [clear, hdetach]
      simp only [hdrop]
      exact hrun
    · rw [List.filter_filter] at hR''
      convert hR'' using 2
      funext x
      rw [List.contains_cons, Bool.not_or, Bool.and_comm]
      rfl

/-! ### Listing

`as_vec` lists every pair once, in the order of the slots. -/

/-- The pairs in the chain of a slot. -/
def pairs (s : Store K V) (A : Addresses) (ij : ℕ × ℕ) : List (K × V) :=
  ((A ij.1 ij.2).filterMap s.heap).map fun e ↦ (e.key, e.value)

omit [EquivBEq K] [LawfulHashable K] in
/-- `as_vec` lists the chains of the slots it visits, one after the other. -/
theorem asVec_eq (hR : RepAt L s A l) (hf : ∀ i j, (A i j).length < fuel) (slots : List (ℕ × ℕ)) :
    asVec fuel s slots = some (slots.flatMap (pairs s A)) := by
  induction slots with
  | nil => rfl
  | cons ij slots ih =>
    obtain ⟨i, j⟩ := ij
    rw [asVec, cells_eq (hR.chain i j) (hf i j)]
    simp only [ih, Option.map_some, List.flatMap_cons]
    rfl

omit [BEq K] [EquivBEq K] [Hashable K] [LawfulHashable K] in
/-- A pair is listed when an entry of the chain holds it. -/
theorem mem_pairs {ij : ℕ × ℕ} {x : K × V} :
    x ∈ pairs s A ij ↔ ∃ a e, a ∈ A ij.1 ij.2 ∧ s.heap a = some e ∧ e.key = x.1 ∧
      e.value = x.2 := by
  simp only [pairs, List.mem_map, List.mem_filterMap]
  constructor
  · rintro ⟨e, ⟨a, ha, he⟩, rfl⟩
    exact ⟨a, e, ha, he, rfl, rfl⟩
  · rintro ⟨a, e, ha, he, hk, hv⟩
    exact ⟨e, ⟨a, ha, he⟩, Prod.ext hk hv⟩

omit [EquivBEq K] [LawfulHashable K] in
/-- The pairs of a chain have different keys. -/
theorem RepAt.distinct_pairs (hR : RepAt L s A l) (ij : ℕ × ℕ) : Spec.Distinct (pairs s A ij) := by
  refine List.pairwise_map.2 (List.pairwise_filterMap.2 ?_)
  refine List.Pairwise.imp_of_mem (fun ha hb hne ea hea eb heb ↦ ?_) (hR.nodup ij.1 ij.2)
  rw [Bool.eq_false_iff]
  exact fun hk ↦ hne (hR.unique ij.1 ij.2 _ _ ea eb ha hb hea heb hk)

/-- **`as_vec` lists every pair once.** -/
theorem RepAt.perm_slots (hL : L.Valid) (hR : RepAt L s A l) :
    (L.slots.flatMap (pairs s A)).Perm l := by
  have hnd : L.slots.Nodup := List.nodup_range.product List.nodup_range
  have hdist : Spec.Distinct (L.slots.flatMap (pairs s A)) := by
    refine List.pairwise_flatMap.2 ⟨fun ij _ ↦ hR.distinct_pairs ij, ?_⟩
    refine hnd.imp fun {ij ij'} hne x hx y hy ↦ ?_
    obtain ⟨a, ea, ha, hea, hka, -⟩ := mem_pairs.1 hx
    obtain ⟨b, eb, hb, heb, hkb, -⟩ := mem_pairs.1 hy
    rw [Bool.eq_false_iff]
    intro hk
    rw [← hka, ← hkb] at hk
    obtain rfl := hR.eq_of_key ha hb hea heb hk
    obtain ⟨h₁, h₂⟩ := hR.disjoint ha hb
    exact hne (Prod.ext h₁ h₂)
  refine (List.perm_ext_iff_of_nodup hdist.nodup hR.distinct.nodup).2 fun x ↦ ?_
  rw [List.mem_flatMap, show x ∈ l ↔ _ from hR.members x.1 x.2]
  constructor
  · rintro ⟨ij, -, hx⟩
    obtain ⟨a, e, ha, he, hk, hv⟩ := mem_pairs.1 hx
    exact ⟨ij.1, ij.2, a, e, ha, he, hk, hv⟩
  · rintro ⟨i, j, a, e, ha, he, hk, hv⟩
    obtain ⟨hi, hj⟩ := hR.slot_lt hL ha
    refine ⟨(i, j), ?_, mem_pairs.2 ⟨a, e, ha, he, hk, hv⟩⟩
    exact List.mem_flatMap.2 ⟨i, List.mem_range.2 hi, List.mem_map.2 ⟨j, List.mem_range.2 hj, rfl⟩⟩

omit [EquivBEq K] [LawfulHashable K] in
/-- A chain lists as many pairs as it has entries. -/
theorem RepAt.length_pairs (hR : RepAt L s A l) (ij : ℕ × ℕ) :
    (pairs s A ij).length = (A ij.1 ij.2).length := by
  rw [pairs, List.length_map]
  refine List.filterMap_length_eq_length.2 fun a ha ↦ ?_
  obtain ⟨-, n, hn⟩ := (hR.chain ij.1 ij.2).exists_of_mem ha
  rw [hn]
  rfl

/-- `len` is the number of keys. -/
theorem len_spec (hL : L.Valid) (hR : RepAt L s A l) : len L s = l.length := by
  rw [← (hR.perm_slots hL).length_eq, List.length_flatMap, Layout.slots, List.map_flatMap, len,
    List.flatMap_def, List.sum_flatten, List.map_map]
  refine congrArg List.sum (List.map_congr_left fun i _ ↦ ?_)
  rw [hR.count i, Addresses.total, Function.comp_apply, List.map_map]
  refine congrArg List.sum (List.map_congr_left fun j _ ↦ ?_)
  exact (hR.length_pairs (i, j)).symm

omit [LawfulHashable K] in
/-- No chain is longer than the map. -/
theorem RepAt.length_le (hR : RepAt L s A l) (i j : ℕ) : (A i j).length ≤ l.length := by
  rw [← hR.length_pairs (i, j)]
  refine (List.subperm_of_subset (hR.distinct_pairs (i, j)).nodup fun x hx ↦ ?_).length_le
  obtain ⟨a, e, ha, he, hk, hv⟩ := mem_pairs.1 hx
  exact (hR.members x.1 x.2).2 ⟨i, j, a, e, ha, he, hk, hv⟩

/-! ### Sequences of calls

The represented map is threaded through the calls, and the fuel that a call needs is bounded by the
number of keys, hence by the number of calls made so far. -/

/-- Results agree: they are equal, and a listing is one in some order. -/
def Result.Agrees : Result K V → Result K V → Prop
  | .entries l, .entries l' => l.Perm l'
  | r, r' => r = r'

/-- The allocator of an insertion keeps its promise. -/
def Cmd.Allocates : Cmd K V → Prop
  | .insert alloc _ _ => AtomicHashMap.Allocates alloc
  | _ => True

/-- **One call** returns what the finite map returns and leaves a store that represents the new
map. -/
theorem exec_spec (hL : L.Valid) (hR : RepAt L s A l) (hf : l.length < fuel) (cmd : Cmd K V)
    (halloc : cmd.Allocates) :
    ∃ s' r A', exec L fuel cmd s = some (s', r) ∧ r.Agrees (Spec.exec cmd l).2 ∧
      RepAt L s' A' (Spec.exec cmd l).1 := by
  have hf' : ∀ i j, (A i j).length < fuel := fun i j ↦ (hR.length_le i j).trans_lt hf
  cases cmd with
  | insert alloc key value =>
    obtain ⟨s', A', hrun, hR'⟩ := insert_spec hL hR hf' halloc value
    exact ⟨s', .value (Spec.lookup key l), A', by simp only [exec, hrun, Option.map_some], rfl, hR'⟩
  | get key =>
    exact ⟨s, .value (Spec.lookup key l), A, by simp only [exec, get_spec hR hf', Option.map_some],
      rfl, hR⟩
  | getMut key f =>
    obtain ⟨s', hrun, hR'⟩ := getMut_spec hR hf' f
    exact ⟨s', .value (Spec.lookup key l), A, by simp only [exec, hrun, Option.map_some], rfl, hR'⟩
  | remove key =>
    obtain ⟨s', A', hrun, hR'⟩ := remove_spec hL hR hf'
    exact ⟨s', .value (Spec.lookup key l), A', by simp only [exec, hrun, Option.map_some], rfl, hR'⟩
  | containsKey key =>
    exact ⟨s, .bool (Spec.lookup key l).isSome, A,
      by simp only [exec, containsKey_spec hR hf', Option.map_some], rfl, hR⟩
  | clear =>
    obtain ⟨s', A', hrun, hR'⟩ := clear_spec hL hR hf' (List.range L.shardAmount)
    refine ⟨s', .unit, A', by simp only [exec, hrun, Option.map_some], rfl, ?_⟩
    have hnil : (l.filter fun x ↦
        !(List.range L.shardAmount).contains (L.determineShard (hash x.1))) = [] := by
      refine List.filter_eq_nil_iff.2 fun x _ ↦ ?_
      simp [hL.determineShard_lt]
    rwa [hnil] at hR'
  | len => exact ⟨s, .len l.length, A, by rw [exec, len_spec hL hR], rfl, hR⟩
  | asVec =>
    exact ⟨s, .entries (L.slots.flatMap (pairs s A)), A,
      by simp only [exec, asVec_eq hR hf', Option.map_some], hR.perm_slots hL, hR⟩

omit [EquivBEq K] [Hashable K] [LawfulHashable K] in
/-- A call adds at most one key. -/
theorem Spec.length_exec (cmd : Cmd K V) (l : List (K × V)) :
    (Spec.exec cmd l).1.length ≤ l.length + 1 := by
  cases cmd with
  | insert alloc key value =>
    simp only [Spec.exec, Spec.put]
    split_ifs
    · rw [Spec.adjust, List.length_map]
      omega
    · simp
  | getMut key f =>
    simp only [Spec.exec, Spec.adjust, List.length_map]
    omega
  | remove key =>
    have := List.length_filter_le (fun e : K × V ↦ !(e.1 == key)) l
    simp only [Spec.exec, Spec.erase]
    omega
  | clear => simp [Spec.exec]
  | get | containsKey | len | asVec =>
    simp only [Spec.exec]
    omega

/-- **The induction over a sequence of calls**: each is answered as the list answers it, with fuel
to spare. -/
theorem run_spec (hL : L.Valid) (cmds : List (Cmd K V)) (halloc : ∀ cmd ∈ cmds, cmd.Allocates)
    (hR : RepAt L s A l) (hf : l.length + cmds.length ≤ fuel) :
    ∃ s' rs A', run L fuel cmds s = some (s', rs) ∧
      List.Forall₂ Result.Agrees rs (Spec.run cmds l).2 ∧ RepAt L s' A' (Spec.run cmds l).1 := by
  induction cmds generalizing s A l with
  | nil => exact ⟨s, [], A, rfl, .nil, hR⟩
  | cons cmd cmds ih =>
    rw [List.length_cons] at hf
    have hlt : l.length < fuel := by omega
    obtain ⟨s₁, r, A₁, hexec, hr, hR₁⟩ :=
      exec_spec hL hR hlt cmd (halloc cmd (List.mem_cons_self ..))
    have hlen := Spec.length_exec cmd l
    obtain ⟨s', rs, A', hrun, hrs, hR'⟩ :=
      ih (l := (Spec.exec cmd l).1) (fun c hc ↦ halloc c (List.mem_cons_of_mem _ hc)) hR₁ (by omega)
    refine ⟨s', r :: rs, A', ?_, .cons hr hrs, hR'⟩
    rw [run, hexec]
    simp only [hrun, Option.map_some]

omit [EquivBEq K] [LawfulHashable K] in
/-- The new map represents the empty map. -/
theorem new_rep : RepAt L (Store.new : Store K V) (fun _ _ ↦ []) [] where
  chain _ _ := rfl
  nodup _ _ := List.nodup_nil
  placed _ _ _ _ ha := absurd ha (List.not_mem_nil)
  unique _ _ _ _ _ _ ha := absurd ha (List.not_mem_nil)
  members _ _ := by simp
  distinct := .nil
  count _ := by simp [Addresses.total, Store.new]
  bounded := ⟨0, fun _ _ ↦ rfl⟩

/-- **`AtomicHashMap` refines a finite map.** For every layout the constructor accepts and every
sequence of calls, the calls return, with the results of the finite map; and the store they leave
represents the map they leave: each key has at most one entry, in the shard and the slot of its
hash, and each shard counts the entries of its chains. -/
theorem refines_finite_map {capacity shardAmount : UInt64}
    (hL : withCapacityHasherAndShardAmount capacity shardAmount = .ok L) (cmds : List (Cmd K V))
    (halloc : ∀ cmd ∈ cmds, cmd.Allocates) (hf : cmds.length ≤ fuel) :
    ∃ s rs A, run L fuel cmds Store.new = some (s, rs) ∧
      List.Forall₂ Result.Agrees rs (Spec.run cmds []).2 ∧ RepAt L s A (Spec.run cmds []).1 :=
  run_spec (valid_of_ok hL) cmds halloc new_rep (by simpa using hf)

/-- An allocator: some address that is not null and not in use. -/
noncomputable def someFree (m : Mem (Entry K V)) : ℕ :=
  Classical.epsilon fun a ↦ a ≠ 0 ∧ m a = none

omit [BEq K] [EquivBEq K] [Hashable K] [LawfulHashable K] in
/-- There is an allocator that behaves: the least free address. -/
theorem allocates_someFree : Allocates (someFree : Mem (Entry K V) → ℕ) := by
  rintro m ⟨B, hB⟩
  exact Classical.epsilon_spec (p := fun a ↦ a ≠ 0 ∧ m a = none)
    ⟨B + 1, Nat.succ_ne_zero B, hB _ (Nat.le_succ B)⟩

/-- Two keys that collide in the single slot of their shard, one of them overwritten and the other
one removed. -/
theorem refines_finite_map_collision :
    ∃ s rs A, run ⟨2, 1, 63⟩ 4
        [.insert someFree 0 5, .insert someFree 1 6, .insert someFree 0 7, .remove 1]
        (Store.new : Store ℕ ℕ) = some (s, rs) ∧
      List.Forall₂ Result.Agrees rs
        [.value none, .value none, .value (some 5), .value (some 6)] ∧
      RepAt ⟨2, 1, 63⟩ s A [(0, 7)] := by
  refine refines_finite_map
    (show withCapacityHasherAndShardAmount 1 2 = .ok ⟨2, 1, 63⟩ by decide) _ ?_ (by decide)
  intro cmd hcmd
  simp only [List.mem_cons, List.not_mem_nil, or_false] at hcmd
  rcases hcmd with rfl | rfl | rfl | rfl
  · exact allocates_someFree
  · exact allocates_someFree
  · exact allocates_someFree
  · trivial

end AtomicHashMap

end Crossync
