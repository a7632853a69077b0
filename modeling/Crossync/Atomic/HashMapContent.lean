import Crossync.Interleave.History
import Crossync.Atomic.HashMapShape

/-!
# What a shared `AtomicHashMap` contains

The finite map behind the chains, while calls are in the middle of them. A slot lists the keys and
values of its chain (`Lists`), and a key has the value that the slot of its hash lists (`Reads`).

## What takes effect

A call on a key takes effect at one access of its own, inside the critical section of its slot:
where it writes the value, stores the link or finds that there is nothing to do. `clear` takes
effect slot by slot, where it swaps the heads, and `as_vec` slot by slot, where it comes to the end
of a chain. `Act` are these effects with those of the accesses through guards, `apply` is what they
do to a finite map and what they tell, and `onCall` and `onExec` say at which steps they happen.

## Walks

A walk knows that the entries it has passed are not those of its key (`Walked`). So `insert` links a
new entry only into a chain without the key, the keys of a slot stay different, and the entry that
`remove` takes out is the only one of its key.

## What is compared

The map of the specification is a function from keys to optional values, presented as the lists of
the slots. `Reads` is the relation between the two, and it determines the answer to every lookup. So
a step has to say what the slots list after it, and `Follows` says that the list after is what the
effects of the step make of the list before.
-/

open Interleave Linked

namespace Crossync

namespace AtomicHashMap

/-! ### Lists of keys and values

Looking up, updating and erasing in a list of pairs, up to `==`. -/

namespace Spec

variable {K V : Type*} [BEq K] {k key : K} {v : V} {f : V → V} {l l' : List (K × V)}

theorem lookup_append : lookup k (l ++ l') = (lookup k l).or (lookup k l') := by
  simp only [lookup, List.find?_append]
  cases l.find? fun e ↦ e.1 == k <;> rfl

theorem lookup_cons : lookup k ((key, v) :: l) = if key == k then some v else lookup k l := by
  simp only [lookup, List.find?_cons]
  cases key == k <;> rfl

theorem adjust_cons : adjust key f ((k, v) :: l) = (k, if k == key then f v else v) ::
    adjust key f l := by
  cases hk : k == key <;> simp [adjust, hk]

theorem erase_cons : erase key ((k, v) :: l) = if k == key then erase key l else (k, v) ::
    erase key l := by
  cases hk : k == key <;> simp [erase, hk]

/-- After an update the key has the new value, and the other keys are as before. -/
theorem lookup_adjust [EquivBEq K] : lookup k (adjust key f l) = if k == key then (lookup k l).map f
    else lookup k l := by
  induction l with
  | nil => simp [lookup, adjust]
  | cons x l ih =>
    obtain ⟨k₀, v₀⟩ := x
    rw [adjust_cons, lookup_cons, lookup_cons, ih]
    cases hk : k₀ == k with
    | false => rfl
    | true =>
      -- the two keys are equal, so they are both equal to `key` or both not
      have hsame : (k₀ == key) = (k == key) := BEq.congr_left hk
      rw [hsame]
      cases k == key <;> rfl

/-- After an erasure the key is gone, and the other keys are as before. -/
theorem lookup_erase [EquivBEq K] : lookup k (erase key l) = if k == key then none
    else lookup k l := by
  induction l with
  | nil => simp [lookup, erase]
  | cons x l ih =>
    obtain ⟨k₀, v₀⟩ := x
    rw [erase_cons, lookup_cons]
    cases hk : k₀ == k with
    | false =>
      cases k₀ == key with
      | false => exact lookup_cons.trans ((if_neg (by simp [hk])).trans ih)
      | true => exact ih
    | true =>
      have hsame : (k₀ == key) = (k == key) := BEq.congr_left hk
      rw [hsame]
      cases hkey : k == key with
      | false => exact lookup_cons.trans (if_pos hk)
      | true =>
        rw [hkey] at ih
        exact ih

theorem adjust_append : adjust key f (l ++ l') = adjust key f l ++ adjust key f l' :=
  List.map_append

theorem adjust_of_ne (h : ∀ x ∈ l, (x.1 == key) = false) : adjust key f l = l :=
  (List.map_congr_left fun x hx ↦ by rw [h x hx]; rfl).trans (List.map_id _)

theorem erase_append : erase key (l ++ l') = erase key l ++ erase key l' := List.filter_append ..

theorem erase_of_ne (h : ∀ x ∈ l, (x.1 == key) = false) : erase key l = l :=
  List.filter_eq_self.2 fun x hx ↦ by rw [h x hx]; rfl

/-- Around an entry there is no other of its key. -/
theorem Distinct.around [EquivBEq K] {k₀ : K} (h : Distinct (l ++ (k₀, v) :: l'))
    (hk : (k₀ == key) = true) :
    (∀ x ∈ l, (x.1 == key) = false) ∧ ∀ x ∈ l', (x.1 == key) = false := by
  obtain ⟨-, hcons, hcross⟩ := List.pairwise_append.1 h
  obtain ⟨hright, -⟩ := List.pairwise_cons.1 hcons
  refine ⟨fun x hx ↦ ?_, fun x hx ↦ ?_⟩
  · rw [← BEq.congr_right hk]
    exact hcross x hx _ (List.mem_cons_self ..)
  · rw [← BEq.congr_right hk, BEq.comm]
    exact hright x hx

end Spec

section Keys

variable {K V : Type*} [BEq K] [Hashable K] {L : Layout}

/-- The shard and the slot of a key. -/
def Layout.home (L : Layout) (key : K) : ℕ × ℕ :=
  (L.determineShard (hash key), L.getSlot (hash key))

/-- Equal keys have one hash, hence one slot. -/
theorem Layout.home_eq [LawfulHashable K] {k key : K} (h : (k == key) = true) :
    L.home k = L.home key := by
  rw [Layout.home, Layout.home, hash_eq h]

end Keys

namespace Shared

/-- The key and the value of an entry. -/
def Pair {K V : Type*} (e : Entry K V) : K × V := (e.key, e.value)

/-- The keys and values of the entries at some addresses. -/
def pairs {K V : Type*} (heap : Mem (Entry K V)) (as : List ℕ) : List (K × V) :=
  as.filterMap fun a ↦ (heap a).map Pair

section Pairs

variable {K V : Type*} {heap heap' : Mem (Entry K V)} {as bs : List ℕ} {a : ℕ} {e : Entry K V}
  {x : K × V}

/-- What two parts of a chain list, one after the other. -/
theorem pairs_append : pairs heap (as ++ bs) = pairs heap as ++ pairs heap bs :=
  List.filterMap_append

theorem pairs_cons (he : heap a = some e) :
    pairs heap (a :: as) = (e.key, e.value) :: pairs heap as :=
  List.filterMap_cons_some (by rw [he]; rfl)

/-- A pair is listed when an entry of the chain holds it. -/
theorem mem_pairs : x ∈ pairs heap as ↔ ∃ a ∈ as, ∃ e, heap a = some e ∧ Pair e = x := by
  simp [pairs, List.mem_filterMap]

/-- What a chain lists depends on the pairs of its entries and not on their links. -/
theorem pairs_congr (h : ∀ a ∈ as, (heap' a).map Pair = (heap a).map Pair) :
    pairs heap' as = pairs heap as :=
  List.filterMap_congr h

/-- A chain lists the same in a memory that agrees on its entries. -/
theorem pairs_congr_heap (h : ∀ a ∈ as, heap' a = heap a) : pairs heap' as = pairs heap as :=
  pairs_congr fun a ha ↦ by rw [h a ha]

variable [BEq K] [EquivBEq K] {key : K}

/-- Where the keys are different, two addresses with the same key are one. -/
theorem eq_of_beq_key {b : ℕ} {f : Entry K V} (hd : Spec.Distinct (pairs heap as)) (ha : a ∈ as)
    (hb : b ∈ as) (he : heap a = some e) (hf : heap b = some f) (hk : (e.key == f.key) = true) :
    a = b := by
  by_contra hne
  have hpair : as.Pairwise fun c d ↦
      ∀ x, (heap c).map Pair = some x → ∀ y, (heap d).map Pair = some y → (x.1 == y.1) = false :=
    List.pairwise_filterMap.1 hd
  have : Std.Symm fun c d ↦
      ∀ x, (heap c).map Pair = some x → ∀ y, (heap d).map Pair = some y → (x.1 == y.1) = false :=
    ⟨fun c d h x hx y hy ↦ by rw [BEq.comm, h y hy x hx]⟩
  have hfalse := hpair.forall ha hb hne (Pair e) (by rw [he]; rfl) (Pair f) (by rw [hf]; rfl)
  rw [show ((Pair e).1 == (Pair f).1) = true from hk] at hfalse
  cases hfalse

/-- Writing the value of the entry of a key. -/
theorem pairs_setValue (hnd : as.Nodup) (ha : a ∈ as) (he : heap a = some e)
    (hk : (e.key == key) = true) (hd : Spec.Distinct (pairs heap as)) (v : V) :
    pairs (Function.update heap a (some { e with value := v })) as =
      Spec.adjust key (fun _ ↦ v) (pairs heap as) := by
  obtain ⟨pre, post, rfl⟩ := List.append_of_mem ha
  obtain ⟨-, hcons, hcross⟩ := List.nodup_append.1 hnd
  have hpre : ∀ b ∈ pre, b ≠ a := fun b hb ↦ hcross b hb a (List.mem_cons_self ..)
  have hpost : ∀ b ∈ post, b ≠ a := fun b hb ↦ ne_of_mem_of_not_mem hb (List.nodup_cons.1 hcons).1
  have hoff : ∀ {bs : List ℕ}, (∀ b ∈ bs, b ≠ a) →
      pairs (Function.update heap a (some { e with value := v })) bs = pairs heap bs := fun hbs ↦
    pairs_congr_heap fun b hb ↦ Function.update_of_ne (hbs b hb) _ _
  rw [pairs_append, pairs_cons he] at hd
  obtain ⟨hleft, hright⟩ := hd.around hk
  rw [pairs_append, pairs_cons (Function.update_self ..), hoff hpre, hoff hpost, pairs_append,
    pairs_cons he,
    Spec.adjust_append, Spec.adjust_of_ne hleft, Spec.adjust_cons, if_pos hk,
    Spec.adjust_of_ne hright]

/-- Taking out the entry of a key. -/
theorem pairs_erase {pre post : List ℕ} (he : heap a = some e) (hk : (e.key == key) = true)
    (hd : Spec.Distinct (pairs heap (pre ++ a :: post))) :
    pairs heap (pre ++ post) = Spec.erase key (pairs heap (pre ++ a :: post)) := by
  rw [pairs_append, pairs_cons he] at hd
  obtain ⟨hleft, hright⟩ := hd.around hk
  rw [pairs_append, pairs_append, pairs_cons he, Spec.erase_append, Spec.erase_of_ne hleft,
    Spec.erase_cons,
    if_pos hk, Spec.erase_of_ne hright]

variable [Hashable K] [LawfulHashable K]

omit [EquivBEq K] in
/-- A chain without hits of a walk is one without the key. -/
theorem misses_iff (hh : ∀ a ∈ as, ∀ e, heap a = some e → e.hash = hash e.key) :
    Misses (found (hash key) key) heap as ↔ ∀ x ∈ pairs heap as, (x.1 == key) = false := by
  constructor
  · intro h x hx
    obtain ⟨a, ha, e, he, rfl⟩ := mem_pairs.1 hx
    cases hk : e.key == key with
    | false => exact hk
    | true =>
      have hmiss := h a ha e he
      rw [found, hh a ha e he, hash_eq hk, hk] at hmiss
      simp at hmiss
  · intro h a ha e he
    have hk : (e.key == key) = false := h (Pair e) (mem_pairs.2 ⟨a, ha, e, he, rfl⟩)
    rw [found, hk, Bool.and_false]

end Pairs

/-! ### The finite map behind the chains

The slots list pairs, and a key is looked up in the list of its own slot. -/

section Lists

variable {ι K V : Type*} [BEq K] [Hashable K] {L : Layout}

variable (L) in
/-- **The slots list these keys and values**: each key at home, and none twice. -/
structure Lists (s : Store ι K V) (l : ℕ → ℕ → List (K × V)) : Prop where
  hashed : ∀ a e, s.heap a = some e → e.hash = hash e.key
  slot : ∀ i j, ∃ as, Chain s.heap (s.heads i j) as ∧ l i j = pairs s.heap as
  home : ∀ i j, ∀ x ∈ l i j, L.home x.1 = (i, j)
  distinct : ∀ i j, Spec.Distinct (l i j)

/-- A slot lists something else. -/
def setList (l : ℕ → ℕ → List (K × V)) (i j : ℕ) (x : List (K × V)) : ℕ → ℕ → List (K × V) :=
  fun i' j' ↦
  if i' = i ∧ j' = j then x else l i' j'

/-- The chain of a slot and its entries are as before. -/
def Kept (s s' : Store ι K V) (i j : ℕ) : Prop :=
  s'.heads i j = s.heads i j ∧ ∀ as, Chain s.heap (s.heads i j) as → ∀ a ∈ as, s'.heap a = s.heap a

variable {s s' : Store ι K V} {l : ℕ → ℕ → List (K × V)} {i j : ℕ} {as : List ℕ}

omit [BEq K] [Hashable K] in
/-- A step that keeps a slot keeps its chain, with all entries. -/
theorem Kept.chain (h : Kept s s' i j) (hc : Chain s.heap (s.heads i j) as) :
    Chain s'.heap (s'.heads i j) as ∧ ∀ a ∈ as, s'.heap a = s.heap a := by
  refine ⟨?_, h.2 as hc⟩
  rw [h.1]
  exact hc.congr fun a ha ↦ by rw [h.2 as hc a ha]

/-- What a chain lists. -/
theorem Lists.eq_pairs (h : Lists L s l) (hc : Chain s.heap (s.heads i j) as) :
    l i j = pairs s.heap as := by
  obtain ⟨bs, hbs, hl⟩ := h.slot i j
  rw [hl, hbs.unique hc]

/-- A step that leaves the chains alone. -/
theorem Lists.kept (h : Lists L s l) (hh : ∀ a e, s'.heap a = some e → e.hash = hash e.key)
    (hk : ∀ i j, Kept s s' i j) : Lists L s' l := by
  refine ⟨hh, fun i j ↦ ?_, h.home, h.distinct⟩
  obtain ⟨as, has, hl⟩ := h.slot i j
  obtain ⟨hc, hheap⟩ := (hk i j).chain has
  exact ⟨as, hc, hl.trans (pairs_congr_heap hheap).symm⟩

/-- **A step that changes one slot.** -/
theorem Lists.change (h : Lists L s l) (hh : ∀ a e, s'.heap a = some e → e.hash = hash e.key)
    (hk : ∀ i' j', ¬ (i' = i ∧ j' = j) → Kept s s' i' j') (hc : Chain s'.heap (s'.heads i j) as)
    (hhome : ∀ x ∈ pairs s'.heap as, L.home x.1 = (i, j)) (hd : Spec.Distinct (pairs s'.heap as)) :
    Lists L s' (setList l i j (pairs s'.heap as)) := by
  refine ⟨hh, fun i' j' ↦ ?_, fun i' j' ↦ ?_, fun i' j' ↦ ?_⟩ <;> rw [setList]
  · split_ifs with hij
    · obtain ⟨rfl, rfl⟩ := hij
      exact ⟨as, hc, rfl⟩
    · obtain ⟨bs, hbs, hl⟩ := h.slot i' j'
      obtain ⟨hc', hheap⟩ := (hk i' j' hij).chain hbs
      exact ⟨bs, hc', hl.trans (pairs_congr_heap hheap).symm⟩
  · split_ifs with hij
    · obtain ⟨rfl, rfl⟩ := hij
      exact hhome
    · exact h.home i' j'
  · split_ifs
    · exact hd
    · exact h.distinct i' j'

/-! ### What takes effect

An effect is an access together with what it tells its caller. Reading, writing and removing take
effect once a call; `clear` and `as_vec` once for each slot, since they visit the slots one after
the other and release each before or after the others as the code does. -/

/-- What takes effect at one access. -/
inductive Act (K V : Type*) where
  | insert (key : K) (value : V)
  | remove (key : K)
  | containsKey (key : K)
  /-- `get` or `get_mut` finds the key, or does not. -/
  | get (key : K)
  /-- A guard is read, or written through. -/
  | read (key : K)
  | write (key : K) (value : V)
  /-- `clear` takes out what is in a slot. -/
  | evict (slot : ℕ × ℕ)
  /-- `as_vec` copies what is in a slot. -/
  | collect (slot : ℕ × ℕ)

/-- What an effect tells. -/
inductive Told (K V : Type*) where
  | unit
  | value (o : Option V)
  | bool (b : Bool)
  /-- The keys of a slot, with their values. -/
  | content (m : K → Option V)

/-- A key gets a value, or loses it. -/
def put (key : K) (o : Option V) (m : K → Option V) : K → Option V :=
  fun k ↦ if k == key then o else m k

variable (L) in
/-- What an effect does to the finite map, and what it tells. -/
def apply (act : Act K V) (m : K → Option V) : Told K V × (K → Option V) :=
  match act with
  | .insert key value => (.value (m key), put key (some value) m)
  | .remove key => (.value (m key), put key none m)
  | .containsKey key | .get key => (.bool (m key).isSome, m)
  | .read key => (.value (m key), m)
  | .write key value => (.bool (m key).isSome, put key (some value) m)
  | .evict slot => (.unit, fun k ↦ if L.home k = slot then none else m k)
  | .collect slot => (.content fun k ↦ if L.home k = slot then m k else none, m)

/-- What the visit of a call does. -/
def Visit.act (v : Visit K V) : Act K V :=
  match v.job with
  | .insert key value => .insert key value
  | .remove key => .remove key
  | .containsKey key => .containsKey key
  | .get key | .getMut key => .get key
  | .asVec => .collect (v.shard, v.slot)

variable (L) in
/-- What a list of keys and values says about a slot. -/
def contentAt (slot : ℕ × ℕ) (x : List (K × V)) : K → Option V := fun k ↦
  if L.home k = slot then Spec.lookup k x else none

variable (L) in
/-- What a visit is told that is to return `r`. -/
def Visit.told (v : Visit K V) : Ret ι K V → Told K V
  | .value o => .value o
  | .bool b => .bool b
  | .absent => .bool false
  | _ => .content (contentAt L (v.shard, v.slot) v.seen)

/-- An effect of a thread. -/
abbrev Effect (ι K V : Type*) := Occurrence ι (Act K V) (Told K V)

variable (L) in
/-- What an access of a walk settles: that the slot guard can be dropped, or that it goes to a
returned guard. -/
def settled (t : ι) (v : Visit K V) : Outcome (Pc ι K V) (Ret ι K V) → List (Effect ι K V)
  | .goto (.slot _ (.unlocked v' r)) => [⟨t, v'.act, v'.told L r⟩]
  | .goto (.shard _ (.guard _)) => [⟨t, v.act, .bool true⟩]
  | _ => []

variable (L) in
/-- What takes effect at an access. -/
def onExec (t : ι) (p : Pc ι K V) (s : Store ι K V) (o : Outcome (Pc ι K V) (Ret ι K V)) :
    List (Effect ι K V) :=
  match p with
  | .loadHead v | .walk v _ _ | .replace v _ _ => settled L t v o
  | .linkEntry v _ => [⟨t, v.act, .value none⟩]
  | .unlinkStore v _ cur _ => [⟨t, v.act, .value ((s.heap cur).map Entry.value)⟩]
  | .detachSwap i j _ => [⟨t, .evict (i, j), .unit⟩]
  | _ => []

/-- What takes effect at the start of a call: an access through a guard. -/
def onCall (t : ι) (op : Op ι K V) (s : Store ι K V) (_ : Outcome (Pc ι K V) (Ret ι K V)) :
    List (Effect ι K V) :=
  match op with
  | .deref g => ((s.heap g.entry).map fun e ↦ ⟨t, .read e.key, .value (some e.value)⟩).toList
  | .write g v => ((s.heap g.entry).map fun e ↦ ⟨t, .write e.key v, .bool true⟩).toList
  | _ => []

variable (L) in
/-- The finite map has at every key what the slot of the key lists. -/
def Reads (m : K → Option V) (l : ℕ → ℕ → List (K × V)) : Prop :=
  ∀ k, m k = Spec.lookup k (l (L.home k).1 (L.home k).2)

variable (L) in
/-- **What the slots list follows the finite map** through these effects, which are told what they
have to be. -/
def Follows (l l' : ℕ → ℕ → List (K × V)) (es : List (Effect ι K V)) : Prop :=
  ∀ m, Reads L m l → Legal (apply L) m es ∧ Reads L (final (apply L) m es) l'

/-- A step without effects leaves the map as it is. -/
theorem Follows.nil : Follows L l l ([] : List (Effect ι K V)) := fun _ hm ↦ ⟨trivial, hm⟩

/-- A step with one effect does to the map what that effect says. -/
theorem Follows.one {l' : ℕ → ℕ → List (K × V)} {e : Effect ι K V}
    (h : ∀ m, Reads L m l → (apply L e.op m).1 = e.result ∧ Reads L (apply L e.op m).2 l') :
    Follows L l l' [e] := fun m hm ↦ ⟨⟨(h m hm).1, trivial⟩, (h m hm).2⟩

/-- The finite map changes in one slot. -/
theorem Reads.change {m m' : K → Option V} {x : List (K × V)} (h : Reads L m l)
    (hin : ∀ k, L.home k = (i, j) → m' k = Spec.lookup k x)
    (hout : ∀ k, L.home k ≠ (i, j) → m' k = m k) :
    Reads L m' (setList l i j x) := by
  intro k
  by_cases hk : L.home k = (i, j)
  · rw [hin k hk, setList, hk, if_pos ⟨rfl, rfl⟩]
  · rw [hout k hk, h k, setList, if_neg fun hij ↦ hk (Prod.ext hij.1 hij.2)]

/-- A key gets a value, or loses it. -/
theorem Reads.put [LawfulHashable K] {m : K → Option V} {x : List (K × V)} {key : K} {o : Option V}
    (h : Reads L m l) (hhome : L.home key = (i, j))
    (hx : ∀ k, Spec.lookup k x = if k == key then o else Spec.lookup k (l i j)) :
    Reads L (Shared.put key o m) (setList l i j x) := by
  refine h.change (fun k hk ↦ ?_) fun k hk ↦ ?_
  · rw [hx k, Shared.put, h k, hk]
  · refine if_neg fun hkey ↦ hk ?_
    rw [Layout.home_eq hkey, hhome]

end Lists

/-! ### What a call knows

Between the access that found or missed its key and the one that acts on it, a call holds the lock
of its slot. So what it found is still true when it acts. -/

section Informed

variable {ι K V : Type*} [BEq K] [Hashable K] {L : Layout}

/-- One slot comes before another in the order of the loops of `as_vec`. -/
def Before (x y : ℕ × ℕ) : Prop := x.1 < y.1 ∨ x.1 = y.1 ∧ x.2 < y.2

/-- A slot does not come before itself. -/
theorem Before.ne {x y : ℕ × ℕ} (h : Before x y) : x ≠ y := by
  rintro rfl
  obtain h | ⟨-, h⟩ := h
  · exact absurd h (lt_irrefl _)
  · exact absurd h (lt_irrefl _)

/-- What comes before a slot comes before the next one. -/
theorem Before.succ {x : ℕ × ℕ} {i j : ℕ} (h : Before x (i, j)) : Before x (i, j + 1) :=
  h.imp_right fun h ↦ ⟨h.1, Nat.lt_succ_of_lt h.2⟩

variable (L) in
/-- A call on a key visits the slot of the key. -/
def Visit.Routed (v : Visit K V) : Prop :=
  match v.job with
  | .insert key _ | .remove key | .containsKey key | .get key
  | .getMut key => L.home key = (v.shard, v.slot)
  | .asVec => True

variable (L) in
/-- A visit that is to look into its slot: what it has collected is from slots before. -/
structure Visit.Ready (v : Visit K V) : Prop where
  routed : v.Routed L
  seen : ∀ x ∈ v.seen, Before (L.home x.1) (v.shard, v.slot)
  distinct : Spec.Distinct v.seen

variable (L) in
/-- **A walk has passed the entries `pre`**: none of them is the one it looks for, and `as_vec` has
collected them. -/
structure Walked (heap : Mem (Entry K V)) (v : Visit K V) (pre : List ℕ) : Prop where
  routed : v.Routed L
  misses : Misses v.job.finds heap pre
  seen : ∀ x ∈ v.seen, Before (L.home x.1) (v.shard, v.slot + 1)
  gathered : v.job = .asVec → ∀ k, L.home k = (v.shard, v.slot) →
    Spec.lookup k v.seen = Spec.lookup k (pairs heap pre)
  distinct : Spec.Distinct v.seen

/-- An entry of the key is linked at an address of the slot. -/
def Has (s : Store ι K V) (i j a : ℕ) (key : K) : Prop :=
  ∃ as e, Chain s.heap (s.heads i j) as ∧ a ∈ as ∧ s.heap a = some e ∧ (e.key == key) = true

/-- No entry of the key is linked in the slot. -/
def Lacks (s : Store ι K V) (i j : ℕ) (key : K) : Prop :=
  ∃ as, Chain s.heap (s.heads i j) as ∧ ∀ x ∈ pairs s.heap as, (x.1 == key) = false

variable (L) in
/-- What the caller of a shard lock has collected. -/
def After.Informed : After ι K V → Prop
  | .visit v => v.Routed L ∧ (∀ x ∈ v.seen, (L.home x.1).1 < v.shard) ∧ Spec.Distinct v.seen
  | .nextShard i seen => (∀ x ∈ seen, (L.home x.1).1 ≤ i) ∧ Spec.Distinct seen
  | _ => True

variable (L) in
/-- What the caller of a slot mutex has collected. -/
def Next.Informed : Next ι K V → Prop
  | .locked v => v.Ready L
  | .unlocked v _ =>
    v.job = .asVec → (∀ x ∈ v.seen, Before (L.home x.1) (v.shard, v.slot + 1)) ∧
      Spec.Distinct v.seen
  | _ => True

variable (L) in
/-- **What a call knows** about the entries of its slot. -/
def Pc.Informed (s : Store ι K V) : Pc ι K V → Prop
  | .shard _ k => k.Informed L
  | .slot _ k => k.Informed L
  | .loadHead v => v.Ready L
  | .walk v _ cur =>
    ∃ pre post, Chain s.heap (s.heads v.shard v.slot) (pre ++ cur :: post) ∧ Walked L s.heap v pre
  | .replace v cur value =>
    ∃ key, v.job = .insert key value ∧ L.home key = (v.shard, v.slot) ∧ Has s v.shard v.slot cur key
  | .newEntry v key value =>
    v.job = .insert key value ∧ L.home key = (v.shard, v.slot) ∧ Lacks s v.shard v.slot key
  | .linkEntry v entry =>
    ∃ key value n, v.job = .insert key value ∧ L.home key = (v.shard, v.slot) ∧
      Lacks s v.shard v.slot key ∧
      s.heap entry = some ⟨key, value, hash key, n⟩
  | .unlinkLoad v _ cur | .unlinkStore v _ cur _ =>
    ∃ key, v.job = .remove key ∧ L.home key = (v.shard, v.slot) ∧ Has s v.shard v.slot cur key
  | _ => True

section Frame

variable {s s' : Store ι K V} {i j a : ℕ} {key : K} {u : ι}

omit [Hashable K] in
/-- An entry of a key stays where it is when its slot is kept. -/
theorem Has.kept (h : Has s i j a key) (hk : Kept s s' i j) : Has s' i j a key := by
  obtain ⟨as, e, hc, ha, he, hkey⟩ := h
  obtain ⟨hc', hheap⟩ := hk.chain hc
  exact ⟨as, e, hc', ha, (hheap a ha).trans he, hkey⟩

omit [Hashable K] in
/-- A slot without a key stays without it when it is kept. -/
theorem Lacks.kept (h : Lacks s i j key) (hk : Kept s s' i j) : Lacks s' i j key := by
  obtain ⟨as, hc, hkey⟩ := h
  obtain ⟨hc', hheap⟩ := hk.chain hc
  exact ⟨as, hc', (pairs_congr_heap hheap).symm ▸ hkey⟩

theorem Walked.congr {heap heap' : Mem (Entry K V)} {v : Visit K V} {pre : List ℕ}
    (h : Walked L heap v pre) (hheap : ∀ a ∈ pre, heap' a = heap a) : Walked L heap' v pre where
  routed := h.routed
  misses a ha e he := h.misses a ha e ((hheap a ha).symm.trans he)
  seen := h.seen
  gathered hjob k hk := (h.gathered hjob k hk).trans (by rw [pairs_congr_heap hheap])
  distinct := h.distinct

/-- **Frame.** What a call knows depends on the slots it holds, and on the entry it is about to
link. -/
theorem Pc.Informed.frame {p : Pc ι K V} (h : p.Informed L s)
    (hslot : ∀ x ∈ p.hands L u, Kept s s' x.shard x.slot)
    (hown : ∀ v entry, p = .linkEntry v entry → s'.heap entry = s.heap entry) :
    p.Informed L s' := by
  have hvisit : ∀ v : Visit K V, v.hold u ∈ p.hands L u → Kept s s' v.shard v.slot :=
    fun v hv ↦ hslot _ hv
  cases p with
  | walk v prev cur =>
    obtain ⟨pre, post, hc, hw⟩ := h
    obtain ⟨hc', hheap⟩ := (hvisit v (List.mem_cons_self ..)).chain hc
    exact ⟨pre, post, hc', hw.congr fun a ha ↦ hheap a (List.mem_append_left _ ha)⟩
  | replace v cur value =>
    obtain ⟨key, hjob, hhome, hhas⟩ := h
    exact ⟨key, hjob, hhome, hhas.kept (hvisit v (List.mem_cons_self ..))⟩
  | newEntry v key value =>
    obtain ⟨hjob, hhome, hlacks⟩ := h
    exact ⟨hjob, hhome, hlacks.kept (hvisit v (List.mem_cons_self ..))⟩
  | linkEntry v entry =>
    obtain ⟨key, value, n, hjob, hhome, hlacks, he⟩ := h
    exact ⟨key, value, n, hjob, hhome, hlacks.kept (hvisit v (List.mem_cons_self ..)),
      (hown v entry rfl).trans he⟩
  | unlinkLoad v prev cur | unlinkStore v prev cur next =>
    obtain ⟨key, hjob, hhome, hhas⟩ := h
    exact ⟨key, hjob, hhome, hhas.kept (hvisit v (List.mem_cons_self ..))⟩
  | _ => exact h

end Frame

section Lookup

variable [EquivBEq K] {s : Store ι K V} {l : ℕ → ℕ → List (K × V)} {i j a : ℕ} {key : K}

/-- The entry of a key has its value. -/
theorem Has.lookup (h : Has s i j a key) (hl : Lists L s l) :
    ∃ e, s.heap a = some e ∧ Spec.lookup key (l i j) = some e.value := by
  obtain ⟨as, e, hc, ha, he, hk⟩ := h
  refine ⟨e, he, (Spec.lookup_eq_some_iff (hl.distinct i j)).2 ⟨e.key, ?_, hk⟩⟩
  rw [hl.eq_pairs hc]
  exact mem_pairs.2 ⟨a, ha, e, he, rfl⟩

omit [EquivBEq K] in
/-- A slot without a key answers `none` for it. -/
theorem Lacks.lookup (h : Lacks s i j key) (hl : Lists L s l) : Spec.lookup key (l i j) = none := by
  obtain ⟨as, hc, hk⟩ := h
  rw [hl.eq_pairs hc]
  exact Spec.lookup_eq_none_iff.2 hk

end Lookup

end Informed

/-! ### Walks

What a walk knows about the entries it has passed, and what that says about its key at the end. -/

section Walks

variable {ι K V : Type*} [BEq K] [Hashable K] {L : Layout} {s : Store ι K V}
  {l : ℕ → ℕ → List (K × V)} {t : ι} {v : Visit K V} {pre post as : List ℕ} {prev cur : ℕ}
  {e : Entry K V} {key : K}

/-- The walk passes an entry. -/
theorem Walked.pass (h : Walked L s.heap v pre) (he : s.heap cur = some e)
    (hf : ¬ v.job.finds e = true) (hhome : L.home e.key = (v.shard, v.slot))
    (hnew : ∀ x ∈ pairs s.heap pre, (x.1 == e.key) = false) :
    Walked L s.heap (v.see e) (pre ++ [cur]) := by
  have hmisses : Misses v.job.finds s.heap (pre ++ [cur]) := by
    intro a ha n hn
    rcases List.mem_append.1 ha with ha | ha
    · exact h.misses a ha n hn
    · rw [List.mem_singleton.1 ha, he] at hn
      exact Bool.eq_false_iff.2 (Option.some.inj hn ▸ hf)
  obtain ⟨job, i, j, seen⟩ := v
  cases job with
  | asVec =>
    refine ⟨trivial, hmisses, fun x hx ↦ ?_, fun _ k hk ↦ ?_, ?_⟩
    · rcases List.mem_append.1 hx with hx | hx
      · exact h.seen x hx
      · rw [List.mem_singleton.1 hx]
        show Before (L.home e.key) (i, j + 1)
        rw [hhome]
        exact Or.inr ⟨rfl, Nat.lt_succ_self j⟩
    · show Spec.lookup k (seen ++ [(e.key, e.value)]) = _
      rw [Spec.lookup_append, h.gathered rfl k hk, pairs_append, Spec.lookup_append, pairs_cons he]
      rfl
    · -- the key is not among those collected from this slot, and the others are from other slots
      have hnone : Spec.lookup e.key seen = none :=
        (h.gathered rfl e.key hhome).trans (Spec.lookup_eq_none_iff.2 hnew)
      refine List.pairwise_append.2 ⟨h.distinct, List.pairwise_singleton _ _, fun x hx y hy ↦ ?_⟩
      rw [List.mem_singleton.1 hy]
      exact Spec.lookup_eq_none_iff.1 hnone x hx
  | _ => exact ⟨h.routed, hmisses, h.seen, by rintro ⟨⟩, h.distinct⟩

variable [EquivBEq K] [LawfulHashable K]

omit [EquivBEq K] in
/-- A walk that has passed the whole chain proves that the key is not there. -/
theorem Walked.lacks (h : Walked L s.heap v as) (hc : Chain s.heap (s.heads v.shard v.slot) as)
    (hl : Lists L s l) (hjob : v.job.finds = found (hash key) key) : Lacks s v.shard v.slot key :=
  ⟨as, hc, (misses_iff fun a _ ↦ hl.hashed a).1 (hjob ▸ h.misses)⟩

omit [EquivBEq K] in
/-- The walk has come to the end of the chain. -/
theorem informed_missing (h : Walked L s.heap v as) (hc : Chain s.heap (s.heads v.shard v.slot) as)
    (hl : Lists L s l) : (missing t v).Informed L s := by
  obtain ⟨job, i, j, seen⟩ := v
  cases job with
  | insert key value => exact ⟨rfl, h.routed, h.lacks hc hl rfl⟩
  | asVec => exact fun _ ↦ ⟨h.seen, h.distinct⟩
  | _ => exact fun hjob ↦ by cases hjob

theorem follows_missing (h : Walked L s.heap v as) (hc : Chain s.heap (s.heads v.shard v.slot) as)
    (hl : Lists L s l) (v₀ : Visit K V) : Follows L l l (settled L t v₀ (.goto (missing t v))) := by
  have hnone : ∀ {key m}, v.job.finds = found (hash key) key → L.home key = (v.shard, v.slot) →
    Reads L m l →
      m key = none := by
    intro key m hjob hhome hm
    rw [hm key, hhome]
    exact (h.lacks hc hl hjob).lookup hl
  obtain ⟨job, i, j, seen⟩ := v
  cases job with
  | insert key value => exact .nil
  | remove key =>
    refine .one fun m hm ↦ ⟨congrArg Told.value (hnone rfl h.routed hm), fun k ↦ ?_⟩
    show (if k == key then none else m k) = _
    cases hk : k == key with
    | false => exact hm k
    | true =>
      rw [← hm k, hm k, Layout.home_eq hk, h.routed]
      exact ((Spec.lookup_eq_none_iff.2 fun x hx ↦ by
        rw [BEq.congr_right hk]
        exact Spec.lookup_eq_none_iff.1 ((h.lacks hc hl rfl).lookup hl) x hx)).symm
  | containsKey key | get key | getMut key =>
    refine .one fun m hm ↦ ⟨?_, hm⟩
    show Told.bool (m key).isSome = _
    rw [hnone rfl h.routed hm]
    rfl
  | asVec =>
    refine .one fun m hm ↦ ⟨congrArg Told.content (funext fun k ↦ ?_), hm⟩
    show (if L.home k = (i, j) then m k else none) = if L.home k =
      (i, j) then Spec.lookup k seen else none
    split_ifs with hk
    · rw [hm k, hk, hl.eq_pairs hc]
      exact (h.gathered rfl k hk).symm
    · rfl

omit [EquivBEq K] in
/-- The walk goes on. -/
theorem informed_walkNext (h : Walked L s.heap v pre)
    (hc : Chain s.heap (s.heads v.shard v.slot) (pre ++ post)) (hcur : Chain s.heap cur post)
    (hl : Lists L s l) : (walkNext t v prev cur).Informed L s := by
  unfold walkNext
  split_ifs with h0
  · obtain rfl : post = [] := hcur.null_iff.1 h0
    rw [List.append_nil] at hc
    exact informed_missing h hc hl
  · cases post with
    | nil => exact absurd hcur h0
    | cons a post =>
      obtain ⟨rfl, -⟩ := hcur
      exact ⟨pre, post, hc, h⟩

theorem follows_walkNext (h : Walked L s.heap v pre)
    (hc : Chain s.heap (s.heads v.shard v.slot) (pre ++ post)) (hcur : Chain s.heap cur post)
    (hl : Lists L s l) (v₀ : Visit K V) :
    Follows L l l (settled L t v₀ (.goto (walkNext t v prev cur))) := by
  unfold walkNext
  split_ifs with h0
  · obtain rfl : post = [] := hcur.null_iff.1 h0
    rw [List.append_nil] at hc
    exact follows_missing h hc hl v₀
  · exact .nil

omit [EquivBEq K] [LawfulHashable K] in
/-- The walk has found the entry of its key. -/
theorem has_of_finds (hc : Chain s.heap (s.heads v.shard v.slot) (pre ++ cur :: post))
    (he : s.heap cur = some e) (hf : found (hash key) key e = true) :
    Has s v.shard v.slot cur key :=
  ⟨_, e, hc, List.mem_append_right _ (List.mem_cons_self ..), he, (Bool.and_eq_true_iff.1 hf).2⟩

omit [EquivBEq K] [LawfulHashable K] in
theorem informed_hit (h : Walked L s.heap v pre)
    (hc : Chain s.heap (s.heads v.shard v.slot) (pre ++ cur :: post)) (he : s.heap cur = some e)
    (hf : v.job.finds e = true) : (hit t v prev cur).Informed L s := by
  obtain ⟨job, i, j, seen⟩ := v
  cases job with
  | insert key value => exact ⟨key, rfl, h.routed, has_of_finds hc he hf⟩
  | remove key => exact ⟨key, rfl, h.routed, has_of_finds hc he hf⟩
  | containsKey key => exact fun hjob ↦ by cases hjob
  | get key | getMut key => trivial
  | asVec => cases hf

omit [LawfulHashable K] in
theorem follows_hit (h : Walked L s.heap v pre)
    (hc : Chain s.heap (s.heads v.shard v.slot) (pre ++ cur :: post)) (he : s.heap cur = some e)
    (hf : v.job.finds e = true) (hl : Lists L s l) :
    Follows L l l (settled L t v (.goto (hit t v prev cur))) := by
  have hsome : ∀ {key m}, v.job.finds = found (hash key) key → L.home key = (v.shard, v.slot) →
    Reads L m l →
      (m key).isSome = true := by
    intro key m hjob hhome hm
    obtain ⟨e', -, hlookup⟩ := (has_of_finds hc he (hjob ▸ hf)).lookup hl
    rw [hm key, hhome, hlookup]
    rfl
  obtain ⟨job, i, j, seen⟩ := v
  cases job with
  | insert key value => exact .nil
  | remove key => exact .nil
  | containsKey key | get key | getMut key => exact .one fun m hm ↦
    ⟨congrArg Told.bool (hsome rfl h.routed hm), hm⟩
  | asVec => cases hf

end Walks

end Shared

end AtomicHashMap

end Crossync
