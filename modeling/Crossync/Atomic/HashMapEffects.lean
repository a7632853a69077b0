import Crossync.Atomic.HashMapGuards
import Crossync.Atomic.HashMapContent

/-!
# Every step of a shared `AtomicHashMap` does to its content what it is said to do

The steps of the map, one by one, against the finite map behind the chains. `Settles` is what a step
leaves: the slots list keys and values again, these follow the effects of the step, and the call
that made it knows at its next program point what it has to. Most steps leave the chains alone. Five
change one: the value of an entry is written by `insert` or through a guard, a new entry is linked,
an entry is unlinked, a head is swapped.

A call of another thread keeps what it knows because the step of `t` is in slots that `t` holds for
writing.

## From effects to the history

A step contributes a list of effects, mostly empty. `Settles` relates the lists of the slots before
and after it by these effects, and `Pc.Informed` is what the call knows that makes the next effect
the right one: a walk that has passed some entries knows that none of them is of its key, and a call
that found an entry knows which one it is.

The five steps that change a chain need both. The others need that nothing they touch is listed.
-/

open Interleave Linked

namespace Crossync

namespace AtomicHashMap

namespace Shared

variable {ι K V : Type*} [BEq K] [Hashable K] {L : Layout}

/-! ### What a step leaves

The three statements that every step has to give: what the slots list, that it follows the effects,
and what the call knows next. -/

section Settles

variable {s s' : Store ι K V} {l : ℕ → ℕ → List (K × V)} {o : Outcome (Pc ι K V) (Ret ι K V)}
  {es : List (Effect ι K V)} {q : Pc ι K V} {i j : ℕ}

variable (L) in
/-- **What a step leaves**: lists that follow its effects, and a call that knows what it has to. -/
def Settles (l : ℕ → ℕ → List (K × V)) (s' : Store ι K V) (o : Outcome (Pc ι K V) (Ret ι K V))
    (es : List (Effect ι K V)) : Prop :=
  ∃ l', Lists L s' l' ∧ Follows L l l' es ∧ ∀ q, o.pc = some q → q.Informed L s'

omit [BEq K] [Hashable K] in
theorem Kept.same (hheap : s'.heap = s.heap) (hheads : s'.heads = s.heads) : Kept s s' i j :=
  ⟨congrFun (congrFun hheads i) j, fun _ _ a _ ↦ congrFun hheap a⟩

theorem Lists.same (h : Lists L s l) (hheap : s'.heap = s.heap) (hheads : s'.heads = s.heads) :
    Lists L s' l :=
  h.kept (hheap ▸ h.hashed) fun _ _ ↦ .same hheap hheads

theorem Pc.Informed.same (h : q.Informed L s) (hheap : s'.heap = s.heap)
    (hheads : s'.heads = s.heads) (u : ι) :
    q.Informed L s' :=
  h.frame (u := u) (fun _ _ ↦ .same hheap hheads) fun _ _ _ ↦ congrFun hheap _

/-- A step that leaves entries and heads alone, and has no effect. -/
theorem Settles.same (h : Lists L s l) (hheap : s'.heap = s.heap) (hheads : s'.heads = s.heads)
    (hq : ∀ q, o.pc = some q → q.Informed L s') : Settles L l s' o [] :=
  ⟨l, h.same hheap hheads, .nil, hq⟩

/-- A step that only looks. -/
theorem Settles.look (h : Lists L s l) (hq : q.Informed L s) (hf : Follows L l l es) :
    Settles L l s (.goto q) es := by
  refine ⟨l, h, hf, ?_⟩
  rintro _ ⟨⟩
  exact hq

/-- The hashes of the entries are right when one of them is written. -/
theorem Lists.hashed_setEntry (h : Lists L s l) {a : ℕ} {x : Option (Entry K V)}
    (hx : ∀ e, x = some e → e.hash = hash e.key) :
    ∀ b e, (s.setEntry a x).heap b = some e → e.hash = hash e.key := by
  intro b e he
  by_cases hb : b = a
  · subst hb
    rw [setEntry_self] at he
    exact hx e he
  · rw [setEntry_of_ne s x hb] at he
    exact h.hashed b e he

end Settles

/-! ### Walks begin

The lock of the slot has been acquired and nothing is passed yet. -/

section Places

variable {s : Store ι K V} {v : Visit K V} {t : ι} {i j : ℕ} {seen : List (K × V)}

/-- A walk at the head of its slot has passed nothing. -/
theorem Visit.Ready.walked [LawfulHashable K] (h : v.Ready L) : Walked L s.heap v [] where
  routed := h.routed
  misses _ ha := by cases ha
  seen x hx := (h.seen x hx).succ
  gathered _ k hk := by
    refine Spec.lookup_eq_none_iff.2 fun x hx ↦ ?_
    -- what was collected is from other slots
    refine Bool.eq_false_iff.2 fun hkey ↦ (h.seen x hx).ne ?_
    rw [Layout.home_eq hkey, hk]
  distinct := h.distinct

/-- A call that has its slot for writing is not `as_vec`. -/
theorem informed_unlock (hr : v.job.reads = false) (r : Ret ι K V) :
    (unlock t v r).Informed L s := by
  intro hjob
  rw [hjob] at hr
  cases hr

/-- `as_vec` goes on at a slot. -/
theorem informed_visitNext (h : ∀ x ∈ seen, Before (L.home x.1) (i, j)) (hd : Spec.Distinct seen) :
    (visitNext L i j seen : Pc ι K V).Informed L s := by
  unfold visitNext
  split_ifs
  · exact ⟨trivial, h, hd⟩
  · exact ⟨fun x hx ↦ (h x hx).elim le_of_lt fun hij ↦ le_of_eq hij.1, hd⟩

theorem informed_visited (r : Ret ι K V)
    (h : v.job = .asVec → (∀ x ∈ v.seen, Before (L.home x.1) (v.shard, v.slot + 1)) ∧
      Spec.Distinct v.seen) :
    (visited L v r).Informed L s := by
  unfold visited
  split
  · rename_i hjob
    exact informed_visitNext (h hjob).1 (h hjob).2
  · trivial

theorem informed_visit (hr : v.Routed L) (hs : ∀ x ∈ v.seen, (L.home x.1).1 < v.shard)
    (hd : Spec.Distinct v.seen) : (visit L v : Pc ι K V).Informed L s := by
  unfold visit
  split
  · exact informed_visitNext (fun x hx ↦ Or.inl (hs x hx)) hd
  · exact ⟨hr, fun x hx ↦ Or.inl (hs x hx), hd⟩

theorem informed_asVecNext (h : ∀ x ∈ seen, (L.home x.1).1 < i) (hd : Spec.Distinct seen) :
    ∀ q, (asVecNext L i seen : Outcome (Pc ι K V) (Ret ι K V)).pc = some q → q.Informed L s := by
  unfold asVecNext
  split_ifs
  · rintro _ ⟨⟩
    exact ⟨trivial, h, hd⟩
  · rintro _ ⟨⟩

theorem informed_backOutNext (n : ℕ) (b : Bool) :
    (backOutNext t i j n b : Pc ι K V).Informed L s := by
  unfold backOutNext
  split_ifs <;> trivial

theorem informed_releaseNext (chains : List ℕ) :
    (releaseNext L t i j chains : Pc ι K V).Informed L s := by
  unfold releaseNext
  split_ifs <;> trivial

theorem informed_swapNext (chains : List ℕ) :
    (swapNext L t i j chains : Pc ι K V).Informed L s := by
  unfold swapNext
  split_ifs
  · trivial
  · exact informed_releaseNext chains

theorem informed_detachNext : (detachNext L t i j : Pc ι K V).Informed L s := by
  unfold detachNext
  split_ifs
  · trivial
  · exact informed_swapNext _

theorem informed_countNext (chains : List ℕ) (chain cur count : ℕ) :
    (countNext i j chains chain cur count : Pc ι K V).Informed L s := by
  unfold countNext
  split_ifs <;> trivial

theorem informed_inspectNext : (inspectNext L i j : Pc ι K V).Informed L s := by
  unfold inspectNext
  split_ifs <;> trivial

theorem informed_clearNext :
    ∀ q, (clearNext L i : Outcome (Pc ι K V) (Ret ι K V)).pc = some q → q.Informed L s := by
  unfold clearNext
  split_ifs
  · rintro _ ⟨⟩
    trivial
  · rintro _ ⟨⟩

theorem informed_lenNext (n : ℤ) :
    ∀ q, (lenNext L i n : Outcome (Pc ι K V) (Ret ι K V)).pc = some q → q.Informed L s := by
  unfold lenNext
  split_ifs
  · rintro _ ⟨⟩
    trivial
  · rintro _ ⟨⟩

/-- The caller of a shard lock goes on. -/
theorem informed_resume [DecidableEq ι] {k : After ι K V} (hk : k.Informed L) (r : RawMutex.Ret)
    {s₀ : Store ι K V} :
    ∀ q, (resume L t s₀ k r).2.pc = some q → q.Informed L s := by
  unfold resume
  split
  case h_1 v => exact fun q hq ↦ Option.some.inj hq ▸ informed_visit hk.1 hk.2.1 hk.2.2
  case h_2 i seen => exact informed_asVecNext (fun x hx ↦ Nat.lt_succ_of_le (hk.1 x hx)) hk.2
  case h_4 => exact informed_lenNext _
  case h_7 => exact fun q hq ↦ Option.some.inj hq ▸ informed_detachNext
  case h_9 => exact fun q hq ↦ Option.some.inj hq ▸ informed_inspectNext
  all_goals rintro _ ⟨⟩
  all_goals trivial

/-- The caller of a slot mutex goes on. -/
theorem informed_resumeSlot {k : Next ι K V} (hk : k.Informed L) (r : SerialMutex.Ret)
    {s₀ : Store ι K V} :
    ∀ q, (resumeSlot L t s₀ k r).2.pc = some q → q.Informed L s := by
  unfold resumeSlot
  split
  case h_1 v _ => exact fun q hq ↦ Option.some.inj hq ▸ hk
  case h_3 v r => exact fun q hq ↦ Option.some.inj hq ▸ informed_visited r hk
  case h_7 => exact fun q hq ↦ Option.some.inj hq ▸ informed_detachNext
  case h_9 => exact fun q hq ↦ Option.some.inj hq ▸ informed_backOutNext _ _
  case h_10 => exact fun q hq ↦ Option.some.inj hq ▸ informed_releaseNext _
  all_goals rintro _ ⟨⟩
  all_goals trivial

end Places

/-! ### The steps that change a chain

One lemma for each of the five. Everything else about a step is that it is none of them. -/

section Changes

variable {c : Config ι (Store ι K V) (Pc ι K V)} {A : Regions ι} {E : ℕ → ℕ → ℕ} {s' : Store ι K V}
  {l : ℕ → ℕ → List (K × V)} {i j a : ℕ} {as : List ℕ} {e : Entry K V} {key : K} {value : V} {t : ι}

omit [BEq K] [Hashable K] in
/-- A slot whose head and entries are as before. -/
theorem Shape.kept (h : Shape L c A E) (hheads : s'.heads i j = c.shared.heads i j)
    (hheap : ∀ a ∈ A (.slot i j), s'.heap a = c.shared.heap a) : Kept c.shared s' i j := by
  refine ⟨hheads, fun as has a ha ↦ hheap a ?_⟩
  rwa [(h.chain i j).unique has]

omit [BEq K] [Hashable K] in
/-- An entry that is in no chain is written or freed. -/
theorem Shape.kept_setEntry {r : Region ι} (h : Shape L c A E)
    (hr : a ∈ A r ∨ c.shared.heap a = none) (hne : ∀ i j, r ≠ .slot i j) (x : Option (Entry K V))
    (i j : ℕ) :
    Kept c.shared (c.shared.setEntry a x) i j :=
  h.kept rfl fun _ hb ↦ h.heap_setEntry hb (hr.imp_left fun ha ↦ ⟨r, hne i j, ha⟩)

omit [BEq K] [Hashable K] in
/-- The head of a slot is written. -/
theorem Shape.kept_setHead (h : Shape L c A E) (p : ℕ) {i' j' : ℕ} (hij : ¬ (i' = i ∧ j' = j)) :
    Kept c.shared (c.shared.setHead i j p) i' j' :=
  h.kept (setHead_of_ne _ _ hij) fun _ _ ↦ rfl

omit [BEq K] [Hashable K] in
/-- An entry of one slot is written. -/
theorem Shape.kept_setEntry_of_ne (h : Shape L c A E) (ha : a ∈ A (.slot i j))
    (x : Option (Entry K V)) {i' j' : ℕ} (hij : ¬ (i' = i ∧ j' = j)) :
    Kept c.shared (c.shared.setEntry a x) i' j' := by
  refine h.kept rfl fun b hb ↦ h.heap_setEntry hb (Or.inl ⟨_, fun hr ↦ hij ?_, ha⟩)
  obtain ⟨rfl, rfl⟩ := Region.slot.inj hr
  exact ⟨rfl, rfl⟩

/-- What the chain of a slot lists. -/
theorem Shape.lists (h : Shape L c A E) (hl : Lists L c.shared l) (i j : ℕ) :
    l i j = pairs c.shared.heap (A (.slot i j)) := hl.eq_pairs (h.chain i j)

omit [Hashable K] in
/-- An entry that is linked in a slot. -/
theorem Has.mem (h : Has c.shared i j a key) (hs : Shape L c A E) :
    a ∈ A (.slot i j) ∧ ∃ e, c.shared.heap a = some e ∧ (e.key == key) = true := by
  obtain ⟨as, e, hc, ha, he, hk⟩ := h
  rw [(hs.chain i j).unique hc]
  exact ⟨ha, e, he, hk⟩

variable [EquivBEq K] [LawfulHashable K]

omit [EquivBEq K] in
/-- A key that a slot lists is at home in it. -/
theorem Lists.home_of_beq {s : Store ι K V} {x : K × V} (h : Lists L s l) (hx : x ∈ l i j)
    (hk : (x.1 == key) = true) : L.home key = (i, j) := by
  rw [← Layout.home_eq hk]
  exact h.home i j x hx

/-- A linked entry has its value in the finite map. -/
theorem Reads.entry {m : K → Option V} (hm : Reads L m l) (hl : Lists L c.shared l)
    (h : Shape L c A E) (ha : a ∈ A (.slot i j)) (he : c.shared.heap a = some e) :
    m e.key = some e.value := by
  have hmem : (e.key, e.value) ∈ l i j := by
    rw [h.lists hl]
    exact mem_pairs.2 ⟨a, ha, e, he, rfl⟩
  have hhome := hl.home_of_beq hmem (BEq.refl e.key)
  rw [hm e.key, hhome]
  exact (Spec.lookup_eq_some_iff (hl.distinct i j)).2 ⟨e.key, hmem, BEq.refl e.key⟩

/-- **The value of an entry is written.** -/
theorem Lists.setValue (hl : Lists L c.shared l) (h : Shape L c A E) (ha : a ∈ A (.slot i j))
    (he : c.shared.heap a = some e) (hk : (e.key == key) = true) (v : V) :
    Lists L (c.shared.setEntry a (some { e with value := v }))
        (setList l i j (Spec.adjust key (fun _ ↦ v) (l i j))) ∧
      ∀ m, Reads L m l → Reads L (put key (some v) m)
        (setList l i j (Spec.adjust key (fun _ ↦ v) (l i j))) := by
  have hd := hl.distinct i j
  rw [h.lists hl] at hd
  have hpairs : Spec.adjust key (fun _ ↦ v) (l i j) =
      pairs (c.shared.setEntry a (some { e with value := v })).heap (A (.slot i j)) := by
    rw [h.lists hl]
    exact (pairs_setValue (h.nodup _) ha he hk hd v).symm
  have hmem : (e.key, e.value) ∈ l i j := by
    rw [h.lists hl]
    exact mem_pairs.2 ⟨a, ha, e, he, rfl⟩
  have hhome := hl.home_of_beq hmem hk
  refine ⟨?_, fun m hm ↦ hm.put hhome fun k ↦ ?_⟩
  · rw [hpairs]
    refine hl.change (hl.hashed_setEntry ?_) (fun i' j' hij ↦ h.kept_setEntry_of_ne ha _ hij)
      ((h.chain i j).update_of_next he rfl) ?_ ?_
    · rintro _ ⟨⟩
      exact hl.hashed a e he
    · rw [← hpairs]
      rintro ⟨k, w⟩ hx
      obtain ⟨w', hx', -⟩ := Spec.mem_adjust.1 hx
      exact hl.home i j (k, w') hx'
    · rw [← hpairs]
      exact (hl.distinct i j).adjust
  · rw [Spec.lookup_adjust]
    cases hkey : k == key with
    | false => rfl
    | true =>
      have hlookup : Spec.lookup k (l i j) = some e.value :=
        (Spec.lookup_eq_some_iff (hl.distinct i j)).2 ⟨e.key, hmem, BEq.trans hk (BEq.symm hkey)⟩
      rw [if_pos rfl, if_pos rfl, hlookup]
      rfl

/-- **A chain loses the entry of a key.** -/
theorem Lists.unlink {pre post : List ℕ} (hl : Lists L c.shared l) (h : Shape L c A E)
    (hA : A (.slot i j) = pre ++ a :: post) (he : c.shared.heap a = some e)
    (hk : (e.key == key) = true) (hhash : ∀ b n, s'.heap b = some n → n.hash = hash n.key)
    (hkept : ∀ i' j', ¬ (i' = i ∧ j' = j) → Kept c.shared s' i' j')
    (hc : Chain s'.heap (s'.heads i j) (pre ++ post))
    (hpair : ∀ b, (s'.heap b).map Pair = (c.shared.heap b).map Pair) :
    Lists L s' (setList l i j (Spec.erase key (l i j))) ∧
      ∀ m, Reads L m l → Reads L (put key none m) (setList l i j (Spec.erase key (l i j))) := by
  have hd := hl.distinct i j
  rw [h.lists hl, hA] at hd
  have hpairs : Spec.erase key (l i j) = pairs s'.heap (pre ++ post) := by
    rw [h.lists hl, hA, ← pairs_erase he hk hd]
    exact (pairs_congr fun b _ ↦ hpair b).symm
  have hmem : (e.key, e.value) ∈ l i j := by
    rw [h.lists hl]
    exact mem_pairs.2 ⟨a, by simp [hA], e, he, rfl⟩
  have hhome := hl.home_of_beq hmem hk
  refine ⟨?_, fun m hm ↦ hm.put hhome fun k ↦ Spec.lookup_erase⟩
  rw [hpairs]
  refine hl.change hhash hkept hc ?_ ?_
  · rw [← hpairs]
    exact fun x hx ↦ hl.home i j x (List.mem_of_mem_filter hx)
  · rw [← hpairs]
    exact (hl.distinct i j).erase

/-- `insert` on a key that is there. -/
theorem settles_replace {v : Visit K V} {cur : ℕ} (hl : Lists L c.shared l) (h : Shape L c A E)
    (hf : (Pc.replace v cur value : Pc ι K V).Fits L)
    (hp : (Pc.replace v cur value : Pc ι K V).Informed L c.shared)
    (he : c.shared.heap cur = some e) :
    Settles L l (c.shared.setEntry cur (some { e with value := value }))
      (.goto (unlock t v (.value (some e.value))))
      [⟨t, v.act, .value (some e.value)⟩] := by
  obtain ⟨key, hjob, hhome, hhas⟩ := hp
  obtain ⟨hmem, e', he', hk⟩ := hhas.mem h
  obtain rfl := Option.some.inj (he.symm.trans he')
  obtain ⟨hlists, hreads⟩ := hl.setValue h hmem he hk value
  obtain ⟨e', he', hlookup⟩ := hhas.lookup hl
  obtain rfl := Option.some.inj (he.symm.trans he')
  have hact : v.act = .insert key value := by rw [Visit.act, hjob]
  refine ⟨_, hlists, .one fun m hm ↦ ?_, ?_⟩
  · rw [hact]
    refine ⟨congrArg Told.value ?_, hreads m hm⟩
    rw [hm key, hhome, hlookup]
  · rintro _ ⟨⟩
    exact informed_unlock hf.mutates _

/-- `insert` links a new entry. -/
theorem settles_linkEntry {v : Visit K V} {entry : ℕ} (hl : Lists L c.shared l) (h : Shape L c A E)
    (hpc : c.pcs t = some (.linkEntry v entry))
    (hp : (Pc.linkEntry v entry : Pc ι K V).Informed L c.shared) :
    Settles L l (c.shared.setHead v.shard v.slot entry) (.goto (.countUp v))
      [⟨t, v.act, .value none⟩] := by
  obtain ⟨key, value, n, hjob, hhome, hlacks, he⟩ := hp
  obtain ⟨hown, hne, e, he', hnext⟩ := h.here t _ hpc
  obtain rfl := Option.some.inj (he.symm.trans he')
  have hact : v.act = .insert key value := by rw [Visit.act, hjob]
  have hpairs : pairs c.shared.heap (entry :: A (.slot v.shard v.slot)) = (key, value) ::
      l v.shard v.slot := by
    rw [pairs_cons he, h.lists hl]
  have hnone := hlacks.lookup hl
  have hchain : Chain (c.shared.setHead v.shard v.slot entry).heap
      ((c.shared.setHead v.shard v.slot entry).heads v.shard v.slot)
        (entry :: A (.slot v.shard v.slot)) := by
    rw [setHead_self]
    refine ⟨rfl, hne, _, he, ?_⟩
    rw [show next _ = c.shared.heads v.shard v.slot from hnext]
    exact h.chain _ _
  refine ⟨_, hl.change hl.hashed (fun _ _ hij ↦ h.kept_setHead _ hij) hchain ?_ ?_,
    .one fun m hm ↦ ?_, ?_⟩
  · rintro x hx
    obtain rfl | hx := List.mem_cons.1 (hpairs ▸ hx)
    · exact hhome
    · exact hl.home _ _ x hx
  · show Spec.Distinct (pairs c.shared.heap _)
    rw [hpairs]
    refine List.pairwise_cons.2 ⟨fun x hx ↦ ?_, hl.distinct _ _⟩
    rw [BEq.comm]
    exact Spec.lookup_eq_none_iff.1 hnone x hx
  · rw [hact]
    refine ⟨congrArg Told.value ?_, hm.put hhome fun k ↦ ?_⟩
    · rw [hm key, hhome, hnone]
    · show Spec.lookup k (pairs c.shared.heap _) = _
      rw [hpairs, Spec.lookup_cons, BEq.comm]
  · rintro _ ⟨⟩
    trivial

/-- `remove` unlinks the entry of its key. -/
theorem settles_unlink {v : Visit K V} {pre post : List ℕ} {prev cur next : ℕ}
    (hl : Lists L c.shared l) (h : Shape L c A E)
    (hp : (Pc.unlinkStore v prev cur next : Pc ι K V).Informed L c.shared)
    (hA : A (.slot v.shard v.slot) = pre ++ cur :: post)
    (hhash : ∀ b n, s'.heap b = some n → n.hash = hash n.key)
    (hkept : ∀ i' j', ¬ (i' = v.shard ∧ j' = v.slot) → Kept c.shared s' i' j')
    (hc : Chain s'.heap (s'.heads v.shard v.slot) (pre ++ post))
    (hpair : ∀ b, (s'.heap b).map Pair = (c.shared.heap b).map Pair) :
    Settles L l s' (.goto (.countDown v cur))
      [⟨t, v.act, .value ((c.shared.heap cur).map Entry.value)⟩] := by
  obtain ⟨key, hjob, hhome, hhas⟩ := hp
  obtain ⟨-, e, he, hk⟩ := hhas.mem h
  obtain ⟨e', he', hlookup⟩ := hhas.lookup hl
  obtain rfl := Option.some.inj (he.symm.trans he')
  obtain ⟨hlists, hreads⟩ := hl.unlink h hA he hk hhash hkept hc hpair
  have hact : v.act = .remove key := by rw [Visit.act, hjob]
  refine ⟨_, hlists, .one fun m hm ↦ ?_, ?_⟩
  · rw [hact, he]
    refine ⟨congrArg Told.value ?_, hreads m hm⟩
    rw [hm key, hhome, hlookup]
    rfl
  · rintro _ ⟨⟩
    trivial

omit [BEq K] [Hashable K] [EquivBEq K] [LawfulHashable K] in
/-- A chain whose first entry has nothing before it starts with that entry. -/
theorem At.head {m : Mem (Entry K V)} {p cur : ℕ} (h : At as 0 cur) (hc : Chain m p as) :
    ∃ post, as = cur :: post := by
  obtain ⟨pre, post, rfl, hprev⟩ := h
  cases hlast : pre.getLast? with
  | none =>
    obtain rfl := List.getLast?_eq_none_iff.1 hlast
    exact ⟨post, rfl⟩
  | some b =>
    rw [hlast, Option.getD_some] at hprev
    exact absurd hprev.symm
      (hc.exists_of_mem (List.mem_append_left _ (List.mem_of_getLast? hlast))).1

/-- `remove` of the first entry of a chain erases its key. -/
theorem settles_unlinkHead {v : Visit K V} {cur next : ℕ} (hl : Lists L c.shared l)
    (h : Shape L c A E) (hpc : c.pcs t = some (.unlinkStore v 0 cur next))
    (hp : (Pc.unlinkStore v 0 cur next : Pc ι K V).Informed L c.shared) :
    Settles L l (c.shared.setHead v.shard v.slot next) (.goto (.countDown v cur))
      [⟨t, v.act, .value ((c.shared.heap cur).map Entry.value)⟩] := by
  obtain ⟨-, hat, e, he, rfl⟩ := h.here t _ hpc
  have hchain := h.chain v.shard v.slot
  obtain ⟨post, hA⟩ := hat.head hchain
  have hsplit : A (.slot v.shard v.slot) = [] ++ cur :: post := hA
  rw [hsplit] at hchain
  refine settles_unlink hl h hp hsplit hl.hashed (fun _ _ hij ↦ h.kept_setHead _ hij) ?_ fun _ ↦ rfl
  rw [setHead_self]
  exact hchain.after he

/-- `remove` of a later entry of a chain erases its key. -/
theorem settles_unlinkAfter {v : Visit K V} {prev cur next : ℕ} {ep : Entry K V}
    (hl : Lists L c.shared l) (h : Shape L c A E)
    (hpc : c.pcs t = some (.unlinkStore v prev cur next))
    (hp : (Pc.unlinkStore v prev cur next : Pc ι K V).Informed L c.shared) (hne : prev ≠ 0)
    (hep : c.shared.heap prev = some ep) :
    Settles L l (c.shared.setEntry prev (some { ep with next := next })) (.goto (.countDown v cur))
      [⟨t, v.act, .value ((c.shared.heap cur).map Entry.value)⟩] := by
  obtain ⟨-, hat, e, he, rfl⟩ := h.here t _ hpc
  have hchain := h.chain v.shard v.slot
  have hnd := h.nodup (.slot v.shard v.slot)
  have hmem := hat.prev_mem hne
  obtain ⟨pre, post, hA, hlast⟩ := hat.split hne
  rw [hA] at hchain hnd
  refine settles_unlink hl h hp hA (hl.hashed_setEntry ?_)
    (fun _ _ hij ↦ h.kept_setEntry_of_ne hmem _ hij)
    (hchain.unlink hnd he hlast hep) fun b ↦ ?_
  · rintro _ ⟨⟩
    exact hl.hashed prev ep hep
  · by_cases hb : b = prev
    · subst hb
      rw [setEntry_self, hep]
      rfl
    · rw [setEntry_of_ne _ _ hb]

omit [EquivBEq K] [LawfulHashable K] in
/-- `clear` swaps the head of a slot for null. -/
theorem settles_detachSwap {chains : List ℕ} (hl : Lists L c.shared l) (h : Shape L c A E) :
    Settles L l (c.shared.setHead i j 0)
      (.goto (countNext i j chains (c.shared.heads i j) (c.shared.heads i j) 0))
      [⟨t, .evict (i, j), .unit⟩] := by
  have hlists : Lists L (c.shared.setHead i j 0) (setList l i j (pairs c.shared.heap [])) :=
    hl.change hl.hashed (fun _ _ hij ↦ h.kept_setHead _ hij) (setHead_self ..)
      (fun x hx ↦ by cases hx) .nil
  refine ⟨_, hlists, .one fun m hm ↦
    ⟨rfl, hm.change (fun k hk ↦ if_pos hk) fun k hk ↦ if_neg hk⟩, ?_⟩
  rintro _ ⟨⟩
  exact informed_countNext _ _ _ _

end Changes

/-! ### Every step

The accesses of the map in the order of the source, and the starts of calls. -/

section Steps

variable [Fintype ι] {ids : SerialMutex.OwnerIds ι} {adaptive : ℕ}
  {c : Config ι (Store ι K V) (Pc ι K V)}
  {A : Regions ι} {E : ℕ → ℕ → ℕ} {s' : Store ι K V} {l : ℕ → ℕ → List (K × V)} {t u : ι}
    {ch : Choice ι}
  {o : Outcome (Pc ι K V) (Ret ι K V)} {p q : Pc ι K V}

omit [BEq K] [Hashable K] [Fintype ι] in
/-- What a call frees is in no chain. -/
theorem Shape.kept_free {a : ℕ} {own : List ℕ} (h : Shape L c A E) (hown : A (.thread t) = a :: own)
    (i j : ℕ) :
    Kept c.shared (c.shared.setEntry a none) i j :=
  h.kept_setEntry (r := .thread t) (Or.inl (hown ▸ List.mem_cons_self ..))
    (fun _ _ hr ↦ by cases hr) none i j

variable [EquivBEq K] [LawfulHashable K]

omit [Fintype ι] in
/-- **An access outside of the locks does what it is said to do.** -/
theorem Access.settles (ha : Access L ids t c.shared p s' o) (hl : Lists L c.shared l)
    (h : Shape L c A E) (hpc : c.pcs t = some p) (hp : p.Informed L c.shared) :
    Settles L l s' o (onExec L t p c.shared o) := by
  have hgo : ∀ {q : Pc ι K V} {s : Store ι K V}, q.Informed L s →
      ∀ q', (Outcome.goto q : Outcome (Pc ι K V) (Ret ι K V)).pc = some q' → q'.Informed L s :=
        fun hq _ hq' ↦
    Option.some.inj hq' ▸ hq
  have hf := h.fits t p hpc
  have hlocal := h.here t p hpc
  cases ha with
  | astray hp hnone =>
    obtain ⟨e, he⟩ := h.derefs hpc hp
    rw [hnone] at he
    cases he
  | loadHead =>
    have hw := Visit.Ready.walked (s := c.shared) hp
    exact .look hl (informed_walkNext hw (h.chain _ _) (h.chain _ _) hl)
      (follows_walkNext hw (h.chain _ _) (h.chain _ _) hl _)
  | hit he hfinds =>
    obtain ⟨pre, post, hc, hw⟩ := hp
    exact .look hl (informed_hit hw hc he hfinds) (follows_hit hw hc he hfinds hl)
  | @pass v prev cur e he hfinds =>
    obtain ⟨pre, post, hc, hw⟩ := hp
    have hlist : l v.shard v.slot = pairs c.shared.heap pre ++ (e.key, e.value) ::
        pairs c.shared.heap post := by
      rw [hl.eq_pairs hc, pairs_append, pairs_cons he]
    have hhome := hl.home v.shard v.slot (e.key, e.value) (by rw [hlist]; simp)
    have hd := hl.distinct v.shard v.slot
    rw [hlist] at hd
    have hw' := hw.pass he hfinds hhome (hd.around (BEq.refl e.key)).1
    have hc' : Chain c.shared.heap (c.shared.heads (v.see e).shard (v.see e).slot)
        (pre ++ [cur] ++ post) := by
      rw [Visit.see_shard, Visit.see_slot, List.append_assoc]
      exact hc
    exact .look hl (informed_walkNext hw' hc' (hc.after he) hl)
      (follows_walkNext hw' hc' (hc.after he) hl v)
  | replace he => exact settles_replace hl h hf hp he
  | @newEntry v key value entry hne hfree =>
    obtain ⟨hjob, hhome, hlacks⟩ := hp
    have hkept := h.kept_setEntry (r := .thread t) (Or.inr hfree) (fun _ _ hr ↦ by cases hr)
      (some ⟨key, value, hash key, c.shared.heads v.shard v.slot⟩)
    refine ⟨l, hl.kept (hl.hashed_setEntry ?_) hkept, .nil, hgo ?_⟩
    · rintro _ ⟨⟩
      rfl
    · exact ⟨key, value, _, hjob, hhome, hlacks.kept (hkept _ _), setEntry_self ..⟩
  | linkEntry => exact settles_linkEntry hl h hpc hp
  | countUp => exact .same hl rfl rfl (hgo (informed_unlock hf.mutates _))
  | unlinkLoad he => exact .look hl hp .nil
  | unlinkHead => exact settles_unlinkHead hl h hpc hp
  | unlinkAfter hne he => exact settles_unlinkAfter hl h hpc hp hne he
  | countDown he => exact .same hl rfl rfl (hgo trivial)
  | freeEntry he =>
    refine ⟨l, hl.kept (hl.hashed_setEntry ?_) (h.kept_free hlocal), .nil,
      hgo (informed_unlock hf.mutates _)⟩
    rintro _ ⟨⟩
  | lenLoad | reentrant | dropNull => exact .look hl trivial .nil
  | owned => exact .look hl (informed_backOutNext _ _) .nil
  | detachSwap => exact settles_detachSwap hl h
  | detachCount he => exact .look hl (informed_countNext _ _ _ _) .nil
  | detachSub => exact .same hl rfl rfl (hgo (informed_swapNext _))
  | inspect => exact .look hl informed_inspectNext .nil
  | dropped => exact .same hl rfl rfl informed_clearNext
  | dropEntry hne he =>
    have hd : Detached c.shared.heap (A (.thread t)) (_ :: _) := hlocal
    obtain ⟨e', own, hown, -⟩ := hd.of_entry hne
    refine ⟨l, hl.kept (hl.hashed_setEntry ?_) (h.kept_free hown), .nil, hgo trivial⟩
    rintro _ ⟨⟩

/-- **Every access does what it is said to do.** -/
theorem exec_settles [DecidableEq ι] (hl : Lists L c.shared l) (h : Shape L c A E)
    (hpc : c.pcs t = some p) (hp : p.Informed L c.shared)
    (he : exec L ids adaptive t ch c.shared p = some (s', o)) :
    Settles L l s' o (onExec L t p c.shared o) := by
  obtain ⟨q, k, rfl⟩ | ⟨q, k, rfl⟩ | ha := exec_cases he
  · obtain ⟨l', hs⟩ := exec_shard_store he
    have hheap : s'.heap = c.shared.heap := by obtain rfl | ⟨g, -, rfl⟩ := hs <;> rfl
    have hheads : s'.heads = c.shared.heads := by obtain rfl | ⟨g, -, rfl⟩ := hs <;> rfl
    refine .same hl hheap hheads ?_
    simp only [exec] at he
    split at he
    · cases he
    · cases he
      rintro _ ⟨⟩
      exact hp
    · have ho : _ = o := congrArg Prod.snd (Option.some.inj he)
      exact ho ▸ informed_resume hp _
  · obtain ⟨l', e, -, hs⟩ := exec_slot_store he
    have hheap : s'.heap = c.shared.heap := by rw [hs]; rfl
    have hheads : s'.heads = c.shared.heads := by rw [hs]; rfl
    refine .same hl hheap hheads ?_
    simp only [exec] at he
    split at he
    · cases he
    · cases he
      rintro _ ⟨⟩
      exact hp
    · have ho : _ = o := congrArg Prod.snd (Option.some.inj he)
      exact ho ▸ informed_resumeSlot hp _
  · exact ha.settles hl h hpc hp

omit [Fintype ι] in
/-- **Every start of a call does what it is said to do.** -/
theorem enter_settles [DecidableEq ι] {op : Op ι K V} (hl : Lists L c.shared l) (h : Shape L c A E)
    (he : enter L t op c.shared = some (s', o)) : Settles L l s' o (onCall t op c.shared o) := by
  have hthere : ∀ g ∈ c.shared.guards t, c.shared.heap g.entry ≠ none := fun g hg ↦ by
    obtain ⟨e, he⟩ := h.stored _ _ (h.guards t g hg)
    rw [he]
    exact Option.some_ne_none e
  have hkey : ∀ {key : K} {job : Job K V}, (visitOf L key job).Routed L →
      Settles L l c.shared (.goto (sharing (.visit (visitOf L key job)))) [] := fun hr ↦
    .look hl ⟨hr, (fun _ hx ↦ by cases hx), .nil⟩ .nil
  cases op with
  | insert key value | get key | getMut key | remove key | containsKey key =>
    cases he
    exact hkey rfl
  | clear =>
    cases he
    exact .same hl rfl rfl informed_clearNext
  | len =>
    cases he
    exact .same hl rfl rfl (informed_lenNext 0)
  | asVec =>
    cases he
    exact .same hl rfl rfl (informed_asVecNext (fun _ hx ↦ by cases hx) .nil)
  | deref g =>
    simp only [enter] at he
    split_ifs at he with hg
    split at he
    · rename_i e hent
      cases he
      refine ⟨l, hl, ?_, fun _ hq ↦ by cases hq⟩
      rw [onCall, hent]
      exact .one fun m hm ↦ ⟨congrArg Told.value (hm.entry hl h (h.guards t g hg) hent), hm⟩
    · rename_i hnone
      exact absurd hnone (hthere g hg)
  | write g v =>
    simp only [enter] at he
    split_ifs at he with hg
    split at he
    · rename_i e hent
      cases he
      obtain ⟨hlists, hreads⟩ := hl.setValue h (h.guards t g hg.1) hent (BEq.refl _) v
      refine ⟨_, hlists, ?_, fun _ hq ↦ by cases hq⟩
      rw [onCall, hent]
      refine .one fun m hm ↦ ⟨congrArg Told.bool ?_, hreads m hm⟩
      rw [hm.entry hl h (h.guards t g hg.1) hent]
      rfl
    · rename_i hnone
      exact absurd hnone (hthere g hg.1)
  | dropGuard g =>
    simp only [enter] at he
    split_ifs at he
    cases he
    refine .same hl rfl rfl ?_
    rintro _ ⟨⟩
    trivial
  | sendGuard g u =>
    simp only [enter] at he
    split_ifs at he with hg
    obtain ⟨x, hx, hx'⟩ := Option.map_eq_some_iff.1 he
    cases hx'
    have hs := (send_guards hx hg).1
    exact .same hl hs.heap hs.heads fun _ hq ↦ by cases hq

/-! ### The other calls

The slot of a call that walks, links or unlinks is held by its thread, so a step of another thread
leaves that slot alone. -/

omit [EquivBEq K] [LawfulHashable K]

variable (L A) in
/-- What a call of `u` finds after the step of another thread: the slots it holds and its own
entries are as before. -/
structure Untouched (u : ι) (q : Pc ι K V) (s s' : Store ι K V) : Prop where
  slot : ∀ x ∈ q.hands L u, Kept s s' x.shard x.slot
  own : ∀ a ∈ A (.thread u), s'.heap a = s.heap a

omit [Fintype ι] in
/-- A call knows what it knew after a step of another thread, which is not in its slot. -/
theorem Pc.Informed.untouched (hi : q.Informed L c.shared) (hu : Untouched L A u q c.shared s')
    (h : Shape L c A E) (hq : c.pcs u = some q) : q.Informed L s' := by
  refine hi.frame hu.slot fun v entry hentry ↦ ?_
  subst hentry
  obtain ⟨hown, -⟩ := h.here u _ hq
  exact hu.own entry (hown ▸ List.mem_cons_self ..)

/-- **An access leaves what another call holds alone.** -/
theorem exec_untouched [DecidableEq ι] (h : Shape L c A E) (hlk : Locks L ids c)
    (hL : 0 < L.capacity) (hpc : c.pcs t = some p)
    (he : exec L ids adaptive t ch c.shared p = some (s', o)) (hu : u ≠ t) (hq : c.pcs u = some q) :
    Untouched L A u q c.shared s' := by
  obtain ⟨A', E', T, -, ht, -⟩ := exec_shape h hlk hL hpc he
  refine ⟨fun x hx ↦ ?_, fun a ha ↦ ?_⟩
  · have hT := ht.not_other hlk hu (mem_holdsOf hq hx)
    exact h.kept (ht.heads _ _ hT).1 (ht.keep _ hT).2
  · have hT : ¬ T (.thread u) := fun hT ↦ by
      obtain hr | ⟨y, -, -, hr⟩ := ht.mine _ hT
      · cases hr
        exact hu rfl
      · cases hr
    exact (ht.keep _ hT).2 a ha

omit [BEq K] [Hashable K] in
/-- A slot that another call holds is not one that a thread writes to through a guard. -/
theorem Locks.kept_write [DecidableEq ι] {g : Guard ι} {x : Hold ι} (hlk : Locks L ids c)
    (h : Shape L c A E) (hg : g ∈ c.shared.guards t) (hw : g.hold.read = false) (hu : u ≠ t)
    (hx : x ∈ holdsOf L c u) (y : Option (Entry K V)) :
    Kept c.shared (c.shared.setEntry g.entry y) x.shard x.slot := by
  refine h.kept_setEntry_of_ne (h.guards t g hg) y ?_
  rintro ⟨hi, hj⟩
  exact hu (hlk.sole (guard_mem_holdsOf hg) hw hx hi hj).1

omit [BEq K] [Fintype ι] in
/-- The start of a call leaves the heads alone. -/
theorem enter_heads [DecidableEq ι] {op : Op ι K V} {s : Store ι K V}
    (he : enter L t op s = some (s', o)) :
    s'.heads = s.heads := by
  cases op with
  | insert key value | get key | getMut key | remove key | containsKey key | clear | len | asVec =>
    cases he
    rfl
  | deref g | write g v =>
    simp only [enter] at he
    split_ifs at he
    split at he <;> cases he <;> rfl
  | dropGuard g =>
    simp only [enter] at he
    split_ifs at he
    cases he
    rfl
  | sendGuard g u =>
    simp only [enter] at he
    split_ifs at he with hg
    obtain ⟨x, hx, hx'⟩ := Option.map_eq_some_iff.1 he
    cases hx'
    exact (send_guards hx hg).1.heads

omit [BEq K] in
/-- **The start of a call leaves what another call holds alone.** -/
theorem enter_untouched [DecidableEq ι] {op : Op ι K V} (h : Shape L c A E) (hlk : Locks L ids c)
    (he : enter L t op c.shared = some (s', o)) (hu : u ≠ t) (hq : c.pcs u = some q) :
    Untouched L A u q c.shared s' := by
  have hheads : s'.heads = c.shared.heads := enter_heads he
  obtain hheap | ⟨g, v, e, rfl, hg, hw, hent, hheap⟩ := enter_heap he
  · exact ⟨fun _ _ ↦ .same hheap hheads, fun _ _ ↦ congrFun hheap _⟩
  · refine ⟨fun x hx ↦ ?_, fun a ha ↦ ?_⟩
    · obtain ⟨h₁, h₂⟩ := hlk.kept_write h hg hw hu (mem_holdsOf hq hx) (some { e with value := v })
      exact ⟨congrFun (congrFun hheads _) _, fun as has a ha ↦
        (congrFun hheap a).trans (h₂ as has a ha)⟩
    · rw [hheap]
      refine setEntry_of_ne _ _ ?_
      rintro rfl
      have := h.disjoint (.thread u) _ _ ha (h.guards t g hg)
      cases this

end Steps

end Shared

end AtomicHashMap

end Crossync
