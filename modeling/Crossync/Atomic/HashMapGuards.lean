import Crossync.Atomic.HashMapLayout
import Crossync.Atomic.HashMapShape

/-!
# Guards of a shared `AtomicHashMap` stay valid

What the holder of a guard can rely on while other threads insert, remove, look up and clear. The
guarded entry stays linked in its slot, and only a write through the same guard changes it. An entry
is unlinked or detached only when no guard is live on its slot.

Freeing is another matter for `clear`. It destroys the detached chains after it has released every
lock, and by then another thread can have put a new entry into the slot and taken a guard on it
(`freed_beside_guard`). What holds is that an entry is freed only when it is linked nowhere and no
guard points to it, and by `remove` with no guard live on its slot.

The count of a shard is that of the linked entries whenever no call has a slot of the shard for
writing, and it is never negative.

## Two clauses about freeing

`remove` frees an entry with its slot still locked, so no guard is live on the slot. `clear` frees
with no lock in hand. In both cases the entry is in the region of the call that frees it, and a
guard's entry is in the region of a slot; regions are disjoint, so no guard points to what is freed.
-/

open Interleave Linked

namespace Crossync

namespace AtomicHashMap

namespace Shared

variable {ι K V : Type*} [DecidableEq ι]

/-- The entry at `a` is linked in a slot. -/
def InSlot (s : Store ι K V) (i j a : ℕ) : Prop := ∃ as, Chain s.heap (s.heads i j) as ∧ a ∈ as

/-- A returned guard is live on a slot. -/
def Guarded (s : Store ι K V) (i j : ℕ) : Prop :=
  ∃ t, ∃ g ∈ s.guards t, g.hold.shard = i ∧ g.hold.slot = j

/-- No call has a slot of shard `i` for writing. -/
def Idle (L : Layout) (c : Config ι (Store ι K V) (Pc ι K V)) (i : ℕ) : Prop :=
  ∀ t p, c.pcs t = some p → ∀ x ∈ p.hands L t, x.shard = i → x.read = true

/-- The step that frees the entry at `a`: `remove` with no guard live on its slot, or the
destruction of detached chains. -/
def FreedBy (c : Config ι (Store ι K V) (Pc ι K V)) (l : Label ι (Op ι K V)) (a : ℕ) : Prop :=
  ∃ t ch, l = .exec t ch ∧
    ((∃ v x, c.pcs t = some (.freeEntry v a x) ∧ ¬ Guarded c.shared v.shard v.slot) ∨
      ∃ i chains, c.pcs t = some (.dropChains i (a :: chains)))

section Steps

variable [Fintype ι] [BEq K] [Hashable K] {L : Layout} {ids : SerialMutex.OwnerIds ι} {adaptive : ℕ}
  {c c' : Config ι (Store ι K V) (Pc ι K V)} {t : ι} {ch : Choice ι} {A : Regions ι} {E : ℕ → ℕ → ℕ}
  {s s' : Store ι K V} {o : Outcome (Pc ι K V) (Ret ι K V)} {l : Label ι (Op ι K V)}

omit [BEq K] [Hashable K] [DecidableEq ι] [Fintype ι] in
theorem Shape.inSlot_iff (h : Shape L c A E) {i j a : ℕ} :
    InSlot c.shared i j a ↔ a ∈ A (.slot i j) := by
  constructor
  · rintro ⟨as, has, ha⟩
    rwa [← (h.chain i j).unique has] at ha
  · exact fun ha ↦ ⟨_, h.chain i j, ha⟩

omit [Fintype ι] [BEq K] in
/-- The start of a call writes to an entry only through a write guard. -/
theorem enter_heap {op : Op ι K V} (h : enter L t op s = some (s', o)) :
    s'.heap = s.heap ∨ ∃ g v e, op = .write g v ∧ g ∈ s.guards t ∧ g.hold.read = false ∧
      s.heap g.entry = some e ∧ s'.heap =
        (s.setEntry g.entry (some { e with value := v })).heap := by
  cases op with
  | insert key value | get key | getMut key | remove key | containsKey key | clear | len | asVec =>
    cases h
    exact Or.inl rfl
  | deref g =>
    simp only [enter] at h
    split_ifs at h
    split at h <;> cases h <;> exact Or.inl rfl
  | write g v =>
    simp only [enter] at h
    split_ifs at h with hg
    split at h
    · rename_i e he
      cases h
      exact Or.inr ⟨g, v, e, rfl, hg.1, hg.2, he, rfl⟩
    · cases h
      exact Or.inl rfl
  | dropGuard g =>
    simp only [enter] at h
    split_ifs at h
    cases h
    exact Or.inl rfl
  | sendGuard g u =>
    simp only [enter] at h
    split_ifs at h with hg
    obtain ⟨x, hx, hx'⟩ := Option.map_eq_some_iff.1 h
    cases hx'
    exact Or.inl (send_guards hx hg).1.heap

/-- An access frees an entry only as the last step of `remove` or in a detached chain. -/
theorem exec_frees {p : Pc ι K V} {a : ℕ} (h : exec L ids adaptive t ch s p = some (s', o))
    (ha : s.heap a ≠ none) (hfree : s'.heap a = none) :
    (∃ v x, p = .freeEntry v a x) ∨ ∃ i chains, p = .dropChains i (a :: chains) := by
  have hsame : s'.heap = s.heap → False := fun hs ↦ ha (hs ▸ hfree)
  -- a write of an entry frees nothing, and the release of one frees that one
  have hwrite : ∀ {b e}, s' = s.setEntry b (some e) → False := by
    rintro b e rfl
    by_cases hab : a = b
    · subst hab
      rw [setEntry_self] at hfree
      cases hfree
    · rw [setEntry_of_ne s _ hab] at hfree
      exact ha hfree
  have hnone : ∀ {b}, s' = s.setEntry b none → a = b := by
    rintro b rfl
    by_contra hab
    rw [setEntry_of_ne s _ hab] at hfree
    exact ha hfree
  obtain ⟨q, k, rfl⟩ | ⟨q, k, rfl⟩ | hacc := exec_cases h
  · obtain ⟨l, rfl | ⟨g, -, rfl⟩⟩ := exec_shard_store h
    · exact (hsame rfl).elim
    · exact (hsame rfl).elim
  · obtain ⟨l, e, -, rfl⟩ := exec_slot_store h
    exact (hsame rfl).elim
  · cases hacc with
    | replace | newEntry | unlinkAfter => exact (hwrite rfl).elim
    | @freeEntry v cur value e =>
      obtain rfl := hnone rfl
      exact Or.inl ⟨v, value, rfl⟩
    | @dropEntry i cur chains e =>
      obtain rfl := hnone rfl
      exact Or.inr ⟨i, chains, rfl⟩
    | _ => exact (hsame rfl).elim

/-! ### What a step leaves to guards

The entry under a guard is in the region of a slot that only the guard's holder may write. -/

omit [BEq K] [Hashable K] in
/-- A slot with a live guard is not one that a call writes. -/
theorem not_writes_of_guard {p : Pc ι K V} {u : ι} {g : Guard ι} (hl : Locks L ids c)
    (hpc : c.pcs t = some p) (hg : g ∈ c.shared.guards u) :
    ¬ p.Writes L t g.hold.shard g.hold.slot := fun hw ↦
  hw.no_guard hl hpc hg ⟨rfl, rfl⟩

/-- **An access leaves a guarded entry alone.** -/
theorem exec_guarded {p : Pc ι K V} {u : ι} {g : Guard ι} (h : Shape L c A E) (hl : Locks L ids c)
    (hL : 0 < L.capacity) (hpc : c.pcs t = some p)
    (he : exec L ids adaptive t ch c.shared p = some (s', o)) (hg : g ∈ c.shared.guards u) :
    s'.heap g.entry = c.shared.heap g.entry := by
  obtain ⟨A', E', T, -, ht, hw⟩ := exec_shape h hl hL hpc he
  have hT : ¬ T (.slot g.hold.shard g.hold.slot) := fun hT ↦
    not_writes_of_guard hl hpc hg (hw _ _ hT)
  exact (ht.keep _ hT).2 _ (h.guards u g hg)

omit [BEq K] [Hashable K] in
/-- **A write through a guard leaves every other guard's entry alone.** -/
theorem eq_of_write {u : ι} {g g' : Guard ι} (h : Shape L c A E) (hl : Locks L ids c)
    (hg : g ∈ c.shared.guards t) (hw : g.hold.read = false) (hg' : g' ∈ c.shared.guards u)
    (he : g'.entry = g.entry) : u = t ∧ g' = g := by
  have hslot := h.disjoint _ _ _ (h.guards u g' hg') (he ▸ h.guards t g hg)
  obtain ⟨hi, hj⟩ := Region.slot.inj hslot
  obtain ⟨rfl, hh, -⟩ := hl.sole (guard_mem_holdsOf hg) hw (guard_mem_holdsOf hg') hi hj
  obtain ⟨hold, entry⟩ := g
  obtain ⟨hold', entry'⟩ := g'
  obtain rfl : hold' = hold := hh
  obtain rfl : entry' = entry := he
  exact ⟨rfl, rfl⟩

variable (L ids adaptive) in
/-- **Guards are valid** at a configuration and over every step from it. -/
structure GuardsValid (c : Config ι (Store ι K V) (Pc ι K V)) : Prop where
  /-- A guard holds the mutex of its slot, and its thread nothing of a shard lock. -/
  held : ∀ t, ∀ g ∈ c.shared.guards t, 0 < c.shared.record g.hold t
  released : ∀ t, c.pcs t = none → ∀ i,
    (c.shared.shardLock i).shared t = 0 ∧ (c.shared.shardLock i).exclusive t = 0
  /-- The guarded entry is linked in its slot. -/
  linked : ∀ t, ∀ g ∈ c.shared.guards t, InSlot c.shared g.hold.shard g.hold.slot g.entry
  /-- Only a write through the same guard changes it. -/
  value : ∀ l c', (atomicHashMap L ids adaptive).next c l = some c' → ∀ t, ∀ g ∈ c.shared.guards t,
    c'.shared.heap g.entry ≠ c.shared.heap g.entry → g.hold.read = false ∧
      ∃ v, l = .call t (.write g v)
  /-- An entry is unlinked or detached only when no guard is live on its slot. -/
  unlinked : ∀ l c', (atomicHashMap L ids adaptive).next c l = some c' → ∀ i j a,
    InSlot c.shared i j a → ¬ InSlot c'.shared i j a → ¬ Guarded c.shared i j
  /-- An entry is freed only when it is linked nowhere and no guard points to it. -/
  freed : ∀ l c', (atomicHashMap L ids adaptive).next c l = some c' → ∀ a,
    c.shared.heap a ≠ none → c'.shared.heap a = none →
      (∀ i j, ¬ InSlot c.shared i j a) ∧ (∀ t, ∀ g ∈ c.shared.guards t, g.entry ≠ a) ∧ FreedBy c l a
  count_nonneg : ∀ i, 0 ≤ c.shared.count i
  /-- Outside of the critical sections of its slots, a shard counts its linked entries. -/
  count_eq : ∀ i, Idle L c i → ∃ as : ℕ → List ℕ,
    (∀ j, Chain c.shared.heap (c.shared.heads i j) (as j)) ∧
      c.shared.count i = (((List.range L.capacity).map fun j ↦ (as j).length).sum : ℕ)
  /-- No access goes to an entry that is not there. -/
  defined : c.shared.dangling = false

/-- What the freed entry is. -/
theorem freed_of_exec {p : Pc ι K V} {a : ℕ} (h : Shape L c A E) (hl : Locks L ids c)
    (hpc : c.pcs t = some p) (he : exec L ids adaptive t ch c.shared p = some (s', o))
    (ha : c.shared.heap a ≠ none) (hfree : s'.heap a = none) :
    a ∈ A (.thread t) ∧ FreedBy c (.exec t ch) a := by
  obtain ⟨v, x, rfl⟩ | ⟨i, chains, rfl⟩ := exec_frees he ha hfree
  · have hown : A (.thread t) = [a] := h.here t _ hpc
    refine ⟨hown ▸ List.mem_cons_self .., t, ch, rfl, Or.inl ⟨v, x, hpc, ?_⟩⟩
    rintro ⟨u, g, hg, hslot⟩
    exact (writes_of_visit rfl rfl (h.fits t _ hpc).mutates).no_guard hl hpc hg hslot
  · have hd : Detached c.shared.heap (A (.thread t)) (a :: chains) := h.here t _ hpc
    refine ⟨?_, t, ch, rfl, Or.inr ⟨i, chains, hpc⟩⟩
    have hne : a ≠ 0 := by
      -- at the null address nothing is freed
      rintro rfl
      simp only [exec, if_true] at he
      cases he
      exact ha hfree
    obtain ⟨e, own, hown, -⟩ := hd.of_entry hne
    rw [hown]
    exact List.mem_cons_self ..

omit [BEq K] [Hashable K] [DecidableEq ι] [Fintype ι] in
/-- A shard counts its linked entries when no call has a slot of it for writing. -/
theorem Shape.count_idle (h : Shape L c A E) {i : ℕ} (hidle : Idle L c i) :
    c.shared.count i = (((List.range L.capacity).map fun j ↦ (A (.slot i j)).length).sum : ℕ) := by
  refine h.count_settled fun j u p hp ha ↦ ?_
  have := hidle u p hp _ (ha.writes (t := u) (h.fits u p hp)).2 rfl
  cases this

/-- **Guards stay valid**: at every configuration of every run of a map that the constructor
accepts, and over every step. -/
theorem guards_stay_valid {capacity shardAmount : UInt64}
    (hL : withCapacityHasherAndShardAmount capacity shardAmount = .ok L)
    (h : Reach (atomicHashMap L ids adaptive) Always init c) : GuardsValid L ids adaptive c := by
  have hcap : 0 < L.capacity := (valid_of_ok hL).capacity_pos
  obtain ⟨hl, A, E, hs⟩ := reach_shape hcap h
  -- the invariant after a step, with the regions that it keeps
  refine ⟨fun t g hg ↦ ?_, fun t ht i ↦ ?_, fun t g hg ↦ hs.inSlot_iff.2 (hs.guards t g hg),
    ?_, ?_, ?_,
    fun i ↦ ?_, fun i hidle ↦ ⟨fun j ↦ A (.slot i j), hs.chain i, hs.count_idle hidle⟩, hs.defined⟩
  · exact hl.record_pos (guard_mem_holdsOf hg)
  · have hm := hl.mine t
    rw [ht] at hm
    exact ⟨hm.shared i, hm.exclusive i⟩
  · intro l c' hn t g hg hne
    obtain ⟨u, op, ⟨s', o⟩, rfl, hpc, he, rfl⟩ | ⟨u, ch, p, ⟨s', o⟩, rfl, hpc, he, rfl⟩ :=
      Object.next_cases hn
    · obtain hheap | ⟨g', v, e, rfl, hg', hw, -, hheap⟩ := enter_heap he
      · exact absurd (congrFun hheap _) hne
      · have hentry : g.entry = g'.entry := by
          by_contra hdiff
          refine hne ?_
          show s'.heap g.entry = _
          rw [hheap, setEntry_of_ne _ _ hdiff]
        obtain ⟨rfl, rfl⟩ := eq_of_write hs hl hg' hw hg hentry
        exact ⟨hw, v, rfl⟩
    · exact absurd (exec_guarded hs hl hcap hpc he hg) hne
  · intro l c' hn i j a ha ha'
    rintro ⟨t, g, hg, rfl, rfl⟩
    obtain ⟨u, op, ⟨s', o⟩, rfl, hpc, he, rfl⟩ | ⟨u, ch, p, ⟨s', o⟩, rfl, hpc, he, rfl⟩ :=
      Object.next_cases hn
    · exact ha' ((enter_shape hs hl hcap hpc he).inSlot_iff.2 (hs.inSlot_iff.1 ha))
    · obtain ⟨A', E', T, hs', ht, hw⟩ := exec_shape hs hl hcap hpc he
      have hT : ¬ T (.slot g.hold.shard g.hold.slot) := fun hT ↦
        not_writes_of_guard hl hpc hg (hw _ _ hT)
      refine ha' (hs'.inSlot_iff.2 ?_)
      rw [(ht.keep _ hT).1]
      exact hs.inSlot_iff.1 ha
  · intro l c' hn a ha hfree
    obtain ⟨u, op, ⟨s', o⟩, rfl, hpc, he, rfl⟩ | ⟨u, ch, p, ⟨s', o⟩, rfl, hpc, he, rfl⟩ :=
      Object.next_cases hn
    · -- the start of a call frees nothing
      obtain hheap | ⟨g', v, e, rfl, -, -, hent, hheap⟩ := enter_heap he
      · exact absurd ((congrFun hheap a).symm.trans hfree) ha
      · change s'.heap a = none at hfree
        rw [hheap] at hfree
        by_cases hae : a = g'.entry
        · subst hae
          rw [setEntry_self] at hfree
          cases hfree
        · rw [setEntry_of_ne _ _ hae] at hfree
          exact absurd hfree ha
    · obtain ⟨hmem, hby⟩ := freed_of_exec hs hl hpc he ha hfree
      refine ⟨fun i j hin ↦ ?_, fun t g hg hga ↦ ?_, hby⟩
      · have := hs.disjoint _ _ a hmem (hs.inSlot_iff.1 hin)
        cases this
      · have := hs.disjoint _ _ a hmem (hga ▸ hs.guards t g hg)
        cases this
  · rw [hs.count]
    exact Int.natCast_nonneg _

end Steps

/-! ### A run

Thread `0` clears; after it has released the shard another thread inserts and takes a guard; then
the clear frees the chains that it detached. -/

/-- Two shards of one slot each. -/
def twoShards : Layout := ⟨2, 1, 63⟩

/-- A map with them, for two threads. -/
abbrev smallMap : Object (Fin 2) (Store (Fin 2) ℕ ℕ) (Pc (Fin 2) ℕ ℕ) (Op (Fin 2) ℕ ℕ)
    (Ret (Fin 2) ℕ ℕ) :=
  atomicHashMap twoShards SerialMutex.twoIds 4

/-- Thread `0` inserts, and clears up to the destruction of the detached entry. -/
def clearSchedule : List (Label (Fin 2) (Op (Fin 2) ℕ ℕ)) :=
  .call 0 .clear :: List.replicate 7 (.exec 0 .go)

/-- Thread `1` inserts into the same slot and takes a guard. -/
def guardSchedule : List (Label (Fin 2) (Op (Fin 2) ℕ ℕ)) :=
  .call 1 (.insert 0 8) :: List.replicate 5 (.exec 1 (.addr 2)) ++ List.replicate 4 (.exec 1 .go) ++
    .call 1 (.get 0) :: List.replicate 6 (.exec 1 .go)

/-- The guard that thread `1` has then. -/
def laterGuard : Guard (Fin 2) := ⟨⟨0, 0, true, 1⟩, 2⟩

/-- Thread `0` inserts. -/
def insertSchedule : List (Label (Fin 2) (Op (Fin 2) ℕ ℕ)) :=
  .call 0 (.insert 0 7) :: List.replicate 5 (.exec 0 (.addr 1)) ++ List.replicate 4 (.exec 0 .go)

/-- Guards are valid with one of them live. -/
theorem guards_stay_valid_live :
    withCapacityHasherAndShardAmount 2 2 = .ok twoShards ∧
    ∃ c : Config (Fin 2) (Store (Fin 2) ℕ ℕ) (Pc (Fin 2) ℕ ℕ),
      Reach smallMap Always init c ∧
      c.shared.guards 1 = [laterGuard] ∧ GuardsValid twoShards SerialMutex.twoIds 4 c := by
  have hL : withCapacityHasherAndShardAmount 2 2 = .ok twoShards := by decide
  obtain ⟨c, hc, ht⟩ := Reach.exists_of_replay smallMap Always init guardSchedule
    (fun c ↦ decide (c.shared.guards 1 = [laterGuard])) (by decide +kernel)
  exact ⟨hL, c, hc, of_decide_eq_true ht, guards_stay_valid hL hc⟩

/-- What an entry consists of. -/
def parts (e : Entry ℕ ℕ) : ℕ × ℕ × UInt64 × ℕ := (e.key, e.value, e.hash, e.next)

theorem parts_injective : Function.Injective parts := by
  rintro ⟨k, v, h, n⟩ ⟨k', v', h', n'⟩ heq
  simpa [parts] using heq

/-- The next step of thread `0` frees the entry at address `1`, with the guard of thread `1`
live. -/
def freesBeside (c : Config (Fin 2) (Store (Fin 2) ℕ ℕ) (Pc (Fin 2) ℕ ℕ)) : Bool :=
  decide ((c.shared.heap 1).map parts = some (0, 7, hash 0, 0) ∧
    c.shared.guards 1 = [laterGuard]) &&
    (smallMap.next c (.exec 0 .go)).any fun c' ↦ (c'.shared.heap 1).isNone

/-- **`clear` frees an entry while a guard is live on its slot.** The entry at address `1` is linked
in slot `0` of shard `0`, `clear` detaches it and releases its locks, thread `1` inserts into the
slot and takes a guard, and then `clear` frees the detached entry. -/
theorem freed_beside_guard :
    ∃ c₁ c c' : Config (Fin 2) (Store (Fin 2) ℕ ℕ) (Pc (Fin 2) ℕ ℕ),
      Reach smallMap Always init c₁ ∧ InSlot c₁.shared 0 0 1 ∧
      Reach smallMap Always c₁ c ∧ c.shared.heap 1 = c₁.shared.heap 1 ∧
      smallMap.next c (.exec 0 .go) = some c' ∧
      c.shared.heap 1 ≠ none ∧ c'.shared.heap 1 = none ∧ Guarded c.shared 0 0 := by
  obtain ⟨c₁, hc₁, ht⟩ := Reach.exists_of_replay smallMap Always init insertSchedule
    (fun c₁ ↦ decide (c₁.shared.heads 0 0 = 1 ∧
      (c₁.shared.heap 1).map parts = some (0, 7, hash 0, 0)) &&
      (smallMap.replay Always c₁ (clearSchedule ++ guardSchedule)).any freesBeside)
        (by decide +kernel)
  obtain ⟨h₁, h₂⟩ := Bool.and_eq_true_iff.1 ht
  obtain ⟨hhead, hparts⟩ := of_decide_eq_true h₁
  obtain ⟨c, hc, h₃⟩ := (Option.any_eq_true _ _).1 h₂
  obtain ⟨h₄, h₅⟩ := Bool.and_eq_true_iff.1 h₃
  obtain ⟨hparts', hg⟩ := of_decide_eq_true h₄
  obtain ⟨c', hc', hfree⟩ := (Option.any_eq_true _ _).1 h₅
  obtain ⟨e, he, hpe⟩ := Option.map_eq_some_iff.1 hparts
  have hnext : e.next = 0 := congrArg (fun x ↦ x.2.2.2) hpe
  have hsame := Option.map_injective parts_injective (hparts'.trans hparts.symm)
  refine ⟨c₁, c, c', hc₁, ⟨[1], ?_, List.mem_cons_self ..⟩, .of_replay hc, hsame, hc', ?_,
    Option.isNone_iff_eq_none.1 hfree, 1, laterGuard, ?_, rfl, rfl⟩
  · rw [hhead]
    exact ⟨rfl, Nat.one_ne_zero, e, he, hnext⟩
  · rw [hsame, he]
    exact Option.some_ne_none e
  · rw [hg]
    exact List.mem_cons_self ..

end Shared

end AtomicHashMap

end Crossync
