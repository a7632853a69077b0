import Crossync.Atomic.HashMapChains

/-!
# Every step of a shared `AtomicHashMap` keeps its chains

The invariant `Shape` along every run. Three kinds of step cover all program points: a step that
leaves entries, heads and counts alone (`Shape.quiet`), one that changes only the entries of its own
call (`Shape.owning`), and one inside the critical section of a slot that is held for writing
(`Shape.writing`). What a step may change is part of the result (`Evolves`), so that a caller can
follow the chains of a slot along a run.

## How the cases are divided

A step of a call is an access of a lock, or one of the map's own accesses (`Access`). The first kind
is always quiet. The second kind is gone through once, in the order of the source, and each case
names its rule: quiet, owning or writing. What the rule asks for is in the assertion of the program
point, so a case is a few lines that find it there.

## The other calls

For every other call the same argument works, and it is made once: what it knows is about its own
region and the slot that it holds, and the step touches neither.
-/

open Interleave Linked

namespace Crossync

namespace AtomicHashMap

namespace Shared

variable {ι K V : Type*} [DecidableEq ι] {L : Layout}

/-! ### What is known at the places of the code

One lemma for each function that picks the next program point. They are used by the step lemmas
below, whichever access leads there. -/

section Places

variable {s : Store ι K V} {A : Regions ι} {E : ℕ → ℕ → ℕ} {own : List ℕ} {t : ι} {v : Visit K V}
  {i j : ℕ}

omit [DecidableEq ι] in
theorem local_missing (ho : own = []) : (missing t v).Local s A E own := by
  unfold missing
  split
  · exact ho
  all_goals exact ho

omit [DecidableEq ι] in
/-- The walk goes on where a chain goes on. -/
theorem local_walkNext (pre : List ℕ) {post : List ℕ} {cur : ℕ} (ho : own = [])
    (hA : A (.slot v.shard v.slot) = pre ++ post) (hc : Chain s.heap cur post) :
    (walkNext t v (pre.getLast?.getD 0) cur).Local s A E own := by
  unfold walkNext
  split_ifs with hcur
  · exact local_missing ho
  · cases post with
    | nil => exact absurd hc hcur
    | cons a post =>
      obtain ⟨rfl, -⟩ := hc
      exact ⟨ho, pre, post, hA, rfl⟩

omit [DecidableEq ι] in
theorem local_hit {prev cur : ℕ} (ho : own = []) (hat : At (A (.slot v.shard v.slot)) prev cur) :
    (hit t v prev cur).Local s A E own := by
  have hmem : cur ∈ A (.slot v.shard v.slot) := by
    obtain ⟨pre, post, hA, -⟩ := hat
    rw [hA]
    simp
  unfold hit
  split
  · exact ⟨ho, hmem⟩
  · exact ⟨ho, hat⟩
  · exact ho
  · exact ⟨ho, hmem⟩
  · exact ⟨ho, hmem⟩
  · exact ho

omit [DecidableEq ι] in
theorem local_backOutNext (n : ℕ) (b : Bool) (ho : own = []) :
    (backOutNext t i j n b : Pc ι K V).Local s A E own := by
  unfold backOutNext
  split_ifs
  · exact ho
  · exact ho

omit [DecidableEq ι] in
theorem local_releaseNext {chains : List ℕ} (hd : Detached s.heap own chains) :
    (releaseNext L t i j chains : Pc ι K V).Local s A E own := by
  unfold releaseNext
  split_ifs
  · exact hd
  · exact hd

omit [DecidableEq ι] in
theorem local_swapNext {chains : List ℕ} (hd : Detached s.heap own chains) :
    (swapNext L t i j chains : Pc ι K V).Local s A E own := by
  unfold swapNext
  split_ifs
  · exact hd
  · exact local_releaseNext hd

omit [DecidableEq ι] in
theorem local_detachNext (ho : own = []) : (detachNext L t i j : Pc ι K V).Local s A E own := by
  unfold detachNext
  split_ifs
  · exact ho
  · rw [ho]
    exact local_swapNext (detached_nil s.heap)

omit [DecidableEq ι] in
/-- The count goes on where a detached chain goes on. -/
theorem local_countNext (pre : List ℕ) {own' post chains : List ℕ} {chain cur : ℕ}
    (ho : own = own' ++ (pre ++ post)) (hd : Detached s.heap own' chains)
    (hchain : Chain s.heap chain (pre ++ post)) (hc : Chain s.heap cur post)
    (hA : A (.slot i j) = []) (hE : E i j = (pre ++ post).length) :
    (countNext i j chains chain cur pre.length : Pc ι K V).Local s A E own := by
  unfold countNext
  split_ifs with hcur
  · obtain rfl : post = [] := hc.null_iff.1 hcur
    rw [List.append_nil] at *
    exact ⟨own', pre, ho, hd, hchain, rfl, hA, hE⟩
  · cases post with
    | nil => exact absurd hc hcur
    | cons a post =>
      obtain ⟨rfl, -⟩ := hc
      exact ⟨own', pre, post, ho, hd, hchain, rfl, hA, hE⟩

omit [DecidableEq ι] in
theorem local_inspectNext (ho : own = []) : (inspectNext L i j : Pc ι K V).Local s A E own := by
  unfold inspectNext
  split_ifs
  · exact ho
  · exact ho

omit [DecidableEq ι] in
theorem local_visitNext (seen : List (K × V)) (ho : own = []) :
    (visitNext L i j seen : Pc ι K V).Local s A E own := by
  unfold visitNext
  split_ifs
  · exact ho
  · exact ho

omit [DecidableEq ι] in
theorem local_visited (r : Ret ι K V) (ho : own = []) : (visited L v r).Local s A E own := by
  unfold visited
  split
  · exact local_visitNext _ ho
  · exact ho

omit [DecidableEq ι] in
theorem local_visit (ho : own = []) : (visit L v : Pc ι K V).Local s A E own := by
  unfold visit
  split
  · exact local_visitNext _ ho
  · exact ho

variable (s A E own) in
/-- What an outcome leaves: what the next program point knows, or no entries once the call is
over. -/
def Leaves : Outcome (Pc ι K V) (Ret ι K V) → Prop
  | .goto q => q.Local s A E own
  | .ret _ => own = []

omit [DecidableEq ι] in
theorem Leaves.same {s' : Store ι K V} {o : Outcome (Pc ι K V) (Ret ι K V)} (h : Leaves s A E own o)
    (hheap : s'.heap = s.heap) (hheads : s'.heads = s.heads) : Leaves s' A E own o := by
  cases o with
  | ret r => exact h
  | goto q => cases q <;> simpa only [Leaves, Pc.Local, hheap, hheads] using h

omit [DecidableEq ι] in
theorem leaves_clearNext (ho : own = []) :
    Leaves s A E own (clearNext L i : Outcome (Pc ι K V) (Ret ι K V)) := by
  unfold clearNext
  split_ifs
  · exact ho
  · exact ho

omit [DecidableEq ι] in
theorem leaves_lenNext (n : ℤ) (ho : own = []) :
    Leaves s A E own (lenNext L i n : Outcome (Pc ι K V) (Ret ι K V)) := by
  unfold lenNext
  split_ifs
  · exact ho
  · exact ho

omit [DecidableEq ι] in
theorem leaves_asVecNext (seen : List (K × V)) (ho : own = []) :
    Leaves s A E own (asVecNext L i seen : Outcome (Pc ι K V) (Ret ι K V)) := by
  unfold asVecNext
  split_ifs
  · exact ho
  · exact ho

/-- The caller of a shard lock goes on with what it knows. -/
theorem leaves_resume {k : After ι K V} (hk : k.Local s.heap A own) (r : RawMutex.Ret) :
    Leaves s A E own (resume L t s k r).2 := by
  unfold resume
  split
  · exact local_visit hk
  · exact leaves_asVecNext _ hk
  · exact hk
  · exact leaves_lenNext _ hk
  · exact hk
  · exact hk.1
  · exact local_detachNext hk
  · exact hk
  · exact local_inspectNext hk
  · exact hk
  · exact hk
  · exact hk
  · exact hk

omit [DecidableEq ι] in
theorem leaves_resumeSlot {k : Next ι K V} (hk : k.Local s.heap own) (r : SerialMutex.Ret) :
    Leaves s A E own (resumeSlot L t s k r).2 := by
  unfold resumeSlot
  split
  · exact hk
  · exact hk
  · exact local_visited _ hk
  · exact hk
  · exact hk
  · exact hk
  · exact local_detachNext hk
  · exact hk
  · exact local_backOutNext _ _ hk
  · exact local_releaseNext hk

end Places

/-! ### Slots held for writing

At most one call or guard has a slot for writing, and then nobody else has it at all. -/

section Writes

/-- The call at a program point has the slot for writing, inside the shard. -/
def Pc.Writes (L : Layout) (t : ι) (i j : ℕ) (p : Pc ι K V) : Prop :=
  (p.shares = some i ∨ p.seals = some i) ∧ (⟨i, j, false, t⟩ : Hold ι) ∈ p.hands L t

omit [DecidableEq ι] in
/-- `insert` and `remove` at their slot. -/
theorem writes_of_visit {p : Pc ι K V} {t : ι} {v : Visit K V} (hs : p.shares = some v.shard)
    (hh : p.hands L t = [v.hold t]) (hr : v.job.reads = false) : p.Writes L t v.shard v.slot := by
  refine ⟨Or.inl hs, ?_⟩
  rw [hh, Visit.hold, hr]
  exact List.mem_cons_self ..

omit [DecidableEq ι] in
/-- `try_detach` with every slot taken. -/
theorem writes_of_taken {p : Pc ι K V} {t : ι} {i j : ℕ} (hs : p.seals = some i)
    (hh : p.hands L t = taken t i 0 L.capacity) (hj : j < L.capacity) : p.Writes L t i j := by
  refine ⟨Or.inr hs, ?_⟩
  rw [hh]
  exact mem_taken.2 ⟨j, Nat.zero_le _, hj, rfl⟩

omit [DecidableEq ι] in
/-- A call that is to update the count of a slot has it for writing. -/
theorem Pc.Adjusts.writes {p : Pc ι K V} {t : ι} {i j : ℕ} (h : p.Adjusts i j) (hf : p.Fits L) :
    p.Writes L t i j := by
  cases p with
  | countUp v | countDown v cur =>
    obtain ⟨rfl, rfl⟩ := h
    exact writes_of_visit rfl rfl hf.mutates
  | detachCount i' j' chains chain cur count | detachSub i' j' chains chain count =>
    obtain ⟨rfl, rfl⟩ := h
    exact writes_of_taken rfl rfl (hf.slot _ rfl)
  | _ => exact h.elim

variable [Fintype ι] {ids : SerialMutex.OwnerIds ι}
  {c : Config ι (Store ι K V) (Pc ι K V)} {t u : ι}
  {p q : Pc ι K V} {i j : ℕ}

/-- Only one call has a slot for writing. -/
theorem Pc.Writes.unique (h : p.Writes L t i j) (hl : Locks L ids c) (hp : c.pcs t = some p)
    (hq : c.pcs u = some q) (hw : q.Writes L u i j) : u = t :=
  (hl.sole (mem_holdsOf hp h.2) rfl (mem_holdsOf hq hw.2) rfl rfl).1

/-- **No guard is live on a slot that a call has for writing.** -/
theorem Pc.Writes.no_guard (h : p.Writes L t i j) (hl : Locks L ids c) (hp : c.pcs t = some p)
    {g : Guard ι} (hg : g ∈ c.shared.guards u) : ¬ (g.hold.shard = i ∧ g.hold.slot = j) := by
  rintro ⟨hi, hj⟩
  have hmem : g.hold ∈ c.shared.holds u := List.mem_map.2 ⟨g, hg, rfl⟩
  obtain ⟨rfl, hx, hone⟩ := hl.sole (mem_holdsOf hp h.2) rfl (List.mem_append_left _ hmem) hi hj
  rw [hx] at hmem
  -- the hold is counted among the returned guards and in the hands of the call
  have h₁ := List.count_pos_iff.2 hmem
  have h₂ := List.count_pos_iff.2 h.2
  unfold holdsOf at hone
  rw [hp, List.count_append, Option.elim_some] at hone
  omega

/-- A slot that a call is about to detach, or has just linked, is counted. -/
theorem Shape.counted {A : Regions ι} {E : ℕ → ℕ → ℕ} (h : Shape L c A E) (hl : Locks L ids c)
    (hp : c.pcs t = some p) (hw : p.Writes L t i j) (hadj : ¬ p.Adjusts i j) :
    E i j = (A (.slot i j)).length := by
  refine h.settled i j fun u q hq ha ↦ ?_
  obtain rfl := hw.unique hl hp hq (ha.writes (h.fits u q hq))
  rw [hp] at hq
  cases hq
  exact hadj ha

omit [DecidableEq ι] [Fintype ι] in
/-- A shard counts its linked entries when no call is at an update of its count. -/
theorem Shape.count_settled {A : Regions ι} {E : ℕ → ℕ → ℕ} (h : Shape L c A E)
    (hadj : ∀ j u q, c.pcs u = some q → ¬ q.Adjusts i j) :
    c.shared.count i = (((List.range L.capacity).map fun j ↦ (A (.slot i j)).length).sum : ℕ) := by
  have hE : E i = fun j ↦ (A (.slot i j)).length := funext fun j ↦ h.settled i j (hadj j)
  rw [h.count, hE]

end Writes

/-! ### Three kinds of step

The rules by which every step is proved. What a rule asks for is what the code at that point has:
nothing changed, or only entries of the call's own region, or the call holds its slot for writing.
-/

section Kinds

variable [Fintype ι] {ids : SerialMutex.OwnerIds ι} {c : Config ι (Store ι K V) (Pc ι K V)} {t : ι}
  {p q : Pc ι K V} {A : Regions ι} {E : ℕ → ℕ → ℕ} {s' : Store ι K V}
  {o : Outcome (Pc ι K V) (Ret ι K V)} {i j : ℕ}

/-- **What a step of a call leaves**: the invariant again, and what it has touched is its own or in
a slot that it has for writing. -/
def Evolves (L : Layout) (c : Config ι (Store ι K V) (Pc ι K V)) (t : ι) (p : Pc ι K V)
    (s' : Store ι K V) (o : Outcome (Pc ι K V) (Ret ι K V)) (A : Regions ι)
    (E : ℕ → ℕ → ℕ) : Prop :=
  ∃ A' E' T, Shape L (c.put t (s', o)) A' E' ∧ Touches L c t s' A A' E E' T ∧
    ∀ i j, T (.slot i j) → p.Writes L t i j

/-- Entries, heads and counts are as before. -/
structure SameEntries (s s' : Store ι K V) : Prop where
  heap : s'.heap = s.heap
  heads : s'.heads = s.heads
  count : s'.count = s.count
  dangling : s'.dangling = s.dangling

omit [Fintype ι] [DecidableEq ι] in
theorem SameEntries.refl (s : Store ι K V) : SameEntries s s := ⟨rfl, rfl, rfl, rfl⟩

/-- A step that leaves entries, heads and counts alone. -/
theorem Shape.quiet (h : Shape L c A E) (hl : Locks L ids c) (hs : SameEntries c.shared s')
    (hfits : ∀ q, o.pc = some q → q.Fits L) (ho : Leaves s' A E (A (.thread t)) o)
    (hguards : ∀ u, ∀ g ∈ s'.guards u, g.entry ∈ A (.slot g.hold.shard g.hold.slot))
    (hadj : ∀ i j p, c.pcs t = some p → p.Adjusts i j → ∃ q, o.pc = some q ∧ q.Adjusts i j) :
    Shape L (c.put t (s', o)) A E := by
  refine h.step hl (.none hs.heap hs.heads) hfits ?_ ?_ hguards ?_ (fun _ _ hT ↦ hT.elim)
    (fun i j p hp ha _ ↦ hadj i j p hp ha) (hs.dangling.trans h.defined)
  · rintro q hq
    cases o <;> cases hq
    exact ho
  · intro hq
    cases o
    · cases hq
    · exact ho
  · rw [hs.count]
    exact h.count

/-- A step that leaves entries, heads and counts alone keeps the shape, with the same regions. -/
theorem Evolves.quiet (h : Shape L c A E) (hl : Locks L ids c) (hpc : c.pcs t = some p)
    (hs : SameEntries c.shared s') (hfits : ∀ q, o.pc = some q → q.Fits L)
    (ho : Leaves s' A E (A (.thread t)) o)
    (hguards : ∀ u, ∀ g ∈ s'.guards u, g.entry ∈ A (.slot g.hold.shard g.hold.slot))
    (hadj : ∀ i j, p.Adjusts i j → ∃ q, o.pc = some q ∧ q.Adjusts i j) :
    Evolves L c t p s' o A E := by
  refine ⟨A, E, _, h.quiet hl hs hfits ho hguards ?_, .none hs.heap hs.heads, fun _ _ hT ↦ hT.elim⟩
  intro i j p' hp' ha
  rw [hpc] at hp'
  cases hp'
  exact hadj i j ha

/-- A step that changes only the entries of its own call. -/
theorem Evolves.owning (own : List ℕ) (h : Shape L c A E) (hl : Locks L ids c)
    (hpc : c.pcs t = some p)
    (hs : s'.heads = c.shared.heads ∧ s'.count = c.shared.count ∧ s'.guards = c.shared.guards)
    (hfits : q.Fits L) (hkeep : ∀ r, r ≠ .thread t → ∀ a ∈ A r, s'.heap a = c.shared.heap a)
    (hnd : own.Nodup) (horigin : ∀ a ∈ own, a ∈ A (.thread t) ∨ c.shared.heap a = none)
    (hstored : ∀ a ∈ own, ∃ e, s'.heap a = some e)
    (hq : q.Local s' (Function.update A (.thread t) own) E own)
    (hadj : ∀ i j, ¬ p.Adjusts i j) (hdef : s'.dangling = c.shared.dangling) :
    Evolves L c t p s' (.goto q) A E := by
  obtain ⟨hheads, hcount, hguards⟩ := hs
  have ht : Touches L c t s' A (Function.update A (.thread t) own) E E fun r ↦ r = .thread t :=
    .own hheads hkeep hnd horigin hstored
  refine ⟨_, E, _, h.step hl ht ?_ ?_ (by simp) ?_ ?_ ?_ ?_ (hdef.trans h.defined), ht,
    fun _ _ hT ↦ by cases hT⟩
  · rintro _ ⟨⟩
    exact hfits
  · rintro _ ⟨⟩
    rwa [Function.update_self]
  · intro u g hg
    rw [hguards] at hg
    rw [Function.update_of_ne (by simp)]
    exact h.guards u g hg
  · rw [hcount]
    exact h.count
  · intro i j hT
    cases hT
  · intro i j p' hp' ha
    rw [hpc] at hp'
    cases hp'
    exact absurd ha (hadj i j)

/-- **A step in the critical section of a slot**: the entries of the call become `own`, those of the
slot `as`, and the slot contributes `n` to the count. -/
theorem Evolves.writing (own as : List ℕ) (n : ℕ) (h : Shape L c A E) (hl : Locks L ids c)
    (hpc : c.pcs t = some p) (hw : p.Writes L t i j) (hj : j < L.capacity) (hfits : q.Fits L)
    (hheads : ∀ i' j', ¬ (i' = i ∧ j' = j) → s'.heads i' j' = c.shared.heads i' j')
    (hkeep : ∀ r, r ≠ .thread t → r ≠ .slot i j → ∀ a ∈ A r, s'.heap a = c.shared.heap a)
    (hchain : Chain s'.heap (s'.heads i j) as) (hnd : (own ++ as).Nodup)
    (horigin : ∀ a ∈ own ++ as, a ∈ A (.thread t) ++ A (.slot i j))
    (hstored : ∀ a ∈ own ++ as, ∃ e, s'.heap a = some e)
    (hq : q.Local s' (A.move t i j own as) (setSlot E i j n) own)
    (hguards : s'.guards = c.shared.guards)
    (hcount : s'.count = Function.update c.shared.count i (c.shared.count i + (n - E i j : ℤ)))
    (hsettled : q.Adjusts i j ∨ n = as.length)
    (hadj : ∀ i' j', p.Adjusts i' j' → i' = i ∧ j' = j) (hdef : s'.dangling = c.shared.dangling) :
    Evolves L c t p s' (.goto q) A E := by
  have ht := Touches.slot (x := ⟨i, j, false, t⟩) (A := A) (E := E) own as n
    (mem_holdsOf hpc hw.2) rfl
    hheads hkeep hchain hnd (fun a ha ↦ Or.inl (horigin a ha)) hstored
  refine ⟨_, _, _, h.step hl ht ?_ ?_ (by simp) ?_ ?_ ?_ ?_ (hdef.trans h.defined), ht, ?_⟩
  · rintro _ ⟨⟩
    exact hfits
  · rintro _ ⟨⟩
    rwa [Regions.move_thread]
  · intro u g hg
    rw [hguards] at hg
    have hne : (Region.slot g.hold.shard g.hold.slot : Region ι) ≠ .slot i j := fun he ↦
      hw.no_guard hl hpc hg (Region.slot.inj he)
    rw [A.move_of_ne own as (by simp) hne]
    exact h.guards u g hg
  · intro i'
    rw [hcount]
    by_cases hi : i' = i
    · subst hi
      have hsum := sum_range_update (E i') hj n
      have hset : setSlot E i' j n i' = Function.update (E i') j n := by
        simp [setSlot]
      rw [Function.update_self, h.count, hset]
      omega
    · have hset : setSlot E i j n i' = E i' := by
        simp [setSlot, hi]
      rw [Function.update_of_ne hi, h.count, hset]
  · intro i' j' hT
    obtain hT | hT := hT
    · cases hT
    · obtain ⟨rfl, rfl⟩ := Region.slot.inj hT
      rw [Regions.move_slot, setSlot_self]
      exact hsettled.imp_left fun ha ↦ ⟨q, rfl, ha⟩
  · intro i' j' p' hp' ha hT
    rw [hpc] at hp'
    cases hp'
    obtain ⟨rfl, rfl⟩ := hadj i' j' ha
    exact absurd (Or.inr rfl) hT
  · intro i' j' hT
    obtain hT | hT := hT
    · cases hT
    · obtain ⟨rfl, rfl⟩ := Region.slot.inj hT
      exact hw

end Kinds

/-! ### Detached chains

The chains that `clear` takes out are listed in the order of the swaps, and the call's region is
their entries in that order. -/

section Detached

variable {heap : Mem (Entry K V)} {own chains as : List ℕ} {a : ℕ}

/-- A call that has detached no chain owns no entry. -/
theorem Detached.eq_nil (h : Detached heap own []) : own = [] := by
  obtain ⟨ass, hc, rfl⟩ := h
  cases hc
  rfl

theorem Detached.of_cons (h : Detached heap own (a :: chains)) :
    ∃ as own', own = as ++ own' ∧ Chain heap a as ∧ Detached heap own' chains := by
  obtain ⟨ass, hc, rfl⟩ := h
  cases hc with
  | cons hp hrest => exact ⟨_, _, List.flatten_cons, hp, _, hrest, rfl⟩

/-- One more chain in front. -/
theorem Detached.cons (h : Detached heap own chains) (ha : Chain heap a as) :
    Detached heap (as ++ own) (a :: chains) := by
  obtain ⟨ass, hc, rfl⟩ := h
  exact ⟨as :: ass, .cons ha hc, List.flatten_cons.symm⟩

/-- A detached chain that is not empty starts with the first of the entries. -/
theorem Detached.of_entry (h : Detached heap own (a :: chains)) (hne : a ≠ 0) :
    ∃ e rest, own = a :: rest ∧ heap a = some e ∧ Detached heap rest (e.next :: chains) := by
  obtain ⟨as, own', rfl, hchain, hrest⟩ := h.of_cons
  cases as with
  | nil => exact absurd hchain hne
  | cons b as =>
    obtain ⟨rfl, -, e, he, hafter⟩ := hchain
    exact ⟨e, as ++ own', rfl, he, hrest.cons hafter⟩

/-- One more chain at the end, which is where `clear` puts it. -/
theorem Detached.snoc (h : Detached heap own chains) (ha : Chain heap a as) :
    Detached heap (own ++ as) (chains ++ [a]) := by
  obtain ⟨ass, hc, rfl⟩ := h
  refine ⟨ass ++ [as], List.rel_append hc (.cons ha .nil), ?_⟩
  rw [List.flatten_append, List.flatten_singleton]

end Detached

/-! ### What the accesses find

An access through a link finds an entry, because the link is one of a chain. -/

section Found

variable {as : List ℕ} {prev cur : ℕ}

/-- The place of a walk is in the chain. -/
theorem At.mem (h : At as prev cur) : cur ∈ as := by
  obtain ⟨pre, post, rfl, -⟩ := h
  simp

/-- Before an entry that is not the first of its chain is the one that the walk has passed. -/
theorem At.split (h : At as prev cur) (hne : prev ≠ 0) :
    ∃ pre post, as = pre ++ cur :: post ∧ pre.getLast? = some prev := by
  obtain ⟨pre, post, has, hprev⟩ := h
  refine ⟨pre, post, has, ?_⟩
  cases hlast : pre.getLast? with
  | none =>
    rw [hlast] at hprev
    exact absurd hprev hne
  | some b => rw [hprev, hlast, Option.getD_some]

/-- So is the entry before it, unless the walk is at the head. -/
theorem At.prev_mem (h : At as prev cur) (hne : prev ≠ 0) : prev ∈ as := by
  obtain ⟨pre, post, rfl, hlast⟩ := h.split hne
  exact List.mem_append_left _ (List.mem_of_getLast? hlast)

variable [Fintype ι] {c : Config ι (Store ι K V) (Pc ι K V)} {t : ι} {p : Pc ι K V} {A : Regions ι}
  {E : ℕ → ℕ → ℕ} {a : ℕ}

omit [DecidableEq ι] [Fintype ι] in
/-- **Every entry that a call goes to is there.** -/
theorem Shape.derefs (h : Shape L c A E) (hpc : c.pcs t = some p) (hp : p.Derefs a) :
    ∃ e, c.shared.heap a = some e := by
  have hlocal := h.here t p hpc
  cases p with
  | walk v prev cur | unlinkLoad v prev cur =>
    obtain rfl := hp
    exact h.stored _ _ hlocal.2.mem
  | replace v cur value =>
    obtain rfl := hp
    exact h.stored _ _ hlocal.2
  | unlinkStore v prev cur next =>
    obtain ⟨hne, rfl⟩ := hp
    exact h.stored _ _ (hlocal.2.1.prev_mem hne)
  | countDown v cur =>
    obtain rfl := hp
    exact h.stored (.thread t) _ (hlocal.1 ▸ List.mem_cons_self ..)
  | freeEntry v cur value =>
    obtain rfl := hp
    have hown : A (.thread t) = [cur] := hlocal
    exact h.stored (.thread t) _ (hown ▸ List.mem_cons_self ..)
  | detachCount i j chains chain cur count =>
    obtain rfl := hp
    obtain ⟨own, pre, post, hown, -⟩ := hlocal
    refine h.stored (.thread t) _ ?_
    rw [hown]
    simp
  | dropChains i chains =>
    cases chains with
    | nil => exact hp.elim
    | cons cur chains =>
      obtain ⟨hne, rfl⟩ := hp
      have hd : Detached c.shared.heap (A (.thread t)) (cur :: chains) := hlocal
      obtain ⟨e, -, -, he, -⟩ := hd.of_entry hne
      exact ⟨e, he⟩
  | _ => exact hp.elim

end Found

/-! ### The steps

Accesses inside a lock are quiet. -/

section Exec

variable [Fintype ι] [BEq K] [Hashable K] {ids : SerialMutex.OwnerIds ι} {adaptive : ℕ}
  {c : Config ι (Store ι K V) (Pc ι K V)} {t : ι} {ch : Choice ι} {A : Regions ι} {E : ℕ → ℕ → ℕ}
  {s' : Store ι K V} {o : Outcome (Pc ι K V) (Ret ι K V)}

omit [Fintype ι] [BEq K] [Hashable K] [DecidableEq ι] in
theorem adjusts_countNext (i j : ℕ) (chains : List ℕ) (chain cur count : ℕ) :
    (countNext i j chains chain cur count : Pc ι K V).Adjusts i j := by
  unfold countNext
  split_ifs
  · exact ⟨rfl, rfl⟩
  · exact ⟨rfl, rfl⟩

/-- An access of a shard lock inside a call. -/
theorem exec_shape_shard {p : RawMutex.Pc} {k : After ι K V} (h : Shape L c A E)
    (hl : Locks L ids c) (hL : 0 < L.capacity) (hpc : c.pcs t = some (.shard p k))
    (he : exec L ids adaptive t ch c.shared (.shard p k) = some (s', o)) :
    Evolves L c t (.shard p k) s' o A E := by
  have hfits := exec_fits hL (h.fits t _ hpc) he
  have hk : k.Local c.shared.heap A (A (.thread t)) := h.here t _ hpc
  have hadj : ∀ i j, (Pc.shard p k : Pc ι K V).Adjusts i j → ∃ q, o.pc = some q ∧ q.Adjusts i j :=
    fun _ _ ha ↦ ha.elim
  simp only [exec] at he
  split at he
  · cases he
  · cases he
    exact .quiet h hl hpc ⟨rfl, rfl, rfl, rfl⟩ hfits hk h.guards hadj
  · rename_i l e hr
    have hstore := resume_store (L := L) (t := t) (c.shared.setShardLock k.target l) k e
    have hsame : SameEntries c.shared (resume L t (c.shared.setShardLock k.target l) k e).1 := by
      obtain hs | ⟨g, -, hs⟩ := hstore
      · rw [hs]
        exact ⟨rfl, rfl, rfl, rfl⟩
      · rw [hs]
        exact ⟨rfl, rfl, rfl, rfl⟩
    have hleaves : Leaves (resume L t (c.shared.setShardLock k.target l) k e).1 A E (A (.thread t))
        (resume L t (c.shared.setShardLock k.target l) k e).2 :=
      (leaves_resume (s := c.shared.setShardLock k.target l) hk e).same hsame.heap hsame.heads
    obtain ⟨rfl, rfl⟩ : (resume L t (c.shared.setShardLock k.target l) k e).1 = s' ∧
        (resume L t (c.shared.setShardLock k.target l) k e).2 = o := by
      rw [Option.some.inj he]
      exact ⟨rfl, rfl⟩
    refine .quiet h hl hpc hsame hfits hleaves (fun u g hg ↦ ?_) hadj
    obtain hs | ⟨g₀, rfl, hs⟩ := hstore
    · rw [hs] at hg
      exact h.guards u g hg
    · -- the guard that the call returns is the only new one
      rw [hs] at hg
      change g ∈ Function.update c.shared.guards t (c.shared.guards t ++ [g₀]) u at hg
      by_cases hu : u = t
      · subst hu
        rw [Function.update_self, List.mem_append, List.mem_singleton] at hg
        obtain hg | rfl := hg
        · exact h.guards _ g hg
        · exact hk.2
      · rw [Function.update_of_ne hu] at hg
        exact h.guards u g hg

/-- An access of a slot mutex inside a call. -/
theorem exec_shape_slot {p : SerialMutex.Pc ι} {k : Next ι K V} (h : Shape L c A E)
    (hl : Locks L ids c) (hL : 0 < L.capacity) (hpc : c.pcs t = some (.slot p k))
    (he : exec L ids adaptive t ch c.shared (.slot p k) = some (s', o)) :
    Evolves L c t (.slot p k) s' o A E := by
  have hfits := exec_fits hL (h.fits t _ hpc) he
  have hk : k.Local c.shared.heap (A (.thread t)) := h.here t _ hpc
  have hadj : ∀ i j, (Pc.slot p k : Pc ι K V).Adjusts i j → ∃ q, o.pc = some q ∧ q.Adjusts i j :=
    fun _ _ ha ↦ ha.elim
  simp only [exec] at he
  split at he
  · cases he
  · cases he
    exact .quiet h hl hpc ⟨rfl, rfl, rfl, rfl⟩ hfits hk h.guards hadj
  · rename_i l e hr
    have hstore :=
      resumeSlot_store (L := L) (t := t) (c.shared.setSlotLock k.target.1 k.target.2 l) k e
    have ho := leaves_resumeSlot (L := L) (t := t) (E := E) (A := A)
      (s := c.shared.setSlotLock k.target.1 k.target.2 l) hk e
    rw [Option.some.inj he] at hstore ho
    dsimp only at hstore ho
    subst hstore
    exact .quiet h hl hpc ⟨rfl, rfl, rfl, rfl⟩ hfits ho h.guards hadj

/-! ### Inside a slot

The steps of `insert` and `remove` between the lock of their slot and its release. Only here do
links change that other calls can reach. -/

section Visits

variable {v : Visit K V} {entry prev cur : ℕ}

omit [BEq K] [Hashable K]

omit [DecidableEq ι] [Fintype ι] in
/-- An entry that is not in a region is another one than those in it. -/
theorem Shape.heap_setEntry {r : Region ι} {a : ℕ} (h : Shape L c A E) {x : Option (Entry K V)}
    (ha : a ∈ A r) {b : ℕ} (hb : (∃ r', r' ≠ r ∧ b ∈ A r') ∨ c.shared.heap b = none) :
    (c.shared.setEntry b x).heap a = c.shared.heap a := by
  refine Function.update_of_ne ?_ _ _
  rintro rfl
  obtain ⟨r', hne, hb⟩ | hb := hb
  · exact hne (h.disjoint _ _ _ hb ha)
  · obtain ⟨e, he⟩ := h.stored r a ha
    rw [hb] at he
    cases he

/-- `insert` writes a new entry. -/
theorem evolves_newEntry {key : K} {value : V} {e : Entry K V} (h : Shape L c A E)
    (hl : Locks L ids c) (hpc : c.pcs t = some (.newEntry v key value)) (hne : entry ≠ 0)
    (hfree : c.shared.heap entry = none) (hnext : e.next = c.shared.heads v.shard v.slot) :
    Evolves L c t (.newEntry v key value) (c.shared.setEntry entry (some e))
      (.goto (.linkEntry v entry))
      A E := by
  have hf := h.fits t _ hpc
  refine .owning [entry] h hl hpc ⟨rfl, rfl, rfl⟩ ⟨hf.slot, hf.mutates⟩
    (fun r _ a ha ↦ h.heap_setEntry ha (Or.inr hfree)) (List.nodup_singleton _) (fun a ha ↦ ?_)
    (fun a ha ↦ ?_) ⟨rfl, hne, e, Function.update_self .., hnext⟩ (fun _ _ ha ↦ ha.elim) rfl
  · obtain rfl := List.mem_singleton.1 ha
    exact Or.inr hfree
  · obtain rfl := List.mem_singleton.1 ha
    exact ⟨e, Function.update_self ..⟩

/-- `insert` links the new entry as the head of its slot. -/
theorem evolves_linkEntry (h : Shape L c A E) (hl : Locks L ids c)
    (hpc : c.pcs t = some (.linkEntry v entry)) :
    Evolves L c t (.linkEntry v entry) (c.shared.setHead v.shard v.slot entry) (.goto (.countUp v))
      A E := by
  have hf := h.fits t _ hpc
  obtain ⟨hown, hne, e, he, hnext⟩ := h.here t _ hpc
  have hw : (Pc.linkEntry v entry : Pc ι K V).Writes L t v.shard v.slot :=
    writes_of_visit rfl rfl hf.mutates
  have hcounted := h.counted hl hpc hw fun ha ↦ ha.elim
  have hfresh : entry ∉ A (.slot v.shard v.slot) := fun hmem ↦ by
    have := h.disjoint (.thread t) _ entry (hown ▸ List.mem_cons_self ..) hmem
    cases this
  refine .writing [] (entry :: A (.slot v.shard v.slot)) (E v.shard v.slot) h hl hpc hw
    (hf.slot _ rfl) ⟨hf.slot, hf.mutates⟩ (fun i j hij ↦ setHead_of_ne _ _ hij)
      (fun _ _ _ _ _ ↦ rfl) ?_ ?_
    (fun a ha ↦ ?_) (fun a ha ↦ ?_) ⟨rfl, ?_⟩ rfl ?_ (Or.inl ⟨rfl, rfl⟩) (fun _ _ ha ↦ ha.elim) rfl
  · rw [setHead_self]
    refine ⟨rfl, hne, e, he, ?_⟩
    rw [show next e = c.shared.heads v.shard v.slot from hnext]
    exact h.chain _ _
  · exact List.nodup_cons.2 ⟨hfresh, h.nodup _⟩
  · rw [hown]
    exact ha
  · obtain rfl | ha := List.mem_cons.1 ha
    · exact ⟨e, he⟩
    · exact h.stored _ a ha
  · rw [setSlot_self, Regions.move_slot, List.length_cons, hcounted]
  · simp [Store.setHead]

/-- `insert` counts the new entry. -/
theorem evolves_countUp (h : Shape L c A E) (hl : Locks L ids c)
    (hpc : c.pcs t = some (.countUp v)) :
    Evolves L c t (.countUp v) (c.shared.addCount v.shard 1)
      (.goto (unlock t v (.value none))) A E := by
  have hf := h.fits t _ hpc
  obtain ⟨hown, hE⟩ := h.here t _ hpc
  refine .writing [] (A (.slot v.shard v.slot)) (E v.shard v.slot + 1) h hl hpc
    (writes_of_visit rfl rfl hf.mutates) (hf.slot _ rfl) ⟨hf.slot, trivial⟩ (fun _ _ _ ↦ rfl)
    (fun _ _ _ _ _ ↦ rfl) (h.chain _ _) (h.nodup _) (fun a ha ↦ List.mem_append_right _ ha)
    (fun a ha ↦ h.stored _ a ha) rfl rfl ?_ (Or.inr hE) (fun _ _ ha ↦ ⟨ha.1.symm, ha.2.symm⟩) rfl
  simp [Store.addCount]

/-- `insert` on a key that is there writes the value. -/
theorem evolves_replace {value : V} {e : Entry K V} (h : Shape L c A E) (hl : Locks L ids c)
    (hpc : c.pcs t = some (.replace v cur value)) (he : c.shared.heap cur = some e)
    (r : Ret ι K V) :
    Evolves L c t (.replace v cur value) (c.shared.setEntry cur (some { e with value := value }))
      (.goto (unlock t v r)) A E := by
  have hf := h.fits t _ hpc
  obtain ⟨hown, hmem⟩ := h.here t _ hpc
  have hw : (Pc.replace v cur value : Pc ι K V).Writes L t v.shard v.slot :=
    writes_of_visit rfl rfl hf.mutates
  refine .writing [] (A (.slot v.shard v.slot)) (E v.shard v.slot) h hl hpc hw
    (hf.slot _ rfl) ⟨hf.slot, trivial⟩ (fun _ _ _ ↦ rfl)
    (fun r _ hr a ha ↦ h.heap_setEntry ha (Or.inl ⟨_, Ne.symm hr, hmem⟩))
    ((h.chain _ _).update_of_next he rfl) (h.nodup _) (fun a ha ↦ List.mem_append_right _ ha)
    (fun a ha ↦ ?_) rfl rfl ?_ (Or.inr (h.counted hl hpc hw fun ha ↦ ha.elim))
      (fun _ _ ha ↦ ha.elim) rfl
  · by_cases hac : a = cur
    · subst hac
      exact ⟨_, Function.update_self ..⟩
    · obtain ⟨e', he'⟩ := h.stored _ a ha
      exact ⟨e', (Function.update_of_ne hac _ _).trans he'⟩
  · simp [Store.setEntry]

/-- `remove` takes the first entry out of the chain of its slot. -/
theorem evolves_unlinkHead {next : ℕ} (h : Shape L c A E) (hl : Locks L ids c)
    (hpc : c.pcs t = some (.unlinkStore v 0 cur next)) :
    Evolves L c t (.unlinkStore v 0 cur next) (c.shared.setHead v.shard v.slot next)
      (.goto (.countDown v cur)) A E := by
  have hf := h.fits t _ hpc
  obtain ⟨hown, ⟨pre, post, hA, hprev⟩, e, he, rfl⟩ := h.here t _ hpc
  have hw : (Pc.unlinkStore v 0 cur e.next : Pc ι K V).Writes L t v.shard v.slot :=
    writes_of_visit rfl rfl hf.mutates
  have hchain := h.chain v.shard v.slot
  have hcounted := h.counted hl hpc hw fun ha ↦ ha.elim
  rw [hA] at hchain hcounted
  -- no entry is at the null address, so nothing is before `cur`
  obtain rfl : pre = [] := by
    cases hlast : pre.getLast? with
    | none => exact List.getLast?_eq_none_iff.1 hlast
    | some b =>
      rw [hlast, Option.getD_some] at hprev
      exact absurd hprev.symm
        (hchain.exists_of_mem (List.mem_append_left _ (List.mem_of_getLast? hlast))).1
  have hmem : ∀ a, a ∈ cur :: post → a ∈ A (.slot v.shard v.slot) := fun a ha ↦ hA ▸ ha
  refine .writing [cur] post (E v.shard v.slot) h hl hpc hw (hf.slot _ rfl)
    ⟨hf.slot, hf.mutates⟩ (fun i j hij ↦ setHead_of_ne _ _ hij) (fun _ _ _ _ _ ↦ rfl) ?_ ?_
    (fun a ha ↦ List.mem_append_right _ (hmem a ha))
      (fun a ha ↦ h.stored _ a (hmem a ha)) ⟨rfl, ?_⟩ rfl ?_
    (Or.inl ⟨rfl, rfl⟩) (fun _ _ ha ↦ ha.elim) rfl
  · rw [setHead_self]
    exact hchain.after he
  · have hnd := h.nodup (.slot v.shard v.slot)
    rwa [hA] at hnd
  · rw [setSlot_self, Regions.move_slot, hcounted]
    simp
  · simp [Store.setHead]

/-- `remove` takes an entry out of the chain, at the entry before. -/
theorem evolves_unlinkAfter {next : ℕ} {ep : Entry K V} (h : Shape L c A E) (hl : Locks L ids c)
    (hpc : c.pcs t = some (.unlinkStore v prev cur next)) (hne : prev ≠ 0)
    (hep : c.shared.heap prev = some ep) :
    Evolves L c t (.unlinkStore v prev cur next)
      (c.shared.setEntry prev (some { ep with next := next })) (.goto (.countDown v cur)) A E := by
  have hf := h.fits t _ hpc
  obtain ⟨hown, hat, e, he, rfl⟩ := h.here t _ hpc
  have hw : (Pc.unlinkStore v prev cur e.next : Pc ι K V).Writes L t v.shard v.slot :=
    writes_of_visit rfl rfl hf.mutates
  have hchain := h.chain v.shard v.slot
  have hnd := h.nodup (.slot v.shard v.slot)
  have hcounted := h.counted hl hpc hw fun ha ↦ ha.elim
  have hmem := hat.prev_mem hne
  obtain ⟨pre, post, hA, hlast⟩ := hat.split hne
  rw [hA] at hchain hnd hcounted
  have hperm : List.Perm ([cur] ++ (pre ++ post)) (pre ++ cur :: post) :=
    show List.Perm (cur :: (pre ++ post)) _ from List.perm_middle.symm
  have hsub : ∀ a ∈ [cur] ++ (pre ++ post), a ∈ A (.slot v.shard v.slot) := fun a ha ↦ by
    rw [hA]
    exact hperm.mem_iff.1 ha
  refine .writing [cur] (pre ++ post) (E v.shard v.slot) h hl hpc hw (hf.slot _ rfl)
    ⟨hf.slot, hf.mutates⟩ (fun _ _ _ ↦ rfl)
    (fun r _ hr a ha ↦ h.heap_setEntry ha (Or.inl ⟨_, Ne.symm hr, hmem⟩))
    (hchain.unlink hnd he hlast hep) (hperm.nodup_iff.2 hnd)
    (fun a ha ↦ List.mem_append_right _ (hsub a ha)) (fun a ha ↦ ?_) ⟨rfl, ?_⟩ rfl ?_
    (Or.inl ⟨rfl, rfl⟩) (fun _ _ ha ↦ ha.elim) rfl
  · by_cases hap : a = prev
    · subst hap
      exact ⟨_, Function.update_self ..⟩
    · obtain ⟨e', he'⟩ := h.stored _ a (hsub a ha)
      exact ⟨e', (Function.update_of_ne hap _ _).trans he'⟩
  · rw [setSlot_self, Regions.move_slot, hcounted]
    simp only [List.length_append, List.length_cons]
    omega
  · simp [Store.setEntry]

/-- `remove` takes the entry off the count. -/
theorem evolves_countDown {value : V} (h : Shape L c A E) (hl : Locks L ids c)
    (hpc : c.pcs t = some (.countDown v cur)) :
    Evolves L c t (.countDown v cur) (c.shared.addCount v.shard (-1))
      (.goto (.freeEntry v cur value))
      A E := by
  have hf := h.fits t _ hpc
  obtain ⟨hown, hE⟩ := h.here t _ hpc
  refine .writing [cur] (A (.slot v.shard v.slot)) (A (.slot v.shard v.slot)).length
    h hl hpc (writes_of_visit rfl rfl hf.mutates) (hf.slot _ rfl) ⟨hf.slot, hf.mutates⟩
      (fun _ _ _ ↦ rfl)
    (fun _ _ _ _ _ ↦ rfl) (h.chain _ _) ?_ (fun a ha ↦ hown ▸ ha)
      (fun a ha ↦ ?_) rfl rfl ?_ (Or.inr rfl)
    (fun _ _ ha ↦ ⟨ha.1.symm, ha.2.symm⟩) rfl
  · refine List.nodup_cons.2 ⟨fun hmem ↦ ?_, h.nodup _⟩
    have := h.disjoint (.thread t) _ cur (hown ▸ List.mem_cons_self ..) hmem
    cases this
  · obtain ha | ha := List.mem_append.1 ha
    · exact h.stored (.thread t) a (hown ▸ ha)
    · exact h.stored _ a ha
  · simp [Store.addCount, hE]

/-- A call that frees the first of its own entries. -/
theorem evolves_free {p q : Pc ι K V} {own : List ℕ} (h : Shape L c A E) (hl : Locks L ids c)
    (hpc : c.pcs t = some p) (hown : A (.thread t) = cur :: own) (hfits : q.Fits L)
    (hq : q.Local (c.shared.setEntry cur none) (Function.update A (.thread t) own) E own)
    (hadj : ∀ i j, ¬ p.Adjusts i j) :
    Evolves L c t p (c.shared.setEntry cur none) (.goto q) A E := by
  have hnd := h.nodup (.thread t)
  have hmem : ∀ a ∈ cur :: own, a ∈ A (.thread t) := fun a ha ↦ hown ▸ ha
  rw [hown] at hnd
  obtain ⟨hnot, hnd⟩ := List.nodup_cons.1 hnd
  refine .owning own h hl hpc ⟨rfl, rfl, rfl⟩ hfits
    (fun r hr a ha ↦ h.heap_setEntry ha (Or.inl ⟨_, Ne.symm hr, hmem cur (List.mem_cons_self ..)⟩))
      hnd
    (fun a ha ↦ Or.inl (hmem a (List.mem_cons_of_mem _ ha))) (fun a ha ↦ ?_) hq hadj rfl
  obtain ⟨e, he⟩ := h.stored _ a (hmem a (List.mem_cons_of_mem _ ha))
  exact ⟨e, (Function.update_of_ne (ne_of_mem_of_not_mem ha hnot) _ _).trans he⟩

/-- `try_detach` swaps the head of a slot for null. -/
theorem evolves_detachSwap {i j : ℕ} {chains : List ℕ} (h : Shape L c A E) (hl : Locks L ids c)
    (hpc : c.pcs t = some (.detachSwap i j chains))
    (hfits : (countNext i j chains (c.shared.heads i j) (c.shared.heads i j) 0 : Pc ι K V).Fits L) :
    Evolves L c t (.detachSwap i j chains) (c.shared.setHead i j 0)
      (.goto (countNext i j chains (c.shared.heads i j) (c.shared.heads i j) 0)) A E := by
  have hd : Detached c.shared.heap (A (.thread t)) chains := h.here t _ hpc
  have hj : j < L.capacity := (h.fits t _ hpc).slot _ rfl
  have hw : (Pc.detachSwap i j chains : Pc ι K V).Writes L t i j := writes_of_taken rfl rfl hj
  have hcounted := h.counted hl hpc hw fun ha ↦ ha.elim
  refine .writing (A (.thread t) ++ A (.slot i j)) [] (E i j) h hl hpc hw hj hfits
    (fun i j hij ↦ setHead_of_ne _ _ hij) (fun _ _ _ _ _ ↦ rfl) (setHead_self ..) ?_
    (fun a ha ↦ by rwa [List.append_nil] at ha) (fun a ha ↦ ?_) ?_ rfl ?_
    (Or.inl (adjusts_countNext ..)) (fun _ _ ha ↦ ha.elim) rfl
  · rw [List.append_nil]
    refine List.nodup_append.2 ⟨h.nodup _, h.nodup _, ?_⟩
    rintro a ha b hb rfl
    have := h.disjoint _ _ a ha hb
    cases this
  · rw [List.append_nil] at ha
    obtain ha | ha := List.mem_append.1 ha
    · exact h.stored _ a ha
    · exact h.stored _ a ha
  · refine local_countNext [] rfl hd (h.chain i j) (h.chain i j) (Regions.move_slot ..) ?_
    rw [setSlot_self]
    exact hcounted
  · simp [Store.setHead]

/-- `try_detach` takes the entries of a detached chain off the count. -/
theorem evolves_detachSub {i j : ℕ} {chains : List ℕ} {chain count : ℕ} (h : Shape L c A E)
    (hl : Locks L ids c) (hpc : c.pcs t = some (.detachSub i j chains chain count))
    (hfits : (swapNext L t i (j + 1) (chains ++ [chain]) : Pc ι K V).Fits L) :
    Evolves L c t (.detachSub i j chains chain count) (c.shared.addCount i (-count))
      (.goto (swapNext L t i (j + 1) (chains ++ [chain]))) A E := by
  obtain ⟨own, as, hown, hd, hchain, rfl, hnil, hE⟩ := h.here t _ hpc
  have hj : j < L.capacity := (h.fits t _ hpc).slot _ rfl
  refine .writing (A (.thread t)) [] 0 h hl hpc (writes_of_taken rfl rfl hj) hj hfits
    (fun _ _ _ ↦ rfl) (fun _ _ _ _ _ ↦ rfl) ?_ ?_ (fun a ha ↦ ?_)
      (fun a ha ↦ ?_) ?_ rfl ?_ (Or.inr rfl)
    (fun _ _ ha ↦ ⟨ha.1.symm, ha.2.symm⟩) rfl
  · have hhead := h.chain i j
    rwa [hnil] at hhead
  · rw [List.append_nil]
    exact h.nodup _
  · rwa [hnil]
  · rw [List.append_nil] at ha
    exact h.stored _ a ha
  · rw [hown]
    exact local_swapNext (hd.snoc hchain)
  · simp [Store.addCount, hE]

end Visits

/-- An access outside of the locks keeps the entries where they belong. -/
theorem Access.shape {p : Pc ι K V} (ha : Access L ids t c.shared p s' o) (h : Shape L c A E)
    (hl : Locks L ids c) (hpc : c.pcs t = some p) (hfits : ∀ q, o.pc = some q → q.Fits L) :
    Evolves L c t p s' o A E := by
  have hlocal := h.here t p hpc
  -- a step that only looks
  have hlook : ∀ {q}, s' = c.shared → o = .goto q → q.Local c.shared A E (A (.thread t)) →
      (∀ i j, p.Adjusts i j → q.Adjusts i j) → Evolves L c t p s' o A E := by
    rintro q rfl rfl hq hadj
    exact .quiet h hl hpc (.refl _) hfits hq h.guards fun i j ha ↦ ⟨q, rfl, hadj i j ha⟩
  cases ha with
  | astray hp hnone =>
    obtain ⟨e, he⟩ := h.derefs hpc hp
    rw [hnone] at he
    cases he
  | loadHead =>
    exact hlook rfl rfl (local_walkNext [] hlocal rfl (h.chain _ _)) fun _ _ ha ↦ ha.elim
  | hit => exact hlook rfl rfl (local_hit hlocal.1 hlocal.2) fun _ _ ha ↦ ha.elim
  | @pass v prev cur e he =>
    obtain ⟨hown, pre, post, hA, rfl⟩ := hlocal
    have hrest := h.chain v.shard v.slot
    rw [hA] at hrest
    have hA' : A (.slot (v.see e).shard (v.see e).slot) = (pre ++ [cur]) ++ post := by
      rw [Visit.see_shard, Visit.see_slot, hA, List.append_assoc]
      rfl
    have hnext := local_walkNext (t := t) (E := E) (pre ++ [cur]) hown hA' (hrest.after he)
    rw [List.getLast?_append, List.getLast?_singleton] at hnext
    exact hlook rfl rfl hnext fun _ _ ha ↦ ha.elim
  | replace he => exact evolves_replace h hl hpc he _
  | newEntry hne hfree => exact evolves_newEntry h hl hpc hne hfree rfl
  | linkEntry => exact evolves_linkEntry h hl hpc
  | countUp => exact evolves_countUp h hl hpc
  | unlinkLoad he => exact hlook rfl rfl ⟨hlocal.1, hlocal.2, _, he, rfl⟩ fun _ _ ha ↦ ha.elim
  | unlinkHead => exact evolves_unlinkHead h hl hpc
  | unlinkAfter hne he => exact evolves_unlinkAfter h hl hpc hne he
  | countDown => exact evolves_countDown h hl hpc
  | freeEntry => exact evolves_free h hl hpc hlocal (hfits _ rfl) rfl fun _ _ ha ↦ ha.elim
  | lenLoad | reentrant => exact hlook rfl rfl hlocal fun _ _ ha ↦ ha.elim
  | owned => exact hlook rfl rfl (local_backOutNext _ _ hlocal) fun _ _ ha ↦ ha.elim
  | detachSwap => exact evolves_detachSwap h hl hpc (hfits _ rfl)
  | @detachCount i j chains chain cur count e he =>
    obtain ⟨own, pre, post, hown, hd, hchain, rfl, hnil, hE⟩ := hlocal
    have hsplit : pre ++ cur :: post = (pre ++ [cur]) ++ post := by simp
    have hnext := local_countNext (j := j) (i := i) (pre ++ [cur])
      (hsplit ▸ hown) hd (hsplit ▸ hchain) (hchain.after he) hnil (hsplit ▸ hE)
    rw [List.length_append, List.length_singleton] at hnext
    refine hlook rfl rfl hnext ?_
    rintro _ _ ⟨rfl, rfl⟩
    exact adjusts_countNext ..
  | detachSub => exact evolves_detachSub h hl hpc (hfits _ rfl)
  | inspect => exact hlook rfl rfl (local_inspectNext hlocal) fun _ _ ha ↦ ha.elim
  | dropped =>
    have hd : Detached c.shared.heap (A (.thread t)) [] := hlocal
    exact .quiet h hl hpc (.refl _) hfits (leaves_clearNext hd.eq_nil) h.guards fun _ _ ha ↦ ha.elim
  | dropNull =>
    have hd : Detached c.shared.heap (A (.thread t)) (0 :: _) := hlocal
    obtain ⟨as, own, hown, hchain, hrest⟩ := hd.of_cons
    obtain rfl : as = [] := hchain.null_iff.1 rfl
    rw [List.nil_append] at hown
    exact hlook rfl rfl (show Detached _ _ _ from hown ▸ hrest) fun _ _ ha ↦ ha.elim
  | dropEntry hne he =>
    have hd : Detached c.shared.heap (A (.thread t)) (_ :: _) := hlocal
    obtain ⟨e', own, hown, he', hrest⟩ := hd.of_entry hne
    obtain rfl := Option.some.inj (he.symm.trans he')
    have hnd := h.nodup (.thread t)
    rw [hown] at hnd
    have hnot := (List.nodup_cons.1 hnd).1
    refine evolves_free h hl hpc hown (hfits _ rfl) ?_ fun _ _ ha ↦ ha.elim
    exact hrest.congr fun b hb ↦ setEntry_of_ne _ _ (ne_of_mem_of_not_mem hb hnot)

/-- **Every access keeps the entries where they belong.** -/
theorem exec_shape {p : Pc ι K V} (h : Shape L c A E) (hl : Locks L ids c) (hL : 0 < L.capacity)
    (hpc : c.pcs t = some p) (he : exec L ids adaptive t ch c.shared p = some (s', o)) :
    Evolves L c t p s' o A E := by
  have hfits := exec_fits hL (h.fits t p hpc) he
  obtain ⟨q, k, rfl⟩ | ⟨q, k, rfl⟩ | ha := exec_cases he
  · exact exec_shape_shard h hl hL hpc he
  · exact exec_shape_slot h hl hL hpc he
  · exact ha.shape h hl hpc hfits

/-! ### Starts of calls and runs

A call starts with nothing of its own. A write through a guard changes a value and no link. -/

omit [Fintype ι] [BEq K] [Hashable K] in
/-- A guard handed over is all that `send` changes, beside the mutex. -/
theorem send_guards {u : ι} {g : Guard ι} {s : Store ι K V} (h : send t u g s = some s')
    (hg : g ∈ s.guards t) :
    SameEntries s s' ∧ ∀ v, ∀ g' ∈ s'.guards v, ∃ w, g' ∈ s.guards w := by
  unfold send at h
  split at h
  · cases h
  cases h
  refine ⟨⟨rfl, rfl, rfl, rfl⟩, fun v g' hg' ↦ ?_⟩
  change g' ∈ Function.update (Function.update s.guards t ((s.guards t).erase g)) u
    (Function.update s.guards t ((s.guards t).erase g) u ++ [g]) v at hg'
  have hgave : ∀ w, g' ∈ Function.update s.guards t ((s.guards t).erase g) w →
      ∃ w, g' ∈ s.guards w := by
    intro w hw
    by_cases hwt : w = t
    · subst hwt
      rw [Function.update_self] at hw
      exact ⟨w, List.mem_of_mem_erase hw⟩
    · rw [Function.update_of_ne hwt] at hw
      exact ⟨w, hw⟩
  by_cases hv : v = u
  · subst hv
    rw [Function.update_self, List.mem_append, List.mem_singleton] at hg'
    obtain hg' | rfl := hg'
    · exact hgave v hg'
    · exact ⟨t, hg⟩
  · rw [Function.update_of_ne hv] at hg'
    exact hgave v hg'

omit [BEq K] [Hashable K] in
/-- A write through a guard keeps every chain. -/
theorem shape_write {g : Guard ι} {e : Entry K V} (h : Shape L c A E) (hl : Locks L ids c)
    (hpc : c.pcs t = none) (hg : g ∈ c.shared.guards t) (hw : g.hold.read = false)
    (he : c.shared.heap g.entry = some e) (v : V) :
    Shape L (c.put t (c.shared.setEntry g.entry (some { e with value := v }),
      (.ret .unit : Outcome (Pc ι K V) (Ret ι K V)))) A E := by
  have hmem := h.guards t g hg
  have hout := h.outside t hpc
  have hx : g.hold ∈ holdsOf L c t := guard_mem_holdsOf hg
  have hA : A.move t g.hold.shard g.hold.slot [] (A (.slot g.hold.shard g.hold.slot)) = A := by
    rw [Regions.move, ← hout, Function.update_eq_self, Function.update_eq_self]
  have hE : setSlot E g.hold.shard g.hold.slot (E g.hold.shard g.hold.slot) = E := by
    rw [setSlot, Function.update_eq_self, Function.update_eq_self]
  have ht : Touches L c t (c.shared.setEntry g.entry (some { e with value := v })) A _ E _ _ :=
    .slot [] (A (.slot g.hold.shard g.hold.slot)) (E g.hold.shard g.hold.slot) hx hw
    (fun _ _ _ ↦ rfl) (fun r _ hr a ha ↦ h.heap_setEntry ha (Or.inl ⟨_, Ne.symm hr, hmem⟩))
    ((h.chain _ _).update_of_next he rfl) (h.nodup _)
    (fun a ha ↦ Or.inl (List.mem_append_right _ ha)) (fun a ha ↦ by
      by_cases hae : a = g.entry
      · subst hae
        exact ⟨_, Function.update_self ..⟩
      · obtain ⟨e', he'⟩ := h.stored _ a ha
        exact ⟨e', (Function.update_of_ne hae _ _).trans he'⟩)
  rw [hA, hE] at ht
  refine h.step hl ht (fun _ hq ↦ by cases hq) (fun _ hq ↦ by cases hq) (fun _ ↦ hout)
    h.guards h.count
    ?_ ?_ h.defined
  · intro i j hT
    obtain hT | hT := hT
    · cases hT
    · obtain ⟨rfl, rfl⟩ := Region.slot.inj hT
      -- a call at the update of the count would have the slot for writing
      exact Or.inr (h.settled _ _ fun u p hp ha ↦
        (ha.writes (h.fits u p hp)).no_guard hl hp hg ⟨rfl, rfl⟩)
  · intro i j p hp
    rw [hpc] at hp
    cases hp

omit [BEq K] in
/-- **Every start of a call keeps the entries where they are.** -/
theorem enter_shape {op : Op ι K V} (h : Shape L c A E) (hl : Locks L ids c) (hL : 0 < L.capacity)
    (hpc : c.pcs t = none) (he : enter L t op c.shared = some (s', o)) :
    Shape L (c.put t (s', o)) A E := by
  have hfits := enter_fits hL he
  have hout := h.outside t hpc
  have hadj : ∀ i j p, c.pcs t = some p → p.Adjusts i j → ∃ q, o.pc = some q ∧ q.Adjusts i j := by
    intro i j p hp
    rw [hpc] at hp
    cases hp
  have hthere : ∀ g ∈ c.shared.guards t, c.shared.heap g.entry ≠ none := fun g hg ↦ by
    obtain ⟨e, he⟩ := h.stored _ _ (h.guards t g hg)
    rw [he]
    exact Option.some_ne_none e
  cases op with
  | insert key value | get key | getMut key | remove key | containsKey key =>
    cases he
    exact h.quiet hl (.refl _) hfits hout h.guards hadj
  | clear =>
    cases he
    exact h.quiet hl (.refl _) hfits (leaves_clearNext hout) h.guards hadj
  | len =>
    cases he
    exact h.quiet hl (.refl _) hfits (leaves_lenNext _ hout) h.guards hadj
  | asVec =>
    cases he
    exact h.quiet hl (.refl _) hfits (leaves_asVecNext _ hout) h.guards hadj
  | deref g =>
    simp only [enter] at he
    split_ifs at he with hg
    split at he
    · cases he
      exact h.quiet hl (.refl _) hfits hout h.guards hadj
    · rename_i hnone
      exact absurd hnone (hthere g hg)
  | write g v =>
    simp only [enter] at he
    split_ifs at he with hg
    split at he
    · rename_i e hent
      cases he
      exact shape_write h hl hpc hg.1 hg.2 hent v
    · rename_i hnone
      exact absurd hnone (hthere g hg.1)
  | dropGuard g =>
    simp only [enter] at he
    split_ifs at he with hg
    cases he
    refine h.quiet hl ⟨rfl, rfl, rfl, rfl⟩ hfits hout (fun u g' hg' ↦ ?_) hadj
    change g' ∈ Function.update c.shared.guards t ((c.shared.guards t).erase g) u at hg'
    by_cases hu : u = t
    · subst hu
      rw [Function.update_self] at hg'
      exact h.guards u g' (List.mem_of_mem_erase hg')
    · rw [Function.update_of_ne hu] at hg'
      exact h.guards u g' hg'
  | sendGuard g u =>
    simp only [enter] at he
    split_ifs at he with hg
    obtain ⟨x, hx, hx'⟩ := Option.map_eq_some_iff.1 he
    cases hx'
    obtain ⟨hs, hguards⟩ := send_guards hx hg
    refine h.quiet hl hs hfits hout (fun v g' hg' ↦ ?_) hadj
    obtain ⟨w, hw⟩ := hguards v g' hg'
    exact h.guards w g' hw

omit [Fintype ι] [BEq K] [Hashable K] [DecidableEq ι] in
/-- The empty map has the shape. -/
theorem shape_init : Shape L (init : Config ι (Store ι K V) (Pc ι K V))
    (fun _ ↦ []) fun _ _ ↦ 0 where
  chain _ _ := rfl
  nodup _ := List.nodup_nil
  disjoint _ _ _ ha := by cases ha
  stored _ _ ha := by cases ha
  fits _ _ hp := by cases hp
  here _ _ hp := by cases hp
  outside _ _ := rfl
  guards _ _ hg := by cases hg
  count i := by
    simp [init, Store.new]
  settled _ _ _ := rfl
  defined := rfl

/-- **Along every run, every entry is where it belongs.** -/
theorem reach_shape {ok : Config ι (Store ι K V) (Pc ι K V) → Label ι (Op ι K V) → Prop}
    (hL : 0 < L.capacity) (h : Reach (atomicHashMap L ids adaptive) ok init c) :
    Locks L ids c ∧ ∃ A E, Shape L c A E := by
  refine ⟨reach_locks h, ?_⟩
  refine h.invariant (I := fun c ↦ ∃ A E, Shape L c A E) ⟨_, _, shape_init⟩ ?_ ?_
  · rintro c t op ⟨s', o⟩ hr ⟨A, E, hs⟩ - hpc he
    exact ⟨A, E, enter_shape hs (reach_locks hr) hL hpc he⟩
  · rintro c t ch p ⟨s', o⟩ hr ⟨A, E, hs⟩ - hpc he
    obtain ⟨A', E', -, hs', -⟩ := exec_shape hs (reach_locks hr) hL hpc he
    exact ⟨A', E', hs'⟩

end Exec

end Shared

end AtomicHashMap

end Crossync
