import Crossync.Atomic.HashMapGuards
import Crossync.Atomic.HashMapDetach

/-!
# Clearing a shard of `AtomicHashMap` among other threads

What the other threads can do while a call is inside `try_detach`, and what `try_detach` has done
when it returns. The shard is held exclusively, so no other call is in it; a guard on one of its
slots lets its holder change the guarded value, drop it or hand it over, and no more.

The main result is `try_detach_all_or_nothing`, about a stretch of a run from the first
`try_write_guard` of `try_detach`: it comes to an end after a bounded number of its own steps, none
of which waits, and either everything it had taken is given back and the shard is as it was
(`Restored`), or every chain is detached (`Cleared`). Before that no other thread sees any head or
count of the shard, and from the first swap on no guard on it is live.

## In disguise

While `try_detach` swaps heads, the map is in states that no call should see. That none does is
stated by replacing the heads and the count of the shard by others (`disguise`): an access of
another thread that is performed on the disguised store gives the same result in disguise. This is
stronger than saying that no other thread is in the shard, and it is what "no other thread sees any
of it" means.
-/

open Interleave Linked

namespace Crossync

namespace AtomicHashMap

namespace Shared

variable {ι K V : Type*} [DecidableEq ι]

/-! ### Who looks at a shard

The accesses that read or write a head or the count of a shard are made with the shard in hand. -/

/-- The access at a program point reads or writes a head, the count or a linked entry of shard
`i`. -/
def Pc.Looks (i : ℕ) : Pc ι K V → Prop
  | .loadHead v | .walk v _ _ | .replace v _ _ | .newEntry v _ _ | .linkEntry v _ | .countUp v
  | .unlinkLoad v _ _ | .unlinkStore v _ _ _ | .countDown v _ => v.shard = i
  | .lenLoad i' _ | .detachSwap i' _ _ | .detachCount i' _ _ _ _ _ | .detachSub i' _ _ _ _ => i' = i
  | _ => False

omit [DecidableEq ι] in
/-- A call that looks at a shard has it, shared or exclusively. -/
theorem Pc.Looks.holds {i : ℕ} {p : Pc ι K V} (h : p.Looks i) :
    p.shares = some i ∨ p.seals = some i := by
  cases p with
  | loadHead v | walk v _ _ | replace v _ _ | newEntry v _ _ | linkEntry v _ | countUp v
  | unlinkLoad v _ _
    | unlinkStore v _ _ _ | countDown v _ => exact Or.inl (congrArg some h)
  | lenLoad i' n => exact Or.inl (congrArg some h)
  | detachSwap i' j chains | detachCount i' j chains chain cur count
  | detachSub i' j chains chain count =>
    exact Or.inr (congrArg some h)
  | _ => exact h.elim

/-- The store with other heads and another count of shard `i`. -/
def Store.disguise (s : Store ι K V) (i : ℕ) (heads : ℕ → ℕ) (count : ℤ) : Store ι K V :=
  { s with heads := Function.update s.heads i heads, count := Function.update s.count i count }

section Disguise

variable {L : Layout} {t : ι} {i i' j : ℕ} (s : Store ι K V) (heads : ℕ → ℕ) (count : ℤ)

/-- What follows a call of a shard's lock does not depend on the shard in disguise. -/
theorem resume_disguise (k : After ι K V) (r : RawMutex.Ret) :
    resume L t (s.disguise i heads count) k r =
      ((resume L t s k r).1.disguise i heads count, (resume L t s k r).2) := by
  cases k with
  | attempt i' =>
    rcases r with _ | _ | _
    · rfl
    · rfl
    · rfl
  | backOut i' panics =>
    cases panics
    · rfl
    · rfl
  | _ => rfl

omit [DecidableEq ι] in
/-- What follows a call of a slot's lock does not depend on it either. -/
theorem resumeSlot_disguise (k : Next ι K V) (r : SerialMutex.Ret) :
    resumeSlot L t (s.disguise i heads count) k r =
      ((resumeSlot L t s k r).1.disguise i heads count, (resumeSlot L t s k r).2) := by
  rw [resumeSlot_store]
  have hsame : (resumeSlot L t (s.disguise i heads count) k r).2 = (resumeSlot L t s k r).2 := by
    unfold resumeSlot
    split <;> rfl
  rw [← hsame]
  exact Prod.ext (resumeSlot_store _ k r) rfl

omit [DecidableEq ι] in
theorem heads_disguise (h : i' ≠ i) : (s.disguise i heads count).heads i' = s.heads i' :=
  Function.update_of_ne h _ _

omit [DecidableEq ι] in
theorem setHead_disguise (h : i' ≠ i) (q : ℕ) :
    (s.disguise i heads count).setHead i' j q = (s.setHead i' j q).disguise i heads count := by
  simp only [Store.setHead, Store.disguise, Function.update_of_ne h, Function.update_comm h]

omit [DecidableEq ι] in
theorem addCount_disguise (h : i' ≠ i) (n : ℤ) :
    (s.disguise i heads count).addCount i' n = (s.addCount i' n).disguise i heads count := by
  simp only [Store.addCount, Store.disguise, Function.update_of_ne h, Function.update_comm h]

variable [BEq K] [Hashable K] {ids : SerialMutex.OwnerIds ι} {adaptive : ℕ} {ch : Choice ι}
  {p : Pc ι K V}

variable [Fintype ι]

/-- **An access that does not look at a shard does the same whatever its heads and its count
are.** -/
theorem exec_disguise (hp : ¬ p.Looks i) :
    exec L ids adaptive t ch (s.disguise i heads count) p =
      (exec L ids adaptive t ch s p).map fun r ↦ (r.1.disguise i heads count, r.2) := by
  cases p with
  | shard p k =>
    simp only [exec]
    rw [show (s.disguise i heads count).shardLock = s.shardLock from rfl]
    cases RawMutex.exec adaptive t ch (s.shardLock k.target) p with
    | none => rfl
    | some x =>
      obtain ⟨l, e⟩ := x
      cases e with
      | goto p' => rfl
      | ret r => exact congrArg some (resume_disguise (s.setShardLock k.target l) heads count k r)
  | slot p k =>
    simp only [exec]
    rw [show (s.disguise i heads count).slotLock = s.slotLock from rfl]
    cases SerialMutex.exec ids adaptive t ch (s.slotLock k.target.1 k.target.2) p with
    | none => rfl
    | some x =>
      obtain ⟨l, e⟩ := x
      cases e with
      | goto p' => rfl
      | ret r =>
        exact congrArg some
          (resumeSlot_disguise (s.setSlotLock k.target.1 k.target.2 l) heads count k r)
  | loadHead v =>
    simp only [exec, heads_disguise s heads count hp]
    rfl
  | walk v prev cur =>
    simp only [exec]
    rw [show (s.disguise i heads count).heap = s.heap from rfl]
    cases s.heap cur with
    | none => rfl
    | some e =>
      dsimp only
      split_ifs
      · rfl
      · rfl
  | replace v cur value | unlinkLoad v prev cur | freeEntry v cur value =>
    simp only [exec]
    rw [show (s.disguise i heads count).heap = s.heap from rfl]
    cases s.heap cur with
    | none => rfl
    | some e => rfl
  | newEntry v key value =>
    cases ch with
    | addr entry =>
      simp only [exec, heads_disguise s heads count hp]
      rw [show (s.disguise i heads count).heap = s.heap from rfl]
      split_ifs
      · rfl
      · rfl
    | _ => rfl
  | linkEntry v entry =>
    exact congrArg (fun x ↦ some (x, _)) (setHead_disguise s heads count hp entry)
  | countUp v => exact congrArg (fun x ↦ some (x, _)) (addCount_disguise s heads count hp 1)
  | unlinkStore v prev cur next =>
    simp only [exec]
    split_ifs
    · exact congrArg (fun x ↦ some (x, _)) (setHead_disguise s heads count hp next)
    · rw [show (s.disguise i heads count).heap = s.heap from rfl]
      cases s.heap prev with
      | none => rfl
      | some e => rfl
  | countDown v cur =>
    simp only [exec]
    rw [show (s.disguise i heads count).heap = s.heap from rfl]
    cases s.heap cur with
    | none => rfl
    | some e => exact congrArg (fun x ↦ some (x, _)) (addCount_disguise s heads count hp (-1))
  | lenLoad i' n =>
    have hcount : (s.disguise i heads count).count i' = s.count i' := Function.update_of_ne hp _ _
    simp only [exec, hcount]
    rfl
  | owned i' j => rfl
  | detachSwap i' j chains =>
    simp only [exec, heads_disguise s heads count hp]
    exact congrArg (fun x ↦ some (x, _)) (setHead_disguise s heads count hp 0)
  | detachCount i' j chains chain cur n =>
    simp only [exec]
    rw [show (s.disguise i heads count).heap = s.heap from rfl]
    cases s.heap cur with
    | none => rfl
    | some e => rfl
  | detachSub i' j chains chain n =>
    exact congrArg (fun x ↦ some (x, _)) (addCount_disguise s heads count hp (-n))
  | inspect i' j =>
    simp only [exec]
    rw [show (s.disguise i heads count).slotLock = s.slotLock from rfl]
    split_ifs
    · rfl
    · rfl
  | dropChains i' chains =>
    cases chains with
    | nil => rfl
    | cons cur chains =>
      simp only [exec]
      rw [show (s.disguise i heads count).heap = s.heap from rfl]
      split_ifs
      · rfl
      · cases s.heap cur with
        | none => rfl
        | some e => rfl

end Disguise

/-! ### What the other threads leave alone

With the shard held exclusively by one thread, the others change values behind guards and nothing
else in it. -/

section Others

variable {L : Layout} {t u : ι} {i j : ℕ} {p q : Pc ι K V} {s s' : Store ι K V}

omit [DecidableEq ι] in
/-- A call that owns a shard exclusively has one exclusive hold on it. -/
theorem sealed_of_seals (h : p.seals = some i) : p.sealed i = 1 := by
  cases p with
  | shard p k => cases h
  | _ => exact if_pos h

omit [DecidableEq ι] in
/-- A call that is about to leave a shard still has it exclusively. -/
theorem sealed_of_exits (h : p.Exits i) : p.sealed i = 1 := by
  cases p with
  | shard p k =>
    cases k with
    | backOut i' b | detached i' chains =>
      obtain ⟨rfl, rfl⟩ := h
      exact if_pos rfl
    | _ => exact h.elim
  | _ => exact h.elim

omit [DecidableEq ι] in
/-- A call that shares a shard has one share of it. -/
theorem pinned_of_shares (h : p.shares = some i) : p.pinned i = 1 := by
  cases p with
  | shard p k => cases h
  | _ => exact if_pos h

/-- All of an entry but its value. -/
def spine (e : Entry K V) : K × UInt64 × ℕ := (e.key, e.hash, e.next)

/-- **What a step leaves to a call inside `try_detach`**: the heads of the shard, its entries and
those of the call up to their values, and the slots that are free. -/
structure Undisturbed (t : ι) (i : ℕ) (A : Regions ι) (s s' : Store ι K V) : Prop where
  heads : s'.heads i = s.heads i
  entries : ∀ a, a ∈ A (.thread t) ∨ (∃ j, a ∈ A (.slot i j)) →
    (s'.heap a).map spine = (s.heap a).map spine
  free : ∀ j, (s.slotLock i j).state = 0 → (s'.slotLock i j).state = 0

variable [Fintype ι] {ids : SerialMutex.OwnerIds ι} {c : Config ι (Store ι K V) (Pc ι K V)}
  {A : Regions ι} {E : ℕ → ℕ → ℕ}

/-- No other call is in a shard that is held exclusively. -/
theorem Locks.not_in (hl : Locks L ids c) (hpc : c.pcs t = some p) (hs : p.sealed i = 1)
    (hu : u ≠ t) (hq : c.pcs u = some q) : q.shares ≠ some i ∧ q.seals ≠ some i := by
  obtain ⟨h₁, h₂⟩ := hl.alone hpc hs hq
  constructor
  · intro h
    rw [pinned_of_shares h] at h₁
    cases h₁
  · intro h
    have := h₂ hu
    rw [sealed_of_seals h] at this
    cases this

/-- A held slot is not free. -/
theorem Locks.state_ne_zero (hl : Locks L ids c) {x : Hold ι} (hx : x ∈ holdsOf L c u) :
    (c.shared.slotLock x.shard x.slot).state ≠ 0 := by
  intro h0
  have hpos := hl.record_pos hx
  obtain ⟨hr, hw⟩ := (hl.sound.exact x.shard x.slot).guards_of_zero h0
  unfold Store.record at hpos
  obtain ⟨i, j, read, a⟩ := x
  cases read with
  | false =>
    have hle := le_tally ((c.shared.slotLock i j).writes a) u
    have h0' : tally ((c.shared.slotLock i j).writes a) = 0 := hw a
    have hpos' : 0 < (c.shared.slotLock i j).writes a u := hpos
    omega
  | true =>
    have hle := le_tally ((c.shared.slotLock i j).reads a) u
    have h0' : tally ((c.shared.slotLock i j).reads a) = 0 := hr a
    have hpos' : 0 < (c.shared.slotLock i j).reads a u := hpos
    omega

variable [BEq K] [Hashable K] {adaptive : ℕ} {ch : Choice ι} {o : Outcome (Pc ι K V) (Ret ι K V)}

/-- Slot mutexes move only inside their own operations. -/
theorem exec_slotLock (hq : ∀ p k, q ≠ .slot p k)
    (h : exec L ids adaptive u ch s q = some (s', o)) : s'.slotLock = s.slotLock := by
  obtain ⟨p, k, rfl⟩ | ⟨p, k, rfl⟩ | ha := exec_cases h
  · obtain ⟨l, rfl | ⟨g, -, rfl⟩⟩ := exec_shard_store h
    · rfl
    · rfl
  · exact absurd rfl (hq p k)
  · cases ha <;> rfl

/-- A free slot of a shard stays free at a step of a call that is not in the shard. -/
theorem exec_keeps_free (hl : Locks L ids c) (hq : c.pcs u = some q) (hsh : q.shares ≠ some i)
    (hse : q.seals ≠ some i) (he : exec L ids adaptive u ch c.shared q = some (s', o))
    (hfree : (c.shared.slotLock i j).state = 0) : (s'.slotLock i j).state = 0 := by
  cases q with
  | slot p k =>
    obtain ⟨l, e, hr, rfl⟩ := exec_slot_store he
    rw [slotLock_setSlotLock]
    split_ifs with hij
    · -- only the end of a guard's drop works on a slot of the shard, after the release
      cases k with
      | locked v | unlocked v r => exact absurd (congrArg some hij.1.symm) hsh
      | attempt i' j' | backOut i' j' n b | detached i' j' chains =>
        exact absurd (congrArg some hij.1.symm) hse
      | dropped g =>
        obtain ⟨rfl, rfl⟩ := hij
        have hph : (Next.dropped g : Next ι K V).Expects L u (SerialMutex.phase p) :=
          (hl.mine u).phased _ hq
        obtain hph | hph := hph
        · have hx : g.hold ∈ holdsOf L c u := by
            refine mem_holdsOf hq (List.mem_append_left _ ?_)
            rw [hph]
            exact List.mem_cons_self ..
          exact absurd hfree (hl.state_ne_zero hx)
        · obtain rfl | rfl := phase_wake hph
          · cases hr
            exact hfree
          · cases hr
            exact hfree
    · exact hfree
  | _ => rwa [exec_slotLock (by simp) he]

/-- **A step of another call leaves `try_detach` undisturbed.** -/
theorem exec_undisturbed (h : Shape L c A E) (hl : Locks L ids c) (hL : 0 < L.capacity)
    (hut : u ≠ t) (hq : c.pcs u = some q) (hsh : q.shares ≠ some i) (hse : q.seals ≠ some i)
    (he : exec L ids adaptive u ch c.shared q = some (s', o)) : Undisturbed t i A c.shared s' := by
  obtain ⟨A', E', T, -, ht, hw⟩ := exec_shape h hl hL hq he
  have hslot : ∀ j, ¬ T (.slot i j) := fun j hT ↦ by
    obtain h₁ | h₁ := (hw i j hT).1
    · exact hsh h₁
    · exact hse h₁
  have hthread : ¬ T (.thread t) := fun hT ↦ by
    obtain hr | ⟨x, -, -, hr⟩ := ht.mine _ hT
    · cases hr
      exact hut rfl
    · cases hr
  refine ⟨funext fun j ↦ (ht.heads i j (hslot j)).1, ?_, fun j ↦ exec_keeps_free hl hq hsh hse he⟩
  rintro a (ha | ⟨j, ha⟩)
  · rw [(ht.keep _ hthread).2 a ha]
  · rw [(ht.keep _ (hslot j)).2 a ha]

omit [BEq K] in
/-- **So does the start of another call.** -/
theorem enter_undisturbed (ids : SerialMutex.OwnerIds ι) {op : Op ι K V}
    (he : enter L u op c.shared = some (s', o)) :
    Undisturbed t i A c.shared s' := by
  have hheap : ∀ a, (s'.heap a).map spine = (c.shared.heap a).map spine := fun a ↦ by
    obtain hh | ⟨g, v, e, -, -, -, hent, hh⟩ := enter_heap he
    · rw [hh]
    · rw [hh]
      by_cases hag : a = g.entry
      · subst hag
        rw [setEntry_self, hent]
        rfl
      · rw [setEntry_of_ne _ _ hag]
  have hsame : s'.heads = c.shared.heads →
    (∀ j, (s'.slotLock i j).state = (c.shared.slotLock i j).state) →
      Undisturbed t i A c.shared s' := fun h₁ h₂ ↦
    ⟨by rw [h₁], fun a _ ↦ hheap a, fun j h0 ↦ (h₂ j).trans h0⟩
  cases op with
  | insert key value | get key | getMut key | remove key | containsKey key | clear | len | asVec =>
    cases he
    exact hsame rfl fun _ ↦ rfl
  | deref g | write g v =>
    simp only [enter] at he
    split_ifs at he
    split at he <;> cases he <;> exact hsame rfl fun _ ↦ rfl
  | dropGuard g =>
    simp only [enter] at he
    split_ifs at he
    cases he
    exact hsame rfl fun _ ↦ rfl
  | sendGuard g v =>
    simp only [enter] at he
    split_ifs at he with hg
    obtain ⟨x, hx, hx'⟩ := Option.map_eq_some_iff.1 he
    cases hx'
    refine hsame (send_guards hx hg).1.heads fun j ↦ ?_
    unfold send at hx
    split at hx
    · cases hx
    · rename_i l r hr
      cases hx
      rw [slotLock_setSlotLock]
      split_ifs with hij
      · rw [hij.1, hij.2]
        exact (SerialMutex.enter_spec ids hr).1
      · rfl

end Others

/-! ### Along a stretch

The stretch starts at the first `try_write_guard` and ends where `try_detach` returns. What holds at
its start is carried along by the step lemmas of `try_detach` and by what the others leave alone. -/

section Stretches

/-- The program points of `try_detach` on shard `i`. -/
def InTryDetach (i : ℕ) (p : Pc ι K V) : Prop := p.seals = some i

variable {L : Layout} {t : ι} {i j : ℕ} {p q : Pc ι K V} {s s₀ s' : Store ι K V} {own : List ℕ}
  {A A₀ : Regions ι} {E E₀ : ℕ → ℕ → ℕ}

omit [DecidableEq ι] in
/-- The detached chains are among the entries of the call. -/
theorem Pc.Local.collected (h : p.Local s A E own) (hp : InTryDetach i p ∨ p.Exits i) :
    Detached s.heap own p.collected := by
  have hnil : own = [] → Detached s.heap own [] := by
    rintro rfl
    exact detached_nil _
  cases p with
  | shard p k =>
    cases k with
    | backOut i' b => exact hnil h
    | detached i' chains => exact h
    | _ =>
      obtain hp | hp := hp
      · cases hp
      · exact hp.elim
  | slot p k =>
    cases k with
    | attempt i' j | backOut i' j n b => exact hnil h
    | detached i' j chains => exact h
    | _ =>
      obtain hp | hp := hp
      · cases hp
      · exact hp.elim
  | owned i' j => exact hnil h
  | detachSwap i' j chains => exact h
  | detachCount i' j chains chain cur count =>
    obtain ⟨own', pre, post, rfl, hd, hchain, -⟩ := h
    exact hd.snoc hchain
  | detachSub i' j chains chain count =>
    obtain ⟨own', as, rfl, hd, hchain, -⟩ := h
    exact hd.snoc hchain
  | _ =>
    obtain hp | hp := hp
    · cases hp
    · exact hp.elim

omit [DecidableEq ι] in
/-- The entries of a detached chain belong to the call that detached it. -/
theorem Detached.subset {heap : Mem (Entry K V)} {chains as : List ℕ} {b : ℕ}
    (h : Detached heap own chains) (hb : b ∈ chains) (hc : Chain heap b as) :
    ∀ a ∈ as, a ∈ own := by
  induction chains generalizing own with
  | nil => cases hb
  | cons b' chains ih =>
    obtain ⟨as', own', rfl, hchain, hrest⟩ := h.of_cons
    intro a ha
    obtain rfl | hb := List.mem_cons.1 hb
    · rw [hc.unique hchain] at ha
      exact List.mem_append_left _ ha
    · exact List.mem_append_right _ (ih hrest hb a ha)

/-- The entries of the shard at the start are as they were, up to their values. -/
def KeepsEntries (A₀ : Regions ι) (s₀ s : Store ι K V) (i : ℕ) : Prop :=
  ∀ j, ∀ a ∈ A₀ (.slot i j), (s.heap a).map spine = (s₀.heap a).map spine

omit [DecidableEq ι] in
/-- As long as the entries are kept, a chain from before is a chain still. -/
theorem KeepsEntries.chain (h : KeepsEntries A₀ s₀ s i) {b : ℕ}
    (hc : Chain s₀.heap b (A₀ (.slot i j))) : Chain s.heap b (A₀ (.slot i j)) := by
  refine hc.congr fun a ha ↦ ?_
  have hs := congrArg (Option.map fun x : K × UInt64 × ℕ ↦ x.2.2) (h j a ha)
  rw [Option.map_map, Option.map_map] at hs
  exact hs

section Places

variable {c₀ c : Config ι (Store ι K V) (Pc ι K V)}

omit [DecidableEq ι] in
/-- An entry that the shard had at the start is in the chain of a slot or in the hands of the
call. -/
theorem Stage.mem (hst : Stage L c₀.shared c.shared i p) (h₀ : Shape L c₀ A₀ E₀) (h : Shape L c A E)
    (hk : KeepsEntries A₀ c₀.shared c.shared i) (hpc : c.pcs t = some p)
    (hp : InTryDetach i p ∨ p.Exits i) {a : ℕ} (ha : a ∈ A₀ (.slot i j)) :
    a ∈ A (.thread t) ∨ ∃ j, a ∈ A (.slot i j) := by
  have hchain := hk.chain (h₀.chain i j)
  by_cases hj : j < p.swapped L
  · refine Or.inl (((h.here t p hpc).collected hp).subset ?_ hchain a ha)
    rw [hst.chains]
    exact List.mem_map.2 ⟨j, List.mem_range.2 hj, rfl⟩
  · have hhead := hst.heads j
    rw [if_neg hj] at hhead
    rw [← hhead] at hchain
    exact Or.inr ⟨j, by rwa [(h.chain i j).unique hchain]⟩

omit [DecidableEq ι] in
/-- The chain that is being counted is the one the slot had at the start. -/
theorem Stage.count_lt {chains : List ℕ} {chain cur count : ℕ}
    (hst : Stage L c₀.shared c.shared i (.detachCount i j chains chain cur count))
    (h₀ : Shape L c₀ A₀ E₀) (h : Shape L c A E) (hk : KeepsEntries A₀ c₀.shared c.shared i)
    (hpc : c.pcs t = some (.detachCount i j chains chain cur count)) :
    count < (A₀ (.slot i j)).length := by
  obtain ⟨own, pre, post, -, -, hchain, rfl, -⟩ := h.here t _ hpc
  have hlast : chain = c₀.shared.heads i j := by
    have hmap : chains ++ [chain] = (List.range (j + 1)).map (c₀.shared.heads i) := hst.chains
    rw [List.range_succ, List.map_append] at hmap
    exact (List.append_inj' hmap rfl).2 |> List.singleton_inj.1
  rw [hlast] at hchain
  rw [(hk.chain (h₀.chain i j)).unique hchain]
  simp

end Places

section Runs

variable [Fintype ι] [BEq K] [Hashable K] {ids : SerialMutex.OwnerIds ι} {adaptive m n : ℕ}
  {c₀ c d : Config ι (Store ι K V) (Pc ι K V)} {ch : Choice ι}
    {r : Store ι K V × Outcome (Pc ι K V) (Ret ι K V)}

variable (L t i ids adaptive) in
/-- A run from `c₀` with `t` inside `try_detach` on shard `i`, and `n` steps of it. -/
abbrev Detaching (c₀ : Config ι (Store ι K V) (Pc ι K V)) (n : ℕ)
    (c : Config ι (Store ι K V) (Pc ι K V)) :
    Prop :=
  Stretch (atomicHashMap L ids adaptive) t (InTryDetach i) c₀ n c

variable (L t i ids adaptive) in
/-- On the way, `try_write_guard` found slot `j` held. -/
def Blocked (c₀ : Config ι (Store ι K V) (Pc ι K V)) (j : ℕ) : Prop :=
  ∃ m d, Detaching L t i ids adaptive c₀ m d ∧
    d.pcs t = some (.slot .tryWriteGuard (.attempt i j)) ∧
    (d.shared.slotLock i j).state ≠ 0

variable (L t i ids adaptive) in
/-- On the way, `owned_by_current_thread` of slot `j` was `b`: the word of the mutex carried the
number of the caller, or not. -/
def Checked (c₀ : Config ι (Store ι K V) (Pc ι K V)) (j : ℕ) (b : Bool) : Prop :=
  ∃ m d, Detaching L t i ids adaptive c₀ m d ∧ d.pcs t = some (.owned i j) ∧
    b = ((d.shared.slotLock i j).state &&& SerialWord.ownerMask == SerialWord.ownerBits (ids.id t))

/-- An own step, inside. -/
theorem own_step (hL : 0 < L.capacity) (hr : Reach (atomicHashMap L ids adaptive) Always init c)
    (hpc : c.pcs t = some p) (hp : InTryDetach i p)
    (he : (atomicHashMap L ids adaptive).exec t ch c.shared p = some r) :
    ∃ q, (c.put t r).pcs t = some q ∧ DetachStep L ids t i c.shared p r.1 q := by
  obtain ⟨hl, A, E, h⟩ := reach_shape hL hr
  obtain ⟨s', o⟩ := r
  obtain ⟨q, rfl, hd⟩ := exec_detaching h hl hpc hp he
  exact ⟨q, by simp, hd⟩

/-- A step of another call, while `t` is inside. -/
theorem other_step {u : ι} (hL : 0 < L.capacity)
    (hr : Reach (atomicHashMap L ids adaptive) Always init c) (h : Shape L c A E)
    (hpc : c.pcs t = some p) (hp : InTryDetach i p) (hut : u ≠ t) (hq : c.pcs u = some q)
    (he : (atomicHashMap L ids adaptive).exec u ch c.shared q = some r) :
    Undisturbed t i A c.shared r.1 := by
  obtain ⟨s', o⟩ := r
  have hl := (reach_shape hL hr).1
  obtain ⟨hsh, hse⟩ := hl.not_in hpc (sealed_of_seals hp) hut hq
  exact exec_undisturbed h hl hL hut hq hsh hse he

/-- **A slot that is free or in the hands of the call stays so until `try_detach` is over.** -/
theorem stretch_freeOrMine (hL : 0 < L.capacity)
    (hr : Reach (atomicHashMap L ids adaptive) Always init d) (hq : d.pcs t = some q)
    (hin : InTryDetach i q ∨ q.Exits i) (hj : FreeOrMine L t i d.shared q j)
    (h : Detaching L t i ids adaptive d n c) :
    ∃ p, c.pcs t = some p ∧ (InTryDetach i p ∨ p.Exits i) ∧ FreeOrMine L t i c.shared p j := by
  refine h.invariant (I := fun _ c ↦
    ∃ p, c.pcs t = some p ∧ (InTryDetach i p ∨ p.Exits i) ∧ FreeOrMine L t i c.shared p j)
    ⟨q, hq, hin, hj⟩ ?_ ?_ ?_
  · rintro n c ch p r hs ⟨p', hp', -, hfree⟩ hpc hp he
    rw [hpc] at hp'
    cases hp'
    obtain ⟨q, hq, hd⟩ := own_step hL (hr.trans hs.reach) hpc hp he
    exact ⟨q, hq, hd.seals, hd.freeOrMine hfree⟩
  · rintro n c u op p ⟨s', o⟩ hs ⟨p', hp', hin, hfree⟩ hpc hp hut - he
    have hun := enter_undisturbed (t := t) (i := i) (A := fun _ ↦ []) ids he
    exact ⟨p', by rwa [Config.put_pcs_of_ne _ _ hut.symm], hin, hfree.imp_left (hun.free j)⟩
  · rintro n c u ch p q r hs ⟨p', hp', hin, hfree⟩ hpc hp hut hq he
    obtain ⟨-, A, E, hA⟩ := reach_shape hL (hr.trans hs.reach)
    have hun := other_step hL (hr.trans hs.reach) hA hpc hp hut hq he
    exact ⟨p', by rwa [Config.put_pcs_of_ne _ _ hut.symm], hin, hfree.imp_left (hun.free j)⟩

variable (L t i ids adaptive) in
/-- **What is known along a stretch** that starts at `c₀` with the entries `A₀`, of which `t` has
taken `n` steps and is at `p`. -/
structure Along (c₀ : Config ι (Store ι K V) (Pc ι K V)) (A₀ : Regions ι) (n : ℕ)
    (c : Config ι (Store ι K V) (Pc ι K V)) (p : Pc ι K V) : Prop where
  pc : c.pcs t = some p
  place : InTryDetach i p ∨ p.Exits i
  entries : KeepsEntries A₀ c₀.shared c.shared i
  stage : Stage L c₀.shared c.shared i p
  secured : p.Full → ∀ j < L.capacity, FreeOrMine L t i c.shared p j
  trail : p.Trail (Blocked L t i ids adaptive c₀) (Checked L t i ids adaptive c₀)
  bound : n + p.rank L (fun j ↦ (A₀ (.slot i j)).length) ≤
    (detachNext L t i 0 : Pc ι K V).rank L fun j ↦ (A₀ (.slot i j)).length

/-- At the start of `try_detach`. -/
theorem along_start (hL : 0 < L.capacity) (hpc : c₀.pcs t = some (detachNext L t i 0)) :
    Along L t i ids adaptive c₀ A₀ 0 c₀ (detachNext L t i 0) := by
  have hstart : (detachNext L t i 0 : Pc ι K V) = .slot .tryWriteGuard (.attempt i 0) := if_pos hL
  obtain ⟨h₁, h₂⟩ :=
    swapped_detachNext (ι := ι) (K := K) (V := V) (L := L) (t := t) (i := i) (j := 0)
  refine ⟨hpc, seals_detachNext, fun _ _ _ ↦ rfl, ⟨fun j ↦ ?_, ?_⟩, ?_, trail_detachNext, by simp⟩
  · rw [h₁]
    rfl
  · rw [h₁, h₂]
    rfl
  · rw [hstart]
    exact fun hfull ↦ hfull.elim

/-- What another thread does leaves it known. -/
theorem Along.undisturbed {u : ι} (h : Along L t i ids adaptive c₀ A₀ n c p)
    (hA₀ : Shape L c₀ A₀ E₀) (hA : Shape L c A E) (hut : u ≠ t)
    (hun : Undisturbed t i A c.shared r.1) :
    Along L t i ids adaptive c₀ A₀ n (c.put u r) p where
  pc := by
    rw [Config.put_pcs_of_ne _ _ hut.symm]
    exact h.pc
  place := h.place
  entries j a ha :=
    (hun.entries a (h.stage.mem hA₀ hA h.entries h.pc h.place ha)).trans (h.entries j a ha)
  stage := h.stage.same hun.heads ⟨rfl, rfl⟩
  secured hfull j hj := (h.secured hfull j hj).imp_left (hun.free j)
  trail := h.trail
  bound := h.bound

/-- **What is known is kept along the stretch.** -/
theorem along (hL : 0 < L.capacity) (h₀ : Reach (atomicHashMap L ids adaptive) Always init c₀)
    (hA₀ : Shape L c₀ A₀ E₀) (hpc : c₀.pcs t = some (detachNext L t i 0))
    (h : Detaching L t i ids adaptive c₀ n c) : ∃ p, Along L t i ids adaptive c₀ A₀ n c p := by
  refine h.invariant (I := fun n c ↦ ∃ p, Along L t i ids adaptive c₀ A₀ n c p)
    ⟨_, along_start hL hpc⟩ ?_ ?_ ?_
  · rintro n c ch p r hs ⟨p', hp'⟩ hpc hp he
    obtain rfl : p' = p := Option.some.inj (hp'.pc.symm.trans hpc)
    have hr := h₀.trans hs.reach
    obtain ⟨q, hq, hd⟩ := own_step hL hr hpc hp he
    obtain ⟨-, A, E, hA⟩ := reach_shape hL hr
    have hrank := hd.rank (n := fun j ↦ (A₀ (.slot i j)).length) (by
      rintro j chains chain cur count rfl
      exact hp'.stage.count_lt hA₀ hA hp'.entries hpc)
    refine ⟨q, hq, hd.seals, fun j a ha ↦ ?_, hd.stage hp'.stage, hd.secured hp'.secured,
      hd.trail hp'.trail ?_ ?_, ?_⟩
    · show (r.1.heap a).map spine = _
      rw [hd.heap]
      exact hp'.entries j a ha
    · rintro j rfl hheld
      exact ⟨_, _, hs, hpc, hheld⟩
    · rintro j rfl
      exact ⟨_, _, hs, hpc, rfl⟩
    · have := hp'.bound
      omega
  · rintro n c u op p ⟨s', o⟩ hs ⟨p', hp'⟩ hpc hp hut - he
    obtain ⟨-, A, E, hA⟩ := reach_shape hL (h₀.trans hs.reach)
    have hun := enter_undisturbed (t := t) (i := i) (A := A) ids he
    exact ⟨p', hp'.undisturbed hA₀ hA hut hun⟩
  · rintro n c u ch p q r hs ⟨p', hp'⟩ hpc hp hut hq he
    obtain ⟨-, A, E, hA⟩ := reach_shape hL (h₀.trans hs.reach)
    have hun := other_step hL (h₀.trans hs.reach) hA hpc hp hut hq he
    exact ⟨p', hp'.undisturbed hA₀ hA hut hun⟩

/-! ### What `try_detach` has done

The two ways out, from the stage of the call at its last access. -/

omit [BEq K] [Hashable K] in
/-- The count of a shard that is held exclusively, away from its updates. -/
theorem count_of_sealed (h : Shape L c A E) (hl : Locks L ids c) (hpc : c.pcs t = some p)
    (hs : p.sealed i = 1) (hadj : ∀ j, ¬ p.Adjusts i j) :
    c.shared.count i = (((List.range L.capacity).map fun j ↦ (A (.slot i j)).length).sum : ℕ) := by
  refine h.count_settled fun j u q hq ha ↦ ?_
  by_cases hu : u = t
  · subst hu
    rw [hpc] at hq
    cases hq
    exact hadj j ha
  · obtain ⟨hsh, hse⟩ := hl.not_in hpc hs hu hq
    obtain hw | hw := (ha.writes (t := u) (h.fits u q hq)).1
    · exact hsh hw
    · exact hse hw

omit [Fintype ι] [BEq K] [Hashable K] [DecidableEq ι] in
/-- A call that is about to leave a shard has no slot and owes the count nothing. -/
theorem Pc.Exits.facts (h : p.Exits i) : p.hands L t = [] ∧ ∀ j, ¬ p.Adjusts i j := by
  cases p with
  | shard p k =>
    cases k with
    | backOut i' b | detached i' chains => exact ⟨rfl, fun _ ha ↦ ha⟩
    | _ => exact h.elim
  | _ => exact h.elim

omit [Fintype ι] [BEq K] [Hashable K] [DecidableEq ι] in
/-- A call that has swapped a head has taken every slot. -/
theorem full_of_swapped (h : 0 < p.swapped L) (hp : InTryDetach i p ∨ p.Exits i) : p.Full := by
  cases p with
  | shard p k =>
    cases k with
    | detached i' chains => trivial
    | _ => exact absurd h (Nat.lt_irrefl 0)
  | slot p k =>
    cases k with
    | detached i' j chains => trivial
    | _ => exact absurd h (Nat.lt_irrefl 0)
  | detachSwap i' j chains | detachCount i' j chains chain cur count
  | detachSub i' j chains chain count =>
    trivial
  | _ => exact absurd h (Nat.lt_irrefl 0)

/-- **The shard is as it was**: its heads, its chains with keys and links, and its count. The call
has no slot of it. -/
structure Restored (L : Layout) (t : ι) (i : ℕ)
    (c₀ c : Config ι (Store ι K V) (Pc ι K V)) : Prop where
  heads : c.shared.heads i = c₀.shared.heads i
  chains : ∀ j as, Chain c₀.shared.heap (c₀.shared.heads i j) as →
    Chain c.shared.heap (c.shared.heads i j) as ∧
      ∀ a ∈ as, (c.shared.heap a).map spine = (c₀.shared.heap a).map spine
  count : c.shared.count i = c₀.shared.count i
  hands : holdsOf L c t = c.shared.holds t

/-- **The shard is empty**: the call has every chain of it, complete, and the count has gone down by
the number of detached entries. The call has no slot of it. -/
structure Cleared (L : Layout) (t : ι) (i : ℕ) (c₀ c : Config ι (Store ι K V) (Pc ι K V))
    (chains : List ℕ) : Prop where
  chains : chains = (List.range L.capacity).map (c₀.shared.heads i)
  heads : ∀ j < L.capacity, c.shared.heads i j = 0
  count : ∃ as : ℕ → List ℕ,
    (∀ j, Chain c₀.shared.heap (c₀.shared.heads i j) (as j) ∧
      Chain c.shared.heap (c₀.shared.heads i j) (as j) ∧
      ∀ a ∈ as j, (c.shared.heap a).map spine = (c₀.shared.heap a).map spine) ∧
    c.shared.count i + (((List.range L.capacity).map fun j ↦ (as j).length).sum : ℕ) =
      c₀.shared.count i
  free : ∀ j < L.capacity, (c.shared.slotLock i j).state = 0
  hands : holdsOf L c t = c.shared.holds t

omit [BEq K] [Hashable K] [Fintype ι] [DecidableEq ι] in
/-- A thread that is about to leave a shard has the holds of its guards and no others. -/
theorem holdsOf_of_exits (hpc : c.pcs t = some p) (hp : p.Exits i) :
    holdsOf L c t = c.shared.holds t := by
  rw [holdsOf, hpc, Option.elim_some, hp.facts.1, List.append_nil]

/-- The count at the start. -/
theorem count_start (hL : 0 < L.capacity) (h₀ : Reach (atomicHashMap L ids adaptive) Always init c₀)
    (hA₀ : Shape L c₀ A₀ E₀) (hpc : c₀.pcs t = some (detachNext L t i 0)) :
    c₀.shared.count i =
      (((List.range L.capacity).map fun j ↦ (A₀ (.slot i j)).length).sum : ℕ) := by
  have hstart : (detachNext L t i 0 : Pc ι K V) = .slot .tryWriteGuard (.attempt i 0) := if_pos hL
  rw [hstart] at hpc
  exact count_of_sealed hA₀ (reach_shape hL h₀).1 hpc (sealed_of_seals rfl) fun _ ha ↦ ha

/-- **After `None` or a panic, the shard is as it was.** -/
theorem restored {panics : Bool} (hL : 0 < L.capacity)
    (h₀ : Reach (atomicHashMap L ids adaptive) Always init c₀) (hA₀ : Shape L c₀ A₀ E₀)
    (hpc : c₀.pcs t = some (detachNext L t i 0)) (h : Detaching L t i ids adaptive c₀ n c)
    (hal : Along L t i ids adaptive c₀ A₀ n c (.shard .unlockExclusiveFast (.backOut i panics))) :
    Restored L t i c₀ c := by
  obtain ⟨hl, A, E, hA⟩ := reach_shape hL (h₀.trans h.reach)
  have hheads : c.shared.heads i = c₀.shared.heads i := funext hal.stage.heads
  have hregion : ∀ j, A (.slot i j) = A₀ (.slot i j) := fun j ↦ by
    have hchain := hal.entries.chain (hA₀.chain i j)
    rw [← hheads] at hchain
    exact (hA.chain i j).unique hchain
  refine ⟨hheads, fun j as has ↦ ?_, ?_, holdsOf_of_exits hal.pc ⟨rfl, rfl⟩⟩
  · rw [(hA₀.chain i j).unique has |>.symm, hheads]
    exact ⟨hal.entries.chain (hA₀.chain i j), hal.entries j⟩
  · rw [count_start hL h₀ hA₀ hpc,
      count_of_sealed hA hl hal.pc (sealed_of_exits ⟨rfl, rfl⟩) fun _ ha ↦ ha]
    simp only [hregion]

/-- **After `Some(chains)`, every chain of the shard is detached.** -/
theorem cleared {chains : List ℕ} (hL : 0 < L.capacity)
    (h₀ : Reach (atomicHashMap L ids adaptive) Always init c₀) (hA₀ : Shape L c₀ A₀ E₀)
    (hpc : c₀.pcs t = some (detachNext L t i 0)) (h : Detaching L t i ids adaptive c₀ n c)
    (hal : Along L t i ids adaptive c₀ A₀ n c (.shard .unlockExclusiveFast (.detached i chains))) :
    Cleared L t i c₀ c chains := by
  obtain ⟨hl, A, E, hA⟩ := reach_shape hL (h₀.trans h.reach)
  have hheads : ∀ j < L.capacity, c.shared.heads i j = 0 := fun j hj ↦
    (hal.stage.heads j).trans (if_pos hj)
  have hempty : ∀ j < L.capacity, A (.slot i j) = [] := fun j hj ↦
    (hA.chain i j).null_iff.1 (hheads j hj)
  refine ⟨hal.stage.chains, hheads, ⟨fun j ↦ A₀ (.slot i j), fun j ↦ ⟨hA₀.chain i j,
    hal.entries.chain (hA₀.chain i j), hal.entries j⟩, ?_⟩, fun j hj ↦ ?_,
    holdsOf_of_exits hal.pc ⟨rfl, rfl⟩⟩
  · have hzero : ((List.range L.capacity).map fun j ↦ (A (.slot i j)).length) =
        (List.range L.capacity).map fun _ ↦ 0 :=
      List.map_congr_left fun j hj ↦ by rw [hempty j (List.mem_range.1 hj)]; rfl
    rw [count_start hL h₀ hA₀ hpc,
      count_of_sealed hA hl hal.pc (sealed_of_exits ⟨rfl, rfl⟩) fun _ ha ↦ ha,
      hzero]
    simp
  · obtain hfree | hmine := hal.secured trivial j hj
    · exact hfree
    · cases hmine

variable (L t i ids adaptive) in
/-- **All or nothing**, from a start `c₀` of `try_detach` to a configuration `c` in or at the end of
it. -/
structure AllOrNothing (c₀ c : Config ι (Store ι K V) (Pc ι K V)) : Prop where
  /-- It can go on, or it has found a slot held and restored everything, with a panic if and only if
  the mutex of that slot carried the number of the caller, or it has cleared everything. -/
  outcome : ∃ p, c.pcs t = some p ∧
    ((InTryDetach i p ∧ ∀ ch, ∃ c', (atomicHashMap L ids adaptive).next c (.exec t ch) = some c') ∨
      (∃ panics, p = .shard .unlockExclusiveFast (.backOut i panics) ∧ Restored L t i c₀ c ∧
        ∃ j, Blocked L t i ids adaptive c₀ j ∧ Checked L t i ids adaptive c₀ j panics) ∨
      ∃ chains, p = .shard .unlockExclusiveFast (.detached i chains) ∧ Cleared L t i c₀ c chains)
  /-- It takes a slot only when it is free. -/
  taken_free : ∀ j m ch d d' q q', Detaching L t i ids adaptive c₀ m d → d.pcs t = some q →
    InTryDetach i q → (atomicHashMap L ids adaptive).next d (.exec t ch) = some d' →
      d'.pcs t = some q' →
    (⟨i, j, false, t⟩ : Hold ι) ∉ q.hands L t → (⟨i, j, false, t⟩ : Hold ι) ∈ q'.hands L t →
    (d.shared.slotLock i j).state = 0
  /-- A slot that is free or taken at any time on the way is free when it is over. -/
  given_back : ∀ j m m' d q p, Detaching L t i ids adaptive c₀ m d →
    Detaching L t i ids adaptive d m' c →
    d.pcs t = some q → (InTryDetach i q ∨ q.Exits i) → FreeOrMine L t i d.shared q j →
    c.pcs t = some p → p.Exits i → (c.shared.slotLock i j).state = 0
  /-- No other thread is at an access to a head, the count or an entry of the shard. -/
  unseen : ∀ u, u ≠ t → ∀ q, c.pcs u = some q → ¬ q.Looks i
  /-- An access of another thread does the same whatever the heads and the count of the shard
  are. -/
  oblivious : ∀ u, u ≠ t → ∀ q, c.pcs u = some q → ∀ heads count ch,
    exec L ids adaptive u ch (c.shared.disguise i heads count) q =
      (exec L ids adaptive u ch c.shared q).map fun r ↦ (r.1.disguise i heads count, r.2)
  /-- While any slot is different from before, no guard is live on the shard. -/
  unguarded : (∃ j, c.shared.heads i j ≠ c₀.shared.heads i j) →
    ∀ j < L.capacity, ¬ Guarded c.shared i j

/-- **Clearing a shard is all or nothing**: `try_detach` ends after a bounded number of its own
steps, and everything that holds of it meanwhile and at its end is `AllOrNothing`. -/
theorem try_detach_all_or_nothing {capacity shardAmount : UInt64}
    (hL : withCapacityHasherAndShardAmount capacity shardAmount = .ok L)
    (h₀ : Reach (atomicHashMap L ids adaptive) Always init c₀)
    (hpc : c₀.pcs t = some (detachNext L t i 0)) :
    ∃ N, ∀ n c, Detaching L t i ids adaptive c₀ n c → n ≤ N ∧
      AllOrNothing L t i ids adaptive c₀ c := by
  have hcap : 0 < L.capacity := (valid_of_ok hL).capacity_pos
  obtain ⟨-, A₀, E₀, hA₀⟩ := reach_shape hcap h₀
  refine ⟨(detachNext L t i 0 : Pc ι K V).rank L fun j ↦ (A₀ (.slot i j)).length, fun n c h ↦ ?_⟩
  have hr := h₀.trans h.reach
  obtain ⟨hl, A, E, hA⟩ := reach_shape hcap hr
  obtain ⟨p, hal⟩ := along hcap h₀ hA₀ hpc h
  have hsealed : p.sealed i = 1 := by
    obtain hp | hp := hal.place
    · exact sealed_of_seals hp
    · exact sealed_of_exits hp
  have hunseen : ∀ u, u ≠ t → ∀ q, c.pcs u = some q → ¬ q.Looks i := by
    intro u hu q hq hlooks
    obtain ⟨hsh, hse⟩ := hl.not_in hal.pc hsealed hu hq
    obtain hw | hw := hlooks.holds
    · exact hsh hw
    · exact hse hw
  refine ⟨le_trans (Nat.le_add_right _ _) hal.bound, ⟨p, hal.pc, ?_⟩, ?_, ?_, hunseen,
    fun u hu q hq heads count ch ↦ exec_disguise c.shared heads count (hunseen u hu q hq), ?_⟩
  · obtain hp | hp := hal.place
    · refine Or.inl ⟨hp, fun ch ↦ ?_⟩
      obtain ⟨x, hx⟩ := exec_detaching_total ids adaptive ch hl hal.pc hp
      exact ⟨_, Object.next_exec hal.pc hx⟩
    · refine Or.inr ?_
      cases p with
      | shard p k =>
        cases k with
        | backOut i' panics =>
          obtain ⟨rfl, rfl⟩ := hp
          exact Or.inl ⟨panics, rfl, restored hcap h₀ hA₀ hpc h hal, hal.trail⟩
        | detached i' chains =>
          obtain ⟨rfl, rfl⟩ := hp
          exact Or.inr ⟨chains, rfl, cleared hcap h₀ hA₀ hpc h hal⟩
        | _ => exact hp.elim
      | _ => exact hp.elim
  · intro j m ch d d' q q' hd hq hin hn hq' hnot hmem
    obtain ⟨u, op, r, hl, -, -, -⟩ | ⟨u, ch', q₁, r, hl, hq₁, he, rfl⟩ := Object.next_cases hn
    · cases hl
    · cases hl
      rw [hq] at hq₁
      cases hq₁
      obtain ⟨q₂, hq₂, hstep⟩ := own_step hcap (h₀.trans hd.reach) hq hin he
      rw [hq₂] at hq'
      cases hq'
      exact hstep.taken_free hnot hmem
  · intro j m m' d q p' hd hdc hq hin hj hp' hex
    obtain ⟨p'', hp'', -, hfree | hmine⟩ :=
      stretch_freeOrMine hcap (h₀.trans hd.reach) hq hin hj hdc
    · exact hfree
    · rw [hp'] at hp''
      cases hp''
      rw [hex.facts.1] at hmine
      cases hmine
  · rintro ⟨j₀, hne⟩ j hj ⟨u, g, hg, rfl, rfl⟩
    have hswapped : 0 < p.swapped L := by
      by_contra hzero
      refine hne ((hal.stage.heads j₀).trans (if_neg ?_))
      omega
    have hx : g.hold ∈ holdsOf L c u := guard_mem_holdsOf hg
    obtain hfree | hmine := hal.secured (full_of_swapped hswapped hal.place) _ hj
    · exact hl.state_ne_zero hx hfree
    · obtain hp | hp := hal.place
      · exact Pc.Writes.no_guard ⟨Or.inr hp, hmine⟩ hl hal.pc hg ⟨rfl, rfl⟩
      · rw [hp.facts.1] at hmine
        cases hmine

end Runs

end Stretches

/-- Thread `0` is about to try the first slot of shard `0`. -/
def startsDetach : Pc (Fin 2) ℕ ℕ → Bool
  | .slot .tryWriteGuard (.attempt 0 0) => true
  | _ => false

/-- The schedule below stops at the first `try_write_guard`. -/
theorem eq_of_startsDetach {p : Pc (Fin 2) ℕ ℕ} (h : startsDetach p = true) :
    p = .slot .tryWriteGuard (.attempt 0 0) := by
  unfold startsDetach at h
  split at h
  · rfl
  · cases h

/-- Thread `0` has inserted, thread `1` has a guard on the entry, and thread `0` clears. -/
theorem try_detach_all_or_nothing_guarded :
    ∃ c₀ : Config (Fin 2) (Store (Fin 2) ℕ ℕ) (Pc (Fin 2) ℕ ℕ), Reach smallMap Always init c₀ ∧
      c₀.shared.guards 1 = [⟨⟨0, 0, true, 1⟩, 1⟩] ∧
      ∃ N, ∀ n c, Detaching twoShards 0 0 SerialMutex.twoIds 4 c₀ n c →
        n ≤ N ∧ AllOrNothing twoShards 0 0 SerialMutex.twoIds 4 c₀ c := by
  have hL : withCapacityHasherAndShardAmount 2 2 = .ok twoShards := by decide
  obtain ⟨c, hc, ht⟩ := Reach.exists_of_replay smallMap Always init
    (insertSchedule ++ .call 1 (.get 0) :: List.replicate 6 (.exec 1 .go) ++
      [.call 0 .clear, .exec 0 .go])
    (fun c ↦ (c.pcs 0).any startsDetach && decide (c.shared.guards 1 = [⟨⟨0, 0, true, 1⟩, 1⟩]))
    (by decide +kernel)
  obtain ⟨h₁, h₂⟩ := Bool.and_eq_true_iff.1 ht
  obtain ⟨p, hp, hstart⟩ := (Option.any_eq_true _ _).1 h₁
  rw [eq_of_startsDetach hstart] at hp
  exact ⟨c, hc, of_decide_eq_true h₂, try_detach_all_or_nothing hL hc hp⟩

end Shared

end AtomicHashMap

end Crossync
