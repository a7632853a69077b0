import Crossync.Atomic.ArrayLocks

/-!
# Pushes and storages of `AtomicArray`

Two bookkeeping facts that need nothing but the shape of the steps.

* **Tickets.** A push is named by its thread and its number among the pushes of that thread. The
  ledger of any generation names a push at most once, with the value the push was called with, and a
  push that has not reserved a slot yet is named nowhere (`Tickets`).
* **Storages.** A reset owns one storage besides the array's: its replacement before the exchange,
  the replaced one after it (`Pc.own`). No two resets own the same one, none owns the array's, and
  what is owned or in use has not been given back (`Owns`).

## Why they come first

Neither fact needs to know what is in a slot, whether a counter is right, or who holds a lock:
tickets are about the records alone, and the ownership of storages about the program points of
resets. So both are proved of every access by the shape of its result, and the deeper invariants of
the next modules may use them from the start.

## Two disciplines for a step

A step that leaves the data alone (`SameData`) keeps both facts by congruence, whatever it does to
the locks. The steps that remain are the reservation of a push, the allocation and the exchanges of
a reset, and the last free.
-/

open Interleave

namespace Crossync

namespace AtomicArray

variable {ι α : Type*} [DecidableEq ι]

/-! ### What a step leaves as it was -/

/-- The counters, the slots and the records are as before: what happened, happened to the locks, to
`uses`, to `freed` or to the guards in hand. -/
structure SameData (s s' : Store ι α) : Prop where
  value : ∀ a i, (s'.slot a i).value = (s.slot a i).value
  state : ∀ a i, (s'.slot a i).state = (s.slot a i).state
  cap : ∀ a, (s'.heap a).capacity = (s.heap a).capacity
  storage : s'.storage = s.storage
  head : s'.head = s.head
  tail : s'.tail = s.tail
  len : s'.len = s.len
  headGen : s'.headGen = s.headGen
  tailGen : s'.tailGen = s.tailGen
  lenGen : s'.lenGen = s.lenGen
  ledger : s'.ledger = s.ledger
  offered : s'.offered = s.offered
  asked : s'.asked = s.asked
  next : s'.next = s.next
  undefined : s'.undefined = s.undefined

namespace SameData

variable {s s' s'' : Store ι α}

omit [DecidableEq ι] in
/-- A step that replaces none of the counters, records and storages leaves the data the same. -/
theorem of_heap (hheap : s'.heap = s.heap) (hstorage : s'.storage = s.storage)
    (hhead : s'.head = s.head) (htail : s'.tail = s.tail) (hlen : s'.len = s.len)
    (hhg : s'.headGen = s.headGen) (htg : s'.tailGen = s.tailGen) (hlg : s'.lenGen = s.lenGen)
    (hledger : s'.ledger = s.ledger) (hoff : s'.offered = s.offered) (hask : s'.asked = s.asked)
    (hnext : s'.next = s.next) (hun : s'.undefined = s.undefined) : SameData s s' :=
  ⟨fun a i ↦ by simp only [Store.slot, hheap], fun a i ↦ by simp only [Store.slot, hheap],
    fun a ↦ by rw [hheap], hstorage, hhead, htail, hlen, hhg, htg, hlg, hledger, hoff, hask, hnext,
    hun⟩

omit [DecidableEq ι] in
theorem refl (s : Store ι α) : SameData s s :=
  of_heap rfl rfl rfl rfl rfl rfl rfl rfl rfl rfl rfl rfl rfl

omit [DecidableEq ι] in
theorem trans (h : SameData s s') (h' : SameData s' s'') : SameData s s'' :=
  ⟨fun a i ↦ (h'.value a i).trans (h.value a i), fun a i ↦ (h'.state a i).trans (h.state a i),
    fun a ↦ (h'.cap a).trans (h.cap a), h'.storage.trans h.storage, h'.head.trans h.head,
    h'.tail.trans h.tail, h'.len.trans h.len, h'.headGen.trans h.headGen,
    h'.tailGen.trans h.tailGen, h'.lenGen.trans h.lenGen, h'.ledger.trans h.ledger,
    h'.offered.trans h.offered, h'.asked.trans h.asked, h'.next.trans h.next,
    h'.undefined.trans h.undefined⟩

omit [DecidableEq ι] in
theorem coord (s : Store ι α) (l : RawMutex.Store ι) : SameData s { s with coordLock := l } :=
  of_heap rfl rfl rfl rfl rfl rfl rfl rfl rfl rfl rfl rfl rfl

theorem use (s : Store ι α) (t : ι) (gens : List ℕ) : SameData s (s.use t gens) :=
  of_heap rfl rfl rfl rfl rfl rfl rfl rfl rfl rfl rfl rfl rfl

omit [DecidableEq ι] in
theorem free (s : Store ι α) (a : ℕ) : SameData s (s.free a) :=
  of_heap rfl rfl rfl rfl rfl rfl rfl rfl rfl rfl rfl rfl rfl

omit [DecidableEq ι] in
theorem guards (s : Store ι α) (gs : ι → List (Guard ι)) : SameData s { s with guards := gs } :=
  of_heap rfl rfl rfl rfl rfl rfl rfl rfl rfl rfl rfl rfl rfl

omit [DecidableEq ι] in
/-- An access of a slot's lock touches neither the value nor the state of the slot. -/
theorem setLock (s : Store ι α) (a i : ℕ) (l : SerialMutex.Store ι) :
    SameData s (s.setLock a i l) := by
  have hslot : ∀ b j, ((s.setLock a i l).slot b j).value = (s.slot b j).value ∧
      ((s.setLock a i l).slot b j).state = (s.slot b j).state := by
    intro b j
    rw [Store.setLock, slot_setSlot]
    split_ifs with h
    · rw [h.1, h.2]
      exact ⟨rfl, rfl⟩
    · exact ⟨rfl, rfl⟩
  refine ⟨fun b j ↦ (hslot b j).1, fun b j ↦ (hslot b j).2, fun b ↦ ?_, rfl, rfl, rfl,
    rfl, rfl, rfl,
    rfl, rfl, rfl, rfl, rfl, rfl⟩
  show (Function.update s.heap a _ b).capacity = _
  by_cases hb : b = a
  · subst hb
    rw [Function.update_self]
  · rw [Function.update_of_ne hb]

omit [DecidableEq ι] in
/-- The current capacity is the one of the storage, so it is the same too. -/
theorem capacity (h : SameData s s') : s'.capacity = s.capacity := by
  unfold Store.capacity
  rw [h.storage, h.cap]

end SameData

omit [DecidableEq ι] in
/-- Resuming a call leaves the data alone. -/
theorem sameData_resume (s : Store ι α) (k : After ι α) (e : RawMutex.Ret) :
    SameData s (resume s k e).1 := by
  unfold resume
  split
  case h_7 => exact .free _ _
  all_goals exact .refl _

/-- Entering a slot whose lock was acquired touches no data. -/
theorem sameData_locked (t : ι) (s : Store ι α) (v : Visit α) : SameData s (locked t s v).1 := by
  unfold locked
  split
  · exact .guards ..
  · exact .guards ..
  · exact .refl s

variable {ids : SerialMutex.OwnerIds ι} {adaptive : ℕ}

/-- **What an access of the coordination lock can do** inside a call: the call stays in the lock
operation, or goes on with what it returned. -/
theorem coord_cases [Fintype ι] {t : ι} {ch : Choice ι} {s s' : Store ι α} {p : RawMutex.Pc}
    {k : After ι α} {o : Outcome (Pc ι α) (Ret ι α)}
    (h : exec ids adaptive t ch s (.coord p k) = some (s', o)) :
    ∃ l, (∃ p', RawMutex.exec adaptive t ch s.coordLock p = some (l, .goto p') ∧
        s' = { s with coordLock := l } ∧ o = .goto (.coord p' k)) ∨
      ∃ e, RawMutex.exec adaptive t ch s.coordLock p = some (l, .ret e) ∧
        (s', o) = resume { s with coordLock := l } k e := by
  simp only [exec] at h
  split at h
  · cases h
  · rename_i l p' hr
    cases h
    exact ⟨l, Or.inl ⟨p', hr, rfl, rfl⟩⟩
  · rename_i l e hr
    exact ⟨l, Or.inr ⟨e, hr, (Option.some.inj h).symm⟩⟩

/-! ### Tickets

The names of pushes, and that the ledger has each of them once. -/

/-- The name of the last push that `t` has started. -/
def ticket (s : Store ι α) (t : ι) : ι × ℕ := (t, (s.offered t).length - 1)

/-- The value that a program point of a push carries. -/
def Pc.pushing : Pc ι α → Option α
  | .coord _ (.push v) | .coord _ (.finish (.full v)) => some v
  | .pushLoad _ v | .pushCas _ v _ | .pushWrite v _ _ | .pushLen v _ _ | .pushState v _ _ => some v
  | _ => none

/-- A push that has not reserved a slot. -/
def Pc.unreserved : Pc ι α → Bool
  | .coord _ (.push _) | .coord _ (.finish (.full _)) | .pushLoad _ _ | .pushCas _ _ _ => true
  | _ => false

/-- Who reserved the slots of a generation, with which values. -/
def names (s : Store ι α) (a : ℕ) : List (Option (ι × ℕ) × α) :=
  (s.ledger a).map fun r ↦ (r.pusher, r.accepted)

/-- The ledger names no push twice, and no push that has not reserved. -/
structure Tickets (c : Config ι (Store ι α) (Pc ι α)) : Prop where
  named : ∀ a, ∀ x ∈ names c.shared a, ∀ u n, x.1 = some (u, n) →
    (c.shared.offered u)[n]? = some x.2
  once : ∀ a b i j : ℕ, ∀ x y : Option (ι × ℕ) × α, ∀ k, (names c.shared a)[i]? = some x →
    (names c.shared b)[j]? = some y →
    x.1 = some k → y.1 = some k → a = b ∧ i = j
  last : ∀ t p v, c.pcs t = some p → p.pushing = some v → (c.shared.offered t).getLast? = some v
  fresh : ∀ t p, c.pcs t = some p → p.unreserved = true →
    ∀ a, ∀ x ∈ names c.shared a, x.1 ≠ some (ticket c.shared t)

section Tickets

variable {c : Config ι (Store ι α) (Pc ι α)} {t : ι} {s' : Store ι α}
  {o : Outcome (Pc ι α) (Ret ι α)}

/-- A step that reserves nothing: whoever is named after it was named there before. -/
theorem Tickets.same (h : Tickets c) (hoff : s'.offered = c.shared.offered)
    (hnames : ∀ (a i : ℕ) (x : Option (ι × ℕ) × α) k, (names s' a)[i]? = some x → x.1 = some k →
      (names c.shared a)[i]? = some x)
    (hlast : ∀ p v, o.pc = some p → p.pushing = some v → (c.shared.offered t).getLast? = some v)
    (hfresh : ∀ p, o.pc = some p → p.unreserved = true →
      ∀ a, ∀ x ∈ names c.shared a, x.1 ≠ some (ticket c.shared t)) :
    Tickets (c.put t (s', o)) := by
  have hmem : ∀ a x k, x ∈ names s' a → x.1 = some k → x ∈ names c.shared a := by
    intro a x k hx hk
    obtain ⟨i, hi⟩ := List.mem_iff_getElem?.1 hx
    exact List.mem_of_getElem? (hnames a i x k hi hk)
  refine ⟨fun a x hx u n hun ↦ ?_, fun a b i j x y k hx hy hxk hyk ↦ ?_, fun u q v hq hv ↦ ?_,
    fun u q hq hu a x hx hk ↦ ?_⟩
  · rw [Config.put_shared, hoff]
    exact h.named a x (hmem a x _ hx hun) u n hun
  · exact h.once a b i j x y k (hnames a i x k hx hxk) (hnames b j y k hy hyk) hxk hyk
  · rw [Config.put_shared, hoff]
    by_cases hut : u = t
    · subst hut
      exact hlast q v (by simpa using hq) hv
    · exact h.last u q v (by rwa [Config.put_pcs_of_ne _ _ hut] at hq) hv
  · have hticket : ticket s' u = ticket c.shared u := by
      unfold ticket
      rw [hoff]
    rw [Config.put_shared, hticket] at hk
    have hx' := hmem a x _ hx hk
    by_cases hut : u = t
    · subst hut
      exact hfresh q (by simpa using hq) hu a x hx' hk
    · exact h.fresh u q (by rwa [Config.put_pcs_of_ne _ _ hut] at hq) hu a x hx' hk

/-- A step inside a call: what the next program point carries, the last one did. -/
theorem Tickets.go {p : Pc ι α} (h : Tickets c) (hpc : c.pcs t = some p)
    (hoff : s'.offered = c.shared.offered) (hnames : ∀ a, names s' a = names c.shared a)
    (hpush : ∀ q v, o.pc = some q → q.pushing = some v → p.pushing = some v)
    (hun : ∀ q, o.pc = some q → q.unreserved = true → p.unreserved = true) :
    Tickets (c.put t (s', o)) :=
  h.same hoff (fun a _ _ _ hx _ ↦ hnames a ▸ hx)
    (fun q v hq hv ↦ h.last t p v hpc (hpush q v hq hv))
    fun q hq hu ↦ h.fresh t p hpc (hun q hq hu)

omit [DecidableEq ι] in
/-- The same records name the same pushes. -/
theorem SameData.names {s : Store ι α} (h : SameData s s') (a : ℕ) : names s' a = names s a := by
  unfold AtomicArray.names
  rw [h.ledger]

omit [DecidableEq ι] in
/-- A store into a slot names nobody new. -/
theorem names_store (s : Store ι α) (b i : ℕ) (v : α) (a : ℕ) :
    names (s.store b i v) a = names s a := by
  unfold names Store.store
  show (Function.update s.ledger b _ a).map _ = _
  by_cases ha : a = b
  · subst ha
    rw [Function.update_self]
    refine List.ext_getElem? fun j ↦ ?_
    simp only [List.getElem?_map, List.getElem?_modify]
    split_ifs <;> cases (s.ledger a)[j]? <;> rfl
  · rw [Function.update_of_ne ha]

/-- A reservation: the new entry names a push that was named nowhere. -/
theorem Tickets.reserve {slow : Bool} {v : α} {tail w : ℕ} (h : Tickets c)
    (hpc : c.pcs t = some (.pushCas slow v tail)) :
    Tickets (c.put (R := Ret ι α) t
      ((c.shared.use t [c.shared.tailGen, c.shared.storage]).reserve t v w,
        .goto (.pushWrite v c.shared.storage tail))) := by
  set s := c.shared with hs
  have hlast : (s.offered t).getLast? = some v := h.last t _ v hpc rfl
  have hfresh := h.fresh t _ hpc rfl
  have hat : (s.offered t)[(s.offered t).length - 1]? = some v := by
    rwa [← List.getLast?_eq_getElem?]
  have hnew : ∀ a, names ((s.use t [s.tailGen, s.storage]).reserve t v w) a =
      if a = s.storage then names s a ++ [(some (ticket s t), v)] else names s a := by
    intro a
    unfold names Store.reserve
    show (Function.update s.ledger s.storage _ a).map _ = _
    split_ifs with ha
    · subst ha
      rw [Function.update_self]
      simp [ticket, Store.use]
    · rw [Function.update_of_ne ha]
  have hmem : ∀ a x, x ∈ names ((s.use t [s.tailGen, s.storage]).reserve t v w) a →
      x ∈ names s a ∨ x = (some (ticket s t), v) := by
    intro a x hx
    rw [hnew] at hx
    split_ifs at hx
    · simpa using hx
    · exact Or.inl hx
  have hget : ∀ a i x, (names ((s.use t [s.tailGen, s.storage]).reserve t v w) a)[i]? = some x →
      (names s a)[i]? = some x ∨
        (a = s.storage ∧ i = (names s a).length ∧ x = (some (ticket s t), v)) := by
    intro a i x hx
    rw [hnew] at hx
    split_ifs at hx with ha
    · rcases Nat.lt_trichotomy i (names s a).length with hlt | heq | hgt
      · rw [List.getElem?_append_left hlt] at hx
        exact Or.inl hx
      · subst heq
        rw [List.getElem?_append_right le_rfl] at hx
        exact Or.inr ⟨ha, rfl, by simpa using hx.symm⟩
      · rw [List.getElem?_eq_none (by simp; omega)] at hx
        cases hx
    · exact Or.inl hx
  refine ⟨fun a x hx u n hun ↦ ?_, fun a b i j x y k hx hy hxk hyk ↦ ?_, fun u q x hq hx ↦ ?_,
    fun u q hq hu a x hx ↦ ?_⟩
  · obtain hx | rfl := hmem a x hx
    · exact h.named a x hx u n hun
    · cases hun
      exact hat
  · obtain hx | ⟨rfl, rfl, rfl⟩ := hget a i x hx
    · obtain hy | ⟨rfl, rfl, rfl⟩ := hget b j y hy
      · exact h.once a b i j x y k hx hy hxk hyk
      · cases hyk
        exact absurd hxk (hfresh a x (List.mem_of_getElem? hx))
    · obtain hy | ⟨rfl, rfl, rfl⟩ := hget b j y hy
      · cases hxk
        exact absurd hyk (hfresh b y (List.mem_of_getElem? hy))
      · exact ⟨rfl, rfl⟩
  · by_cases hut : u = t
    · subst hut
      rw [Config.put_pcs_self] at hq
      cases hq
      cases hx
      exact hlast
    · exact h.last u q x (by rwa [Config.put_pcs_of_ne _ _ hut] at hq) hx
  · by_cases hut : u = t
    · subst hut
      rw [Config.put_pcs_self] at hq
      cases hq
      cases hu
    · rw [Config.put_pcs_of_ne _ _ hut] at hq
      obtain hx | rfl := hmem a x hx
      · exact h.fresh u q hq hu a x hx
      · intro heq
        have : t = u := congrArg Prod.fst (Option.some.inj heq)
        exact hut this.symm

omit [DecidableEq ι] in
theorem pushing_coord (p p' : RawMutex.Pc) (k : After ι α) :
    (Pc.coord p k).pushing = (Pc.coord p' k).pushing ∧
      (Pc.coord p k).unreserved = (Pc.coord p' k).unreserved := by
  cases k with
  | finish r => cases r <;> exact ⟨rfl, rfl⟩
  | _ => exact ⟨rfl, rfl⟩

/-- A program point that is not one of a push. -/
def Pc.Idle (p : Pc ι α) : Prop := p.pushing = none ∧ p.unreserved = false

omit [DecidableEq ι] in
theorem idle_visitNext (v : Visit α) (capacity : ℕ) : (visitNext v capacity : Pc ι α).Idle := by
  unfold visitNext
  split <;> split_ifs <;> exact ⟨rfl, rfl⟩

omit [DecidableEq ι] in
theorem idle_visitFirst (j : Job α) (head len slots capacity : ℕ) :
    (visitFirst j head len slots capacity : Pc ι α).Idle := by
  unfold visitFirst
  split
  · split_ifs <;> exact ⟨rfl, rfl⟩
  · split_ifs <;> exact ⟨rfl, rfl⟩
  · exact idle_visitNext _ _

omit [DecidableEq ι] in
theorem idle_lenCheck (j : Job α) (len : ℕ) : (lenCheck j len : Pc ι α).Idle := by
  unfold lenCheck
  split
  · split_ifs <;> exact ⟨rfl, rfl⟩
  · split_ifs <;> exact ⟨rfl, rfl⟩
  · split_ifs <;> exact ⟨rfl, rfl⟩
  · exact ⟨rfl, rfl⟩

omit [DecidableEq ι] in
theorem idle_inspectNext (r : Reset) (i capacity : ℕ) :
    (inspectNext r i capacity : Pc ι α).Idle := by
  unfold inspectNext
  split_ifs <;> exact ⟨rfl, rfl⟩

omit [DecidableEq ι] in
/-- A push that looks at `tail` is still the push of its value. -/
theorem pushing_pushCheck (slow : Bool) (v : α) (tail capacity : ℕ) :
    (pushCheck slow v tail capacity : Pc ι α).pushing = some v := by
  unfold pushCheck
  split_ifs <;> rfl

/-- The call leaves the code of `push`, or never was in it. -/
theorem Tickets.idle (h : Tickets c) {s' : Store ι α} {o : Outcome (Pc ι α) (Ret ι α)}
    (hoff : s'.offered = c.shared.offered)
    (hnames : ∀ (a i : ℕ) (x : Option (ι × ℕ) × α) k, (names s' a)[i]? = some x → x.1 = some k →
      (names c.shared a)[i]? = some x)
    (ho : ∀ q, o.pc = some q → q.Idle) : Tickets (c.put t (s', o)) := by
  refine h.same hoff hnames (fun q v hq hv ↦ ?_) fun q hq hu ↦ ?_
  · rw [(ho q hq).1] at hv
    cases hv
  · rw [(ho q hq).2] at hu
    cases hu

/-- A step that offers and names nothing new, to a point that is no push. -/
theorem Tickets.goto (h : Tickets c) {s' : Store ι α} {q : Pc ι α}
    (hoff : s'.offered = c.shared.offered) (hnames : ∀ a, names s' a = names c.shared a)
    (hq : q.Idle) : Tickets (c.put (R := Ret ι α) t (s', .goto q)) := by
  refine h.idle hoff (fun a _ _ _ hx _ ↦ hnames a ▸ hx) ?_
  rintro _ ⟨⟩
  exact hq

theorem Tickets.goto_same (h : Tickets c) {s' : Store ι α} {q : Pc ι α}
    (hd : SameData c.shared s') (hq : q.Idle) : Tickets (c.put (R := Ret ι α) t (s', .goto q)) :=
  h.goto hd.offered hd.names hq

theorem Tickets.ret_same (h : Tickets c) {s' : Store ι α} (hd : SameData c.shared s')
    (r : Ret ι α) : Tickets (c.put (P := Pc ι α) t (s', .ret r)) :=
  h.idle hd.offered (fun a _ _ _ hx _ ↦ hd.names a ▸ hx) (by simp)

omit [DecidableEq ι] in
/-- What a call resumes with carries the value it had. -/
theorem pushing_resume {p : RawMutex.Pc} {k : After ι α} {s : Store ι α} {e : RawMutex.Ret}
    {q : Pc ι α} (hq : (resume s k e).2.pc = some q) :
    (∀ v, q.pushing = some v → (Pc.coord p k).pushing = some v) ∧
      (q.unreserved = true → (Pc.coord p k).unreserved = true) := by
  have hidle : q.Idle → (∀ v, q.pushing = some v → (Pc.coord p k).pushing = some v) ∧
      (q.unreserved = true → (Pc.coord p k).unreserved = true) := by
    rintro ⟨h₁, h₂⟩
    rw [h₁, h₂]
    exact ⟨fun v hv ↦ (by cases hv), fun h ↦ (by cases h)⟩
  unfold resume at hq
  split at hq
  · cases hq
    exact ⟨fun v hv ↦ hv, id⟩
  · cases hq
    exact hidle ⟨rfl, rfl⟩
  · cases hq
    exact hidle ⟨rfl, rfl⟩
  · cases hq
    exact hidle ⟨rfl, rfl⟩
  · cases hq
    exact hidle (idle_inspectNext _ _ _)
  · cases hq
    exact hidle ⟨rfl, rfl⟩
  · cases hq
  · cases hq
    exact hidle ⟨rfl, rfl⟩
  · cases hq

/-- **The step lemma of the tickets**: no access names a push twice or with another value. -/
theorem exec_tickets [Fintype ι] {ch : Choice ι} {p : Pc ι α} (h : Tickets c)
    (hpc : c.pcs t = some p) (he : exec ids adaptive t ch c.shared p = some (s', o)) :
    Tickets (c.put t (s', o)) := by
  cases p with
  | coord p k =>
    obtain ⟨l, ⟨p', -, rfl, rfl⟩ | ⟨e, -, hr⟩⟩ := coord_cases he
    · refine h.go hpc rfl (fun _ ↦ rfl) ?_ ?_
      · rintro _ v ⟨⟩ hv
        rw [(pushing_coord p p' k).1]
        exact hv
      · rintro _ ⟨⟩ hu
        rw [(pushing_coord p p' k).2]
        exact hu
    · obtain ⟨rfl, rfl⟩ := Prod.mk.inj hr
      have hd := (SameData.coord c.shared l).trans (sameData_resume _ k e)
      exact h.go hpc hd.offered hd.names (fun q v hq ↦ (pushing_resume hq).1 v)
        fun q hq ↦ (pushing_resume hq).2
  | pushLoad slow v =>
    cases he
    refine h.go hpc rfl (fun _ ↦ rfl) ?_ fun _ _ _ ↦ rfl
    rintro _ x ⟨⟩ hx
    rwa [pushing_pushCheck] at hx
  | pushCas slow v tail =>
    simp only [exec] at he
    split at he
    · cases he
      exact h.reserve hpc
    · cases he
      refine h.go hpc rfl (fun _ ↦ rfl) ?_ fun _ _ _ ↦ rfl
      rintro _ x ⟨⟩ hx
      split_ifs at hx
      · rwa [pushing_pushCheck] at hx
      · exact hx
  | pushWrite v a i =>
    cases he
    exact h.go hpc rfl (fun _ ↦ rfl) (by rintro _ x ⟨⟩ hx; exact hx) (by rintro _ ⟨⟩ hx; cases hx)
  | pushLen v a i =>
    cases he
    exact h.go hpc rfl (fun _ ↦ rfl) (by rintro _ x ⟨⟩ hx; exact hx) (by rintro _ ⟨⟩ hx; cases hx)
  | pushState v a i =>
    cases he
    exact h.goto rfl (fun _ ↦ rfl) ⟨rfl, rfl⟩
  | loadLen j =>
    cases he
    exact h.goto_same (.use ..) (idle_lenCheck _ _)
  | loadHead j len =>
    cases he
    exact h.goto_same (.use ..) (idle_visitFirst ..)
  | waitWrite v =>
    simp only [exec] at he
    split at he <;> cases he <;> exact h.goto_same (.refl _) ⟨rfl, rfl⟩
  | lock p v =>
    simp only [exec] at he
    obtain ⟨l, ⟨p', -, rfl, rfl⟩ | ⟨e, -, hr⟩⟩ := slotStep_cases he
    · exact h.goto_same (.setLock ..) ⟨rfl, rfl⟩
    · split at hr
      · obtain hl | hl := locked_cases t (c.shared.setLock v.slots v.target l) v
        · cases hr.trans hl
          exact h.ret_same ((SameData.setLock ..).trans (.guards _ _)) _
        · cases hr.trans hl
          exact h.goto_same (.setLock ..) ⟨rfl, rfl⟩
      · cases hr
        exact h.goto_same (.setLock ..) ⟨rfl, rfl⟩
  | access v =>
    simp only [exec] at he
    split at he
    · cases he
      refine h.goto ?_ (fun a ↦ ?_) ⟨rfl, rfl⟩
      · unfold shown
        split <;> rfl
      · unfold shown
        split
        · exact names_store ..
        · rfl
    · cases he
      exact h.goto rfl (fun _ ↦ rfl) ⟨rfl, rfl⟩
  | unlock p v =>
    simp only [exec] at he
    obtain ⟨l, ⟨p', -, rfl, rfl⟩ | ⟨e, -, hr⟩⟩ := slotStep_cases he
    · exact h.goto_same (.setLock ..) ⟨rfl, rfl⟩
    · split at hr
      · cases hr
        exact h.goto_same ((SameData.setLock ..).trans (.use ..)) (idle_visitNext ..)
      · cases hr
        exact h.goto_same (.setLock ..) ⟨rfl, rfl⟩
  | dropSlot p g =>
    simp only [exec] at he
    obtain ⟨l, ⟨p', -, rfl, rfl⟩ | ⟨e, -, hr⟩⟩ := slotStep_cases he
    · exact h.goto_same (.setLock ..) ⟨rfl, rfl⟩
    · split at hr
      · cases hr
        exact h.goto_same (.setLock ..) ⟨rfl, rfl⟩
      · cases hr
        exact h.ret_same (.setLock ..) _
  | inspect r i =>
    simp only [exec] at he
    split at he
    · cases he
      exact h.goto_same (.refl _) ⟨rfl, rfl⟩
    · cases he
      exact h.goto_same (.refl _) (idle_inspectNext ..)
  | resetDrop r old =>
    cases he
    exact h.ret_same (.free ..) _
  | resetTry r | resetShared r | resetStorage r =>
    cases he
    exact h.goto rfl (fun _ ↦ rfl) ⟨rfl, rfl⟩
  | resetHead r old | resetTail r old | resetLen r old =>
    cases he
    exact h.goto rfl (fun _ ↦ rfl) ⟨rfl, rfl⟩

/-- A push starts: its number has not been used yet. -/
theorem Tickets.push (h : Tickets c) (hpc : c.pcs t = none) (v : α) :
    Tickets (c.put (R := Ret ι α) t
      ({ c.shared.start t with
        offered := Function.update c.shared.offered t (c.shared.offered t ++ [v]) },
        .goto (shared (.push v)))) := by
  have hgrow : ∀ (u : ι) (n : ℕ) x, (c.shared.offered u)[n]? = some x →
      (Function.update c.shared.offered t (c.shared.offered t ++ [v]) u)[n]? = some x := by
    intro u n x hx
    by_cases hut : u = t
    · subst hut
      rw [Function.update_self, List.getElem?_append_left (List.getElem?_eq_some_iff.1 hx).1]
      exact hx
    · rwa [Function.update_of_ne hut]
  refine ⟨fun a x hx u n hun ↦ hgrow u n _ (h.named a x hx u n hun), h.once, fun u q x hq hx ↦ ?_,
    fun u q hq hu a x hx hk ↦ ?_⟩
  · by_cases hut : u = t
    · subst hut
      rw [Config.put_pcs_self] at hq
      cases hq
      cases hx
      simp
    · rw [Config.put_pcs_of_ne _ _ hut] at hq
      simp only [Config.put_shared, Function.update_of_ne hut]
      exact h.last u q x hq hx
  · by_cases hut : u = t
    · subst hut
      have hn := h.named a x hx u _ hk
      simp at hn
    · rw [Config.put_pcs_of_ne _ _ hut] at hq
      refine h.fresh u q hq hu a x hx (hk.trans ?_)
      unfold ticket
      simp [Function.update_of_ne hut]

/-- A call that starts offers its value under a new number and names nobody. -/
theorem enter_tickets {op : Op ι α} (h : Tickets c) (hpc : c.pcs t = none)
    (he : enter t op c.shared = some (s', o)) : Tickets (c.put t (s', o)) := by
  have hstart : SameData c.shared (c.shared.start t) :=
    .of_heap rfl rfl rfl rfl rfl rfl rfl rfl rfl rfl rfl rfl rfl
  cases op with
  | push v =>
    cases he
    exact h.push hpc v
  | get index | getMut index =>
    cases he
    exact h.goto_same hstart ⟨rfl, rfl⟩
  | asVec | forEach =>
    cases he
    exact h.goto_same hstart ⟨rfl, rfl⟩
  | forEachMut f =>
    cases he
    exact h.goto_same hstart ⟨rfl, rfl⟩
  | resetWith newCap inits =>
    simp only [enter] at he
    split at he
    · cases he
      exact h.ret_same (.refl _) _
    · cases he
      refine h.idle rfl (fun a i x k hx hk ↦ ?_) (by rintro _ ⟨⟩; exact ⟨rfl, rfl⟩)
      by_cases ha : a = c.shared.next
      · subst ha
        -- the entries of a replacement are fills
        unfold names at hx
        simp only [Store.adopt, Store.start, Function.update_self, List.map_map] at hx
        obtain ⟨y, -, rfl⟩ := List.mem_map.1 (List.mem_of_getElem? hx)
        cases hk
      · unfold names at hx ⊢
        simpa only [Store.adopt, Store.start, Function.update_of_ne ha] using hx
  | deref g =>
    simp only [enter] at he
    split_ifs at he
    split at he
    · cases he
      exact h.ret_same (.refl _) _
    · cases he
      exact h.idle rfl (fun _ _ _ _ hx _ ↦ hx) (by simp)
  | write g v =>
    simp only [enter] at he
    split_ifs at he
    cases he
    exact h.idle rfl (fun a _ _ _ hx _ ↦ names_store c.shared g.storage g.index v a ▸ hx) (by simp)
  | dropGuard g =>
    simp only [enter] at he
    split_ifs at he
    cases he
    exact h.goto_same (.of_heap rfl rfl rfl rfl rfl rfl rfl rfl rfl rfl rfl rfl rfl) ⟨rfl, rfl⟩
  | sendGuard g u =>
    by_cases hg : g ∈ c.shared.guards t
    · simp only [enter, if_pos hg] at he
      split at he
      · cases he
        exact h.idle rfl (fun _ _ _ _ hx _ ↦ hx) (by simp)
      · cases he
    · simp only [enter, if_neg hg] at he
      cases he

variable {ok : Config ι (Store ι α) (Pc ι α) → Label ι (Op ι α) → Prop} {capacity : ℕ}

/-- **Every push is named at most once, with its own value, along every run.** -/
theorem reach_tickets [Fintype ι] (h : Reach (atomicArray ids adaptive) ok (init capacity) c) :
    Tickets c := by
  refine h.invariant (I := Tickets) ?_ (fun c t op r _ ht _ hpc he ↦ enter_tickets ht hpc he)
    fun c t ch p r _ ht _ hpc he ↦ exec_tickets ht hpc he
  exact ⟨fun a x hx ↦ (by cases hx), fun a b i j x y k hx ↦
    (by simp [names, init, Store.new] at hx),
    fun t p v hp ↦ (by cases hp), fun t p hp ↦ (by cases hp)⟩

end Tickets

/-! ### Storages

Which reset owns which storage, and that nothing is given back twice. -/

/-- The storage a reset owns: its replacement before the exchange, the replaced one after it. -/
def Pc.own : Pc ι α → Option ℕ
  | .coord _ (.attempt r) | .coord _ (.inspect r) | .coord _ (.retry r) | .coord _ (.unwind r) =>
    some r.fresh
  | .coord _ (.commit _ old) => some old
  | .resetTry r | .resetShared r | .inspect r _ | .resetStorage r => some r.fresh
  | .resetHead _ old | .resetTail _ old | .resetLen _ old | .resetDrop _ old => some old
  | _ => none

/-- What resets own is theirs alone, and neither that nor the array's storage was given back. -/
structure Owns (c : Config ι (Store ι α) (Pc ι α)) : Prop where
  mine : ∀ t p a, c.pcs t = some p → p.own = some a →
    a < c.shared.next ∧ a ≠ c.shared.storage ∧ c.shared.freed a = false
  apart : ∀ t u p q a, t ≠ u → c.pcs t = some p → c.pcs u = some q → p.own = some a →
    q.own ≠ some a
  storage : c.shared.storage < c.shared.next ∧ c.shared.freed c.shared.storage = false
  unused : ∀ a, c.shared.next ≤ a → c.shared.freed a = false

section Owns

variable {c : Config ι (Store ι α) (Pc ι α)} {t : ι} {s' : Store ι α}
  {o : Outcome (Pc ι α) (Ret ι α)}

/-- A step of `t` after which it owns `x` at most, and the others what they did. -/
theorem Owns.step (h : Owns c) (x : Option ℕ)
    (ho : ∀ q a, o.pc = some q → q.own = some a → x = some a)
    (hx : ∀ a, x = some a → a < s'.next ∧ a ≠ s'.storage ∧ s'.freed a = false)
    (hother : ∀ u q a, u ≠ t → c.pcs u = some q → q.own = some a →
      x ≠ some a ∧ a < s'.next ∧ a ≠ s'.storage ∧ s'.freed a = false)
    (hstorage : s'.storage < s'.next ∧ s'.freed s'.storage = false)
    (hunused : ∀ a, s'.next ≤ a → s'.freed a = false) : Owns (c.put t (s', o)) := by
  refine ⟨fun u q a hq ha ↦ ?_, fun u v q r a huv hq hr ha hra ↦ ?_, hstorage, hunused⟩
  · by_cases hut : u = t
    · subst hut
      exact hx a (ho q a (by simpa using hq) ha)
    · exact (hother u q a hut (by rwa [Config.put_pcs_of_ne _ _ hut] at hq) ha).2
  · by_cases hut : u = t
    · subst hut
      have hxa := ho q a (by simpa using hq) ha
      rw [Config.put_pcs_of_ne _ _ huv.symm] at hr
      exact (hother v r a huv.symm hr hra).1 hxa
    · rw [Config.put_pcs_of_ne _ _ hut] at hq
      by_cases hvt : v = t
      · subst hvt
        exact (hother u q a hut hq ha).1 (ho r a (by simpa using hr) hra)
      · rw [Config.put_pcs_of_ne _ _ hvt] at hr
        exact h.apart u v q r a huv hq hr ha hra

/-- A step that neither exchanges nor gives back. -/
theorem Owns.go (h : Owns c) (hst : s'.storage = c.shared.storage)
    (hfreed : s'.freed = c.shared.freed) (hnext : s'.next = c.shared.next)
    (ho : ∀ q, o.pc = some q → q.own = none ∨ q.own = (c.pcs t).bind Pc.own) :
    Owns (c.put t (s', o)) := by
  refine h.step ((c.pcs t).bind Pc.own) (fun q a hq ha ↦ ?_) (fun a ha ↦ ?_)
    (fun u q a hut hq ha ↦ ⟨?_, ?_⟩) ?_ ?_
  · obtain hn | hn := ho q hq
    · rw [hn] at ha
      cases ha
    · rw [← hn, ha]
  · obtain ⟨p, hp, hpa⟩ := Option.bind_eq_some_iff.1 ha
    rw [hst, hfreed, hnext]
    exact h.mine t p a hp hpa
  · intro hta
    obtain ⟨p, hp, hpa⟩ := Option.bind_eq_some_iff.1 hta
    exact h.apart t u p q a hut.symm hp hq hpa ha
  · rw [hst, hfreed, hnext]
    exact h.mine u q a hq ha
  · rw [hst, hfreed, hnext]
    exact h.storage
  · rw [hfreed, hnext]
    exact h.unused

/-- A reset gives back what it owns and returns. -/
theorem Owns.free {p : Pc ι α} {a : ℕ} (h : Owns c) (s : Store ι α) (hpc : c.pcs t = some p)
    (ha : p.own = some a) (hst : s.storage = c.shared.storage) (hfreed : s.freed = c.shared.freed)
    (hnext : s.next = c.shared.next) (r : Ret ι α) :
    Owns (c.put (P := Pc ι α) t (s.free a, .ret r)) := by
  have hne : ∀ b, b ≠ a → (s.free a).freed b = c.shared.freed b := by
    intro b hb
    show Function.update s.freed a true b = _
    rw [Function.update_of_ne hb, hfreed]
  obtain ⟨hlt, hstore, -⟩ := h.mine t p a hpc ha
  refine h.step none (by simp) (by simp) (fun u q b hut hq hb ↦ ⟨by simp, ?_⟩) ?_ fun b hb ↦ ?_
  · have hba : b ≠ a := by
      rintro rfl
      exact h.apart t u p q b hut.symm hpc hq ha hb
    show b < s.next ∧ b ≠ s.storage ∧ (s.free a).freed b = false
    rw [hne b hba, hst, hnext]
    exact h.mine u q b hq hb
  · show s.storage < s.next ∧ (s.free a).freed s.storage = false
    rw [hst, hne _ hstore.symm, hnext]
    exact h.storage
  · have hb' : c.shared.next ≤ b := hnext ▸ hb
    rw [hne b (by rintro rfl; omega)]
    exact h.unused b hb'

/-- A call that goes on with no storage of its own. -/
theorem Owns.goWithout {q : Pc ι α} (h : Owns c) (hst : s'.storage = c.shared.storage)
    (hfreed : s'.freed = c.shared.freed) (hnext : s'.next = c.shared.next) (hq : q.own = none) :
    Owns (c.put t (s', (.goto q : Outcome (Pc ι α) (Ret ι α)))) := by
  refine h.go hst hfreed hnext ?_
  rintro _ ⟨⟩
  exact Or.inl hq

/-- A call that goes on with the same storage. -/
theorem Owns.goWith {p q : Pc ι α} (h : Owns c) (hpc : c.pcs t = some p)
    (hst : s'.storage = c.shared.storage) (hfreed : s'.freed = c.shared.freed)
    (hnext : s'.next = c.shared.next) (hq : q.own = p.own) :
    Owns (c.put t (s', (.goto q : Outcome (Pc ι α) (Ret ι α)))) := by
  refine h.go hst hfreed hnext ?_
  rintro _ ⟨⟩
  rw [hpc]
  exact Or.inr hq

omit [DecidableEq ι] in
theorem own_coord (p p' : RawMutex.Pc) (k : After ι α) :
    (Pc.coord p k).own = (Pc.coord p' k).own := by
  cases k <;> rfl

omit [DecidableEq ι] in
theorem own_visitNext (v : Visit α) (capacity : ℕ) :
    (visitNext v capacity : Pc ι α).own = none := by
  unfold visitNext
  split <;> split_ifs <;> rfl

omit [DecidableEq ι] in
theorem own_visitFirst (j : Job α) (head len slots capacity : ℕ) :
    (visitFirst j head len slots capacity : Pc ι α).own = none := by
  unfold visitFirst
  split
  · split_ifs <;> rfl
  · split_ifs <;> rfl
  · exact own_visitNext _ _

omit [DecidableEq ι] in
theorem own_lenCheck (j : Job α) (len : ℕ) : (lenCheck j len : Pc ι α).own = none := by
  unfold lenCheck
  split
  · split_ifs <;> rfl
  · split_ifs <;> rfl
  · split_ifs <;> rfl
  · rfl

omit [DecidableEq ι] in
theorem own_inspectNext (r : Reset) (i capacity : ℕ) :
    (inspectNext r i capacity : Pc ι α).own = some r.fresh := by
  unfold inspectNext
  split_ifs <;> rfl

omit [DecidableEq ι] in
theorem own_pushCheck (slow : Bool) (v : α) (tail capacity : ℕ) :
    (pushCheck slow v tail capacity : Pc ι α).own = none := by
  unfold pushCheck
  split_ifs <;> rfl

omit [DecidableEq ι] in
/-- A call that goes on gives nothing back, unless it is a reset that unwinds. -/
theorem freed_resume (s : Store ι α) {k : After ι α} (hk : ∀ r, k ≠ .unwind r) (e : RawMutex.Ret) :
    (resume s k e).1.freed = s.freed := by
  unfold resume
  split
  case h_7 => exact absurd rfl (hk _)
  all_goals rfl

/-- **The step lemma of the storages**: no access makes two resets own one storage or gives back one
that is owned. -/
theorem exec_owns [Fintype ι] {ch : Choice ι} {p : Pc ι α} (h : Owns c) (hpc : c.pcs t = some p)
    (he : exec ids adaptive t ch c.shared p = some (s', o)) : Owns (c.put t (s', o)) := by
  cases p with
  | coord p k =>
    obtain ⟨l, ⟨p', -, rfl, rfl⟩ | ⟨e, -, hr⟩⟩ := coord_cases he
    · exact h.goWith hpc rfl rfl rfl (own_coord p' p k)
    · by_cases hk : ∃ r, k = .unwind r
      · obtain ⟨r, rfl⟩ := hk
        cases hr
        exact h.free { c.shared with coordLock := l } hpc rfl rfl rfl rfl _
      · obtain ⟨rfl, rfl⟩ := Prod.mk.inj hr
        refine h.go ?_ ?_ ?_ fun q hq ↦ ?_
        · exact ((SameData.coord c.shared l).trans (sameData_resume _ k e)).storage
        · exact freed_resume _ (fun r hr ↦ hk ⟨r, hr⟩) e
        · exact ((SameData.coord c.shared l).trans (sameData_resume _ k e)).next
        · rw [hpc]
          split at hq <;> cases hq <;> first
            | exact Or.inl rfl
            | exact Or.inr rfl
            | exact Or.inr (own_inspectNext _ _ _)
  | pushLoad slow v =>
    cases he
    exact h.goWithout rfl rfl rfl (own_pushCheck ..)
  | pushCas slow v tail =>
    simp only [exec] at he
    split at he
    · cases he
      exact h.goWithout rfl rfl rfl rfl
    · cases he
      refine h.goWithout rfl rfl rfl ?_
      split_ifs
      · exact own_pushCheck ..
      · rfl
  | pushWrite | pushLen | pushState =>
    cases he
    exact h.goWithout rfl rfl rfl rfl
  | loadLen j =>
    cases he
    exact h.goWithout rfl rfl rfl (own_lenCheck ..)
  | loadHead j len =>
    cases he
    exact h.goWithout rfl rfl rfl (own_visitFirst ..)
  | waitWrite v =>
    simp only [exec] at he
    split at he <;> cases he <;> exact h.goWithout rfl rfl rfl rfl
  | lock p v =>
    simp only [exec] at he
    obtain ⟨l, ⟨p', -, rfl, rfl⟩ | ⟨e, -, hr⟩⟩ := slotStep_cases he
    · exact h.goWithout rfl rfl rfl rfl
    · split at hr
      · obtain hl | hl := locked_cases t (c.shared.setLock v.slots v.target l) v
        · cases hr.trans hl
          exact h.go rfl rfl rfl (by simp)
        · cases hr.trans hl
          exact h.goWithout rfl rfl rfl rfl
      · cases hr
        exact h.goWithout rfl rfl rfl rfl
  | access v =>
    simp only [exec] at he
    split at he
    · cases he
      refine h.go ?_ ?_ ?_ ?_
      iterate 3
        · unfold shown
          split <;> rfl
      · rintro _ ⟨⟩
        exact Or.inl rfl
    · cases he
      exact h.goWithout rfl rfl rfl rfl
  | unlock p v =>
    simp only [exec] at he
    obtain ⟨l, ⟨p', -, rfl, rfl⟩ | ⟨e, -, hr⟩⟩ := slotStep_cases he
    · exact h.goWithout rfl rfl rfl rfl
    · split at hr
      · cases hr
        exact h.goWithout rfl rfl rfl (own_visitNext ..)
      · cases hr
        exact h.goWithout rfl rfl rfl rfl
  | dropSlot p g =>
    simp only [exec] at he
    obtain ⟨l, ⟨p', -, rfl, rfl⟩ | ⟨e, -, hr⟩⟩ := slotStep_cases he
    · exact h.goWithout rfl rfl rfl rfl
    · split at hr
      · cases hr
        exact h.goWithout rfl rfl rfl rfl
      · cases hr
        exact h.go rfl rfl rfl (by simp)
  | inspect r i =>
    simp only [exec] at he
    split at he
    · cases he
      exact h.goWith hpc rfl rfl rfl rfl
    · cases he
      exact h.goWith hpc rfl rfl rfl (own_inspectNext ..)
  | resetTry r | resetShared r =>
    cases he
    exact h.goWith hpc rfl rfl rfl rfl
  | resetStorage r =>
    cases he
    -- the exchange: the replacement becomes the array's storage, and the array's the reset's
    obtain ⟨hlt, hne, hfreed⟩ := h.mine t _ r.fresh hpc rfl
    refine h.step (some c.shared.storage) ?_ ?_ (fun u q a hut hq ha ↦ ?_) ⟨hlt, hfreed⟩ h.unused
    · rintro _ a ⟨⟩ ha
      exact ha
    · rintro a ⟨⟩
      exact ⟨h.storage.1, hne.symm, h.storage.2⟩
    · obtain ⟨halt, hane, hafreed⟩ := h.mine u q a hq ha
      refine ⟨fun heq ↦ hane (Option.some.inj heq).symm, halt, ?_, hafreed⟩
      rintro rfl
      exact h.apart t u _ q _ hut.symm hpc hq rfl ha
  | resetHead r old | resetTail r old | resetLen r old =>
    cases he
    exact h.goWith hpc rfl rfl rfl rfl
  | resetDrop r old =>
    cases he
    exact h.free c.shared hpc rfl rfl rfl rfl _

/-- A reset that starts owns a storage nobody had; every other call owns none. -/
theorem enter_owns {op : Op ι α} (h : Owns c)
    (he : enter t op c.shared = some (s', o)) : Owns (c.put t (s', o)) := by
  cases op with
  | push v | get v | getMut v | forEachMut v =>
    cases he
    exact h.goWithout rfl rfl rfl rfl
  | asVec | forEach =>
    cases he
    exact h.goWithout rfl rfl rfl rfl
  | resetWith newCap inits =>
    simp only [enter] at he
    split at he
    · cases he
      exact h.go rfl rfl rfl (by simp)
    · cases he
      refine h.step (some c.shared.next) ?_ ?_ (fun u q a hut hq ha ↦ ?_) ?_ fun a ha ↦
        h.unused a (Nat.le_of_succ_le ha)
      · rintro _ a ⟨⟩ ha
        exact ha
      · rintro a ⟨⟩
        exact ⟨Nat.lt_succ_self _, h.storage.1.ne', h.unused _ le_rfl⟩
      · obtain ⟨halt, hane, hafreed⟩ := h.mine u q a hq ha
        exact ⟨fun heq ↦ halt.ne (Option.some.inj heq).symm, Nat.lt_succ_of_lt halt, hane, hafreed⟩
      · exact ⟨Nat.lt_succ_of_lt h.storage.1, h.storage.2⟩
  | deref g =>
    simp only [enter] at he
    split_ifs at he
    split at he <;> cases he <;> exact h.go rfl rfl rfl (by simp)
  | write g v =>
    simp only [enter] at he
    split_ifs at he
    cases he
    exact h.go rfl rfl rfl (by simp)
  | dropGuard g =>
    simp only [enter] at he
    split_ifs at he
    cases he
    exact h.goWithout rfl rfl rfl rfl
  | sendGuard g u =>
    by_cases hg : g ∈ c.shared.guards t
    · simp only [enter, if_pos hg] at he
      split at he
      · cases he
        exact h.go rfl rfl rfl (by simp)
      · cases he
    · simp only [enter, if_neg hg] at he
      cases he

variable {ok : Config ι (Store ι α) (Pc ι α) → Label ι (Op ι α) → Prop} {capacity : ℕ}

/-- **Every storage has one owner, along every run.** -/
theorem reach_owns [Fintype ι] (h : Reach (atomicArray ids adaptive) ok (init capacity) c) :
    Owns c := by
  refine h.invariant (I := Owns) ?_ (fun c t op r _ ho _ _ he ↦ enter_owns ho he)
    fun c t ch p r _ ho _ hpc he ↦ exec_owns ho hpc he
  exact ⟨fun t p a hp ↦ (by cases hp), fun t u p q a _ hp ↦ (by cases hp),
    ⟨Nat.one_pos, rfl⟩, fun _ _ ↦ rfl⟩

end Owns

end AtomicArray

end Crossync
