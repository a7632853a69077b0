import Mathlib.Data.Finset.Card
import Crossync.Atomic.VecLedger

/-!
# The blocks of an `AtomicVec`

Every address is in one *role*: it is not allocated, it is the `n`-th block of the chain, it is in
the hands of one thread, it is on the retired list, or it is in the pool. The `n`-th block of the
chain is *live* until all its 31 data slots have been read and counted; while it is live, its slots
show the phases of the slots numbered `31 * n … 31 * n + 30` (`Shows`).

`Chain` is about the live blocks and the two ends, `Stock` about all others. A stale pointer to a
block is never followed: a thread that accesses a block of the chain holds one of its slots, so the
block is live.

## Why blocks are never followed stale

The address of a block may be reused while a thread still has it in a local variable: a pop may have
loaded `head.block` long ago. Such a thread holds no slot, and its compare-exchange on the index
fails; only after it succeeded does it follow the pointer. That the block is then the right one is
`Chain` together with the phase of the slot just reserved.
-/

open Interleave

namespace Crossync

namespace AtomicVec

variable {ι α : Type*}

/-! ### Lists in memory -/

/-- The addresses `l`, all different and none of them null, are linked from `b` to null. -/
def Linked (next : ℕ → ℕ) : ℕ → List ℕ → Prop
  | b, [] => b = 0
  | b, x :: l => b = x ∧ x ≠ 0 ∧ x ∉ l ∧ Linked next (next x) l

theorem Linked.congr {next next' : ℕ → ℕ} {l : List ℕ} {b : ℕ} (h : Linked next b l)
    (heq : ∀ x ∈ l, next' x = next x) : Linked next' b l := by
  induction l generalizing b with
  | nil => exact h
  | cons x l ih =>
    obtain ⟨hb, hx, hnot, hl⟩ := h
    refine ⟨hb, hx, hnot, ?_⟩
    rw [heq x (by simp)]
    exact ih hl fun y hy ↦ heq y (by simp [hy])

theorem Linked.cases {next : ℕ → ℕ} {l : List ℕ} {b : ℕ} (h : Linked next b l) (hb : b ≠ 0) :
    ∃ l', l = b :: l' ∧ b ∉ l' ∧ Linked next (next b) l' := by
  cases l with
  | nil => exact absurd h hb
  | cons x l =>
    obtain ⟨rfl, -, hnot, hl⟩ := h
    exact ⟨l, rfl, hnot, hl⟩

/-! ### What a block shows

The state words and values of the 31 data slots, as the phases of these slots say. -/

/-- The pop has counted its read. -/
def Phase.counted : Phase PopStage ι → Bool
  | .held .counted _ | .done => true
  | _ => false

/-- The pop has taken the value. -/
def Phase.taken : Phase PopStage ι → Bool
  | .free | .held .reserved _ => false
  | _ => true

/-- The state of a slot. -/
def slotState : Phase PushStage ι → Phase PopStage ι → ℕ
  | .done, .free | .done, .held .reserved _ | .done, .held .taken _ => write
  | _, .held .marked _ | _, .held .counted _ | _, .done => read
  | _, _ => 0

/-- The value in a slot, given the value `x` brought by its push. -/
def slotValue (x : Option (ℕ × α)) : Phase PushStage ι → Phase PopStage ι → Option (ℕ × α)
  | .held .written _, .free | .held .written _, .held .reserved _ | .done, .free
  | .done, .held .reserved _ => x
  | _, _ => none

/-- The value brought for a slot, with the number of the slot. -/
def brought (s : Store ι α) (k : ℕ) : Option (ℕ × α) := (s.pushes[k]?).map fun v ↦ (k, v)

/-- How many reads of the `n`-th block have been counted. -/
def reads (φ : ℕ → Phase PopStage ι) (n : ℕ) : ℕ :=
  ((Finset.range 31).filter fun i ↦ (φ (31 * n + i)).counted = true).card

section Reads

variable {φ φ' : ℕ → Phase PopStage ι} {n i : ℕ}

theorem reads_congr (h : ∀ i < 31, (φ' (31 * n + i)).counted = (φ (31 * n + i)).counted) :
    reads φ' n = reads φ n := by
  unfold reads
  congr 1
  refine Finset.filter_congr fun i hi ↦ ?_
  rw [h i (Finset.mem_range.1 hi)]

theorem reads_lt (hi : i < 31) (h : (φ (31 * n + i)).counted = false) : reads φ n < 31 := by
  have hlt : ((Finset.range 31).filter fun i ↦ (φ (31 * n + i)).counted = true) ⊂
      Finset.range 31 := by
    refine Finset.filter_ssubset.2 ⟨i, Finset.mem_range.2 hi, ?_⟩
    rw [h]
    simp
  simpa [reads] using Finset.card_lt_card hlt

theorem counted_of_reads (h : reads φ n = 31) (hi : i < 31) : (φ (31 * n + i)).counted = true := by
  by_contra hne
  have := reads_lt hi (by simpa using hne)
  omega

/-- One more read is counted. -/
theorem reads_succ (hi : i < 31) (hbefore : (φ (31 * n + i)).counted = false)
    (hafter : (φ' (31 * n + i)).counted = true)
    (hother : ∀ j < 31, j ≠ i → φ' (31 * n + j) = φ (31 * n + j)) : reads φ' n = reads φ n + 1 := by
  unfold reads
  have hset : ((Finset.range 31).filter fun j ↦ (φ' (31 * n + j)).counted = true) =
      insert i ((Finset.range 31).filter fun j ↦ (φ (31 * n + j)).counted = true) := by
    ext j
    simp only [Finset.mem_filter, Finset.mem_range, Finset.mem_insert]
    by_cases hj : j = i
    · subst hj
      simp [hi, hafter]
    · simp only [hj, false_or]
      exact and_congr_right fun hlt ↦ by rw [hother j hlt hj]
  rw [hset, Finset.card_insert_of_notMem]
  simp [hbefore]

end Reads

/-! ### Roles

Who has which address, and how the chain and the stock move. -/

/-- The role of an address. -/
inductive Role (ι : Type*) where
  | unallocated
  /-- The `n`-th block of the chain, still live. -/
  | active (n : ℕ)
  /-- In the hands of a thread. -/
  | owned (t : ι)
  /-- On the retired list. -/
  | retired
  /-- In the pool, at a position of the free list that has not been taken out. -/
  | pooled (pos : ℕ)

/-- The phases of the slots, the addresses of the blocks up to the last one linked, and the
roles. -/
structure Ghost (ι : Type*) extends Phases ι where
  chain : ℕ → ℕ
  last : ℕ
  role : ℕ → Role ι

/-- A block as it is put into the chain. -/
structure Clean (x : Block α) : Prop where
  next : x.next = 0
  counters : x.counters = 0
  state : ∀ i < 31, x.state i = 0
  value : ∀ i < 31, x.value i = none

/-- A block whose slots have all been written and read. -/
structure Spent (x : Block α) : Prop where
  state : ∀ i < 31, x.state i = read
  value : ∀ i < 31, x.value i = none

/-- The block shows the phases of the slots of the `n`-th block. -/
structure Shows (G : Ghost ι) (s : Store ι α) (n : ℕ) (x : Block α) : Prop where
  state : ∀ i < 31, x.state i = slotState (G.pushed (31 * n + i)) (G.popped (31 * n + i))
  value : ∀ i < 31,
    x.value i = slotValue (brought s (31 * n + i)) (G.pushed (31 * n + i)) (G.popped (31 * n + i))
  counters : x.counters = reads G.popped n
  next : x.next = if n < G.last then G.chain (n + 1) else 0

/-- **The chain**: its live blocks show the phases, a value is taken only after it was published,
and the ends point to their blocks unless they are being moved on. -/
structure Chain (G : Ghost ι) (s : Store ι α) : Prop where
  active_iff : ∀ b n, G.role b = .active n ↔ n ≤ G.last ∧ G.chain n = b ∧ reads G.popped n < 31
  shows : ∀ n, n ≤ G.last → reads G.popped n < 31 → Shows G s n (s.heap (G.chain n))
  /-- Values are only in live blocks. -/
  vacant : ∀ b, (∀ n, G.role b ≠ .active n) → ∀ i < 31, (s.heap b).value i = none
  taken : ∀ k, (G.popped k).taken = true → G.pushed k = .done
  pushes_le : s.pushes.length ≤ 31 * (G.last + 1)
  pops_le : s.pops ≤ 31 * (G.last + 1)
  tail : s.tail.index / 2 % 32 ≠ 31 → s.tail.block = G.chain G.last ∧ s.pushes.length / 31 = G.last
  head : s.head.index / 2 % 32 ≠ 31 → s.head.block = G.chain (s.pops / 31) ∧ s.pops / 31 ≤ G.last

/-- **Everything else**: what is allocated, the retired list with spent blocks, and the pool with
clean ones. -/
structure Stock (G : Ghost ι) (s : Store ι α) : Prop where
  alloc_iff : ∀ b, s.allocated b = true ↔ G.role b ≠ .unallocated
  null : G.role 0 = .unallocated
  retired : ∃ l, Linked (fun b ↦ (s.heap b).next) s.retired l ∧ ∀ b, G.role b = .retired ↔ b ∈ l
  spent : ∀ b, G.role b = .retired → Spent (s.heap b)
  pooled_iff : ∀ b pos, G.role b = .pooled pos ↔
    s.freeList.head ≤ pos ∧ s.freeList.pushes[pos]? = some b
  clean : ∀ b pos, G.role b = .pooled pos → Clean (s.heap b)

namespace Chain

variable {G G' : Ghost ι} {s s' : Store ι α} {n i k : ℕ} {t : ι}

theorem role_chain (h : Chain G s) (hn : n ≤ G.last) (hlive : reads G.popped n < 31) :
    G.role (G.chain n) = .active n :=
  (h.active_iff _ n).2 ⟨hn, rfl, hlive⟩

theorem chain_inj (h : Chain G s) {m : ℕ} (hn : n ≤ G.last) (hlive : reads G.popped n < 31)
    (hm : m ≤ G.last) (hlive' : reads G.popped m < 31) (heq : G.chain n = G.chain m) : n = m := by
  have h₁ := h.role_chain hn hlive
  rw [heq, h.role_chain hm hlive'] at h₁
  cases h₁
  rfl

/-- **The block of a slot that has not been published, or not been counted, is live.** -/
theorem live_of_not_counted (hk : (G.popped k).counted = false) : reads G.popped (k / 31) < 31 := by
  refine reads_lt (i := k % 31) (Nat.mod_lt _ (by decide)) ?_
  rwa [Nat.div_add_mod]

theorem live_of_pushing (h : Chain G s) (hk : G.pushed k ≠ .done) :
    reads G.popped (k / 31) < 31 := by
  refine live_of_not_counted ?_
  by_contra hc
  refine hk (h.taken k ?_)
  cases hp : G.popped k with
  | free => simp [hp, Phase.counted] at hc
  | held st u => cases st <;> simp_all [Phase.counted, Phase.taken]
  | done => rfl

/-- A step that changes nothing the live blocks show. -/
theorem frame (h : Chain G s) (hch : G'.chain = G.chain) (hl : G'.last = G.last)
    (hact : ∀ b n, G'.role b = .active n ↔ G.role b = .active n)
    (hheap : ∀ b, s'.heap b = s.heap b ∨ (∀ n, G.role b ≠ .active n) ∧
      ∀ i < 31, (s.heap b).value i = none → (s'.heap b).value i = none)
    (hcount : ∀ k, (G'.popped k).counted = (G.popped k).counted)
    (hstate : ∀ k, slotState (G'.pushed k) (G'.popped k) = slotState (G.pushed k) (G.popped k))
    (hvalue : ∀ k, slotValue (brought s' k) (G'.pushed k) (G'.popped k) =
      slotValue (brought s k) (G.pushed k) (G.popped k))
    (htaken : ∀ k, (G'.popped k).taken = true → G'.pushed k = .done)
    (hpu : s'.pushes.length ≤ 31 * (G.last + 1)) (hpo : s'.pops ≤ 31 * (G.last + 1))
    (htail : s'.tail.index / 2 % 32 ≠ 31 →
      s'.tail.block = G.chain G.last ∧ s'.pushes.length / 31 = G.last)
    (hhead : s'.head.index / 2 % 32 ≠ 31 →
      s'.head.block = G.chain (s'.pops / 31) ∧ s'.pops / 31 ≤ G.last) : Chain G' s' := by
  have hreads : ∀ m, reads G'.popped m = reads G.popped m := fun m ↦
    reads_congr fun j _ ↦ hcount _
  refine ⟨?_, ?_, ?_, htaken, hl ▸ hpu, hl ▸ hpo, ?_, ?_⟩
  · intro b n
    rw [hact, hch, hl, hreads]
    exact h.active_iff b n
  · intro n hn hlive
    rw [hl] at hn
    rw [hreads] at hlive
    have hx := h.shows n hn hlive
    have hsame : s'.heap (G.chain n) = s.heap (G.chain n) :=
      (hheap _).resolve_right fun hc ↦ hc.1 n (h.role_chain hn hlive)
    rw [hch, hsame]
    refine ⟨fun i hi ↦ ?_, fun i hi ↦ ?_, ?_, ?_⟩
    · rw [hstate]
      exact hx.state i hi
    · rw [hvalue]
      exact hx.value i hi
    · rw [hreads]
      exact hx.counters
    · rw [hch, hl]
      exact hx.next
  · intro b hb i hi
    have hv := h.vacant b (fun n hn ↦ hb n ((hact b n).2 hn)) i hi
    rcases hheap b with he | ⟨-, he⟩
    · rwa [he]
    · exact he i hi hv
  · rw [hch, hl]
    exact htail
  · rw [hch, hl]
    exact hhead

/-- A step that leaves the phases, the live blocks and the reservations alone. -/
theorem congr (h : Chain G s) (hch : G'.chain = G.chain) (hl : G'.last = G.last)
    (hph : G'.toPhases = G.toPhases) (hact : ∀ b n, G'.role b = .active n ↔ G.role b = .active n)
    (hheap : ∀ b, s'.heap b = s.heap b ∨ (∀ n, G.role b ≠ .active n) ∧
      ∀ i < 31, (s.heap b).value i = none → (s'.heap b).value i = none)
    (hpu : s'.pushes = s.pushes) (hpo : s'.pops = s.pops)
    (htail : s'.tail.index / 2 % 32 ≠ 31 →
      s'.tail.block = G.chain G.last ∧ s.pushes.length / 31 = G.last)
    (hhead : s'.head.index / 2 % 32 ≠ 31 →
      s'.head.block = G.chain (s.pops / 31) ∧ s.pops / 31 ≤ G.last) : Chain G' s' := by
  have hpush : G'.pushed = G.pushed := congrArg Phases.pushed hph
  have hpop : G'.popped = G.popped := congrArg Phases.popped hph
  refine h.frame hch hl hact hheap ?_ ?_ ?_ ?_ (hpu ▸ h.pushes_le) (hpo ▸ h.pops_le) ?_ ?_
  · exact fun k ↦ by rw [hpop]
  · exact fun k ↦ by rw [hpush, hpop]
  · exact fun k ↦ by rw [brought, hpu, hpush, hpop]; rfl
  · rw [hpush, hpop]
    exact h.taken
  · rwa [hpu]
  · rwa [hpo]

/-- A push reserves the next slot. -/
theorem reservePush (h : Chain G s) {v : α}
    (hfree : ∀ k, G.pushed k = .free ↔ s.pushes.length ≤ k)
    (hG : G' = { G with pushed := Function.update G.pushed s.pushes.length (.held .reserved t) })
    (hheap : s'.heap = s.heap) (hpu : s'.pushes = s.pushes ++ [v]) (hpo : s'.pops = s.pops)
    (hhead : s'.head = s.head) (hlt : s.pushes.length < 31 * (G.last + 1))
    (htail : s'.tail.index / 2 % 32 ≠ 31 →
      s'.tail.block = G.chain G.last ∧ s'.pushes.length / 31 = G.last) : Chain G' s' := by
  subst hG
  have hnew := (hfree s.pushes.length).2 le_rfl
  have hnot : (G.popped s.pushes.length).taken = true → False := by
    intro hc
    rw [h.taken _ hc] at hnew
    cases hnew
  refine h.frame rfl rfl (fun _ _ ↦ Iff.rfl) (fun _ ↦ Or.inl (by rw [hheap])) (fun _ ↦ rfl)
    ?_ ?_ ?_ ?_
    (hpo ▸ h.pops_le) htail ?_
  · intro k
    dsimp only
    by_cases hk : k = s.pushes.length
    · subst hk
      rw [Function.update_self, hnew]
      cases hp : G.popped s.pushes.length with
      | free => rfl
      | held st u => cases st <;> rfl
      | done => rfl
    · rw [Function.update_of_ne hk]
  · intro k
    dsimp only
    by_cases hk : k = s.pushes.length
    · subst hk
      rw [Function.update_self, hnew]
      rfl
    · rw [Function.update_of_ne hk]
      by_cases hlt : k < s.pushes.length
      · rw [brought, brought, hpu, List.getElem?_append_left hlt]
      · rw [(hfree k).2 (not_lt.1 hlt)]
        rfl
  · intro k hk
    dsimp only at hk ⊢
    have hne : k ≠ s.pushes.length := by
      rintro rfl
      exact hnot hk
    rw [Function.update_of_ne hne]
    exact h.taken k hk
  · rw [hpu, List.length_append, List.length_singleton]
    omega
  · rw [hhead, hpo]
    exact h.head

/-- A pop reserves the next slot. -/
theorem reservePop (h : Chain G s) (hfree : ∀ k, G.popped k = .free ↔ s.pops ≤ k)
    (hG : G' = { G with popped := Function.update G.popped s.pops (.held .reserved t) })
    (hheap : s'.heap = s.heap) (hpu : s'.pushes = s.pushes) (hpo : s'.pops = s.pops + 1)
    (htail : s'.tail = s.tail) (hlt : s.pops < 31 * (G.last + 1))
    (hhead : s'.head.index / 2 % 32 ≠ 31 →
      s'.head.block = G.chain (s'.pops / 31) ∧ s'.pops / 31 ≤ G.last) : Chain G' s' := by
  subst hG
  have hnew := (hfree s.pops).2 le_rfl
  have hphase : ∀ k, Function.update G.popped s.pops (.held .reserved t) k = G.popped k ∨
      Function.update G.popped s.pops (.held .reserved t) k = .held .reserved t ∧
        G.popped k = .free := by
    intro k
    by_cases hk : k = s.pops
    · subst hk
      exact Or.inr ⟨Function.update_self _ _ _, hnew⟩
    · exact Or.inl (Function.update_of_ne hk _ _)
  refine h.frame rfl rfl (fun _ _ ↦ Iff.rfl) (fun _ ↦ Or.inl (by rw [hheap])) ?_ ?_ ?_ ?_
    (hpu ▸ h.pushes_le) (by omega) ?_ hhead
  · intro k
    rcases hphase k with he | ⟨he, he'⟩
    · exact congrArg Phase.counted he
    · dsimp only
      rw [he, he']
      rfl
  · intro k
    dsimp only
    rcases hphase k with he | ⟨he, he'⟩
    · rw [he]
    · rw [he, he']
      cases G.pushed k with
      | held st u => cases st <;> rfl
      | _ => rfl
  · intro k
    dsimp only
    rw [show brought s' k = brought s k by rw [brought, brought, hpu]]
    rcases hphase k with he | ⟨he, he'⟩
    · rw [he]
    · rw [he, he']
      cases G.pushed k with
      | held st u => cases st <;> rfl
      | _ => rfl
  · intro k hk
    dsimp only at hk ⊢
    rcases hphase k with he | ⟨he, -⟩
    · exact h.taken k (he ▸ hk)
    · rw [he] at hk
      cases hk
  · rw [htail, hpu]
    exact h.tail

/-- **An access to one slot.** Only the phases of the slot and what the slot shows change. -/
theorem setSlot (h : Chain G s) (hn : n ≤ G.last) (hlive : reads G.popped n < 31) (hi : i < 31)
    (hk : k = 31 * n + i) {x : Block α} (hrole : G'.role = G.role) (hch : G'.chain = G.chain)
    (hl : G'.last = G.last) (hpush : ∀ k', k' ≠ k → G'.pushed k' = G.pushed k')
    (hpop : ∀ k', k' ≠ k → G'.popped k' = G.popped k')
    (hcount : (G'.popped k).counted = (G.popped k).counted)
    (htaken : (G'.popped k).taken = true → G'.pushed k = .done)
    (hstate : x.state i = slotState (G'.pushed k) (G'.popped k))
    (hvalue : x.value i = slotValue (brought s k) (G'.pushed k) (G'.popped k))
    (hother : ∀ j, j ≠ i → x.state j = (s.heap (G.chain n)).state j ∧
      x.value j = (s.heap (G.chain n)).value j)
    (hcnt : x.counters = (s.heap (G.chain n)).counters)
    (hnext : x.next = (s.heap (G.chain n)).next) : Chain G' (s.setBlock (G.chain n) x) := by
  have hreads : ∀ m, reads G'.popped m = reads G.popped m := by
    intro m
    refine reads_congr fun j hj ↦ ?_
    by_cases he : 31 * m + j = k
    · rw [he, hcount]
    · rw [hpop _ he]
  refine ⟨?_, ?_, ?_, ?_, ?_, ?_, ?_, ?_⟩
  · intro b m
    rw [hrole, hch, hl, hreads]
    exact h.active_iff b m
  · intro m hm hlm
    rw [hl] at hm
    rw [hreads] at hlm
    have hx := h.shows m hm hlm
    rw [hch]
    by_cases hmn : m = n
    · subst hmn
      have hblk : (s.setBlock (G.chain m) x).heap (G.chain m) = x := by
        simp [Store.setBlock]
      rw [hblk]
      refine ⟨fun j hj ↦ ?_, fun j hj ↦ ?_, ?_, ?_⟩
      · by_cases hji : j = i
        · subst hji
          rw [← hk]
          exact hstate
        · rw [(hother j hji).1, hpush _ (by omega), hpop _ (by omega)]
          exact hx.state j hj
      · by_cases hji : j = i
        · subst hji
          rw [← hk]
          exact hvalue
        · rw [(hother j hji).2, hpush _ (by omega), hpop _ (by omega)]
          exact hx.value j hj
      · rw [hcnt, hreads]
        exact hx.counters
      · rw [hnext, hch, hl]
        exact hx.next
    · have hblk : (s.setBlock (G.chain n) x).heap (G.chain m) = s.heap (G.chain m) := by
        refine Function.update_of_ne (fun he ↦ hmn ?_) _ _
        exact h.chain_inj hm hlm hn hlive he
      rw [hblk]
      refine ⟨fun j hj ↦ ?_, fun j hj ↦ ?_, ?_, ?_⟩
      · rw [hpush _ (by omega), hpop _ (by omega)]
        exact hx.state j hj
      · rw [hpush _ (by omega), hpop _ (by omega)]
        exact hx.value j hj
      · rw [hreads]
        exact hx.counters
      · rw [hch, hl]
        exact hx.next
  · rw [hrole]
    intro b hb
    have hne : b ≠ G.chain n := by
      rintro rfl
      exact hb n (h.role_chain hn hlive)
    have hblk : (s.setBlock (G.chain n) x).heap b = s.heap b := Function.update_of_ne hne _ _
    rw [hblk]
    exact h.vacant b hb
  · intro k' hk'
    by_cases hkk : k' = k
    · subst hkk
      exact htaken hk'
    · rw [hpop _ hkk] at hk'
      rw [hpush _ hkk]
      exact h.taken k' hk'
  · rw [hl]
    exact h.pushes_le
  · rw [hl]
    exact h.pops_le
  · rw [hch, hl]
    exact h.tail
  · rw [hch, hl]
    exact h.head

/-- A block all of whose reads are counted is spent. -/
theorem spent (h : Chain G s) (hn : n ≤ G.last) (hlive : reads G.popped n < 31) (hi : i < 31)
    (hlast : reads G.popped n + 1 = 31) (hbefore : G.popped (31 * n + i) = .held .marked t) :
    Spent (s.heap (G.chain n)) := by
  have hall : ∀ j < 31, G.popped (31 * n + j) = .held .marked t ∨
      (G.popped (31 * n + j)).counted = true := by
    -- with the slot at hand the reads are complete
    intro j hj
    by_cases hji : j = i
    · subst hji
      exact Or.inl hbefore
    · right
      have hfull : reads (Function.update G.popped (31 * n + i) (.held .counted t)) n = 31 := by
        rw [reads_succ hi (by rw [hbefore]; rfl) (by rw [Function.update_self]; rfl)
          fun j _ hji ↦ Function.update_of_ne (by omega) _ _]
        exact hlast
      have := counted_of_reads hfull hj
      rwa [Function.update_of_ne (by omega)] at this
  have hshow := h.shows n hn hlive
  have hdone : ∀ j < 31, G.pushed (31 * n + j) = .done := by
    intro j hj
    refine h.taken _ ?_
    rcases hall j hj with hc | hc
    · rw [hc]
      rfl
    · cases hp : G.popped (31 * n + j) with
      | free => simp [hp, Phase.counted] at hc
      | held st u => cases st <;> simp_all [Phase.counted, Phase.taken]
      | done => rfl
  refine ⟨fun j hj ↦ ?_, fun j hj ↦ ?_⟩
  · rw [hshow.state j hj, hdone j hj]
    rcases hall j hj with hc | hc
    · rw [hc]
      rfl
    · cases hp : G.popped (31 * n + j) with
      | free => simp [hp, Phase.counted] at hc
      | held st u => cases st <;> simp_all [Phase.counted, slotState]
      | done => rfl
  · rw [hshow.value j hj, hdone j hj]
    rcases hall j hj with hc | hc
    · rw [hc]
      rfl
    · cases hp : G.popped (31 * n + j) with
      | free => simp [hp, Phase.counted] at hc
      | held st u => cases st <;> simp_all [Phase.counted, slotValue]
      | done => rfl

/-- **A read is counted.** The block stays live unless it was the last one. -/
theorem count (h : Chain G s) (hn : n ≤ G.last) (hlive : reads G.popped n < 31) (hi : i < 31)
    (hk : k = 31 * n + i) {x : Block α} (hch : G'.chain = G.chain) (hl : G'.last = G.last)
    (hpush : G'.pushed = G.pushed) (hbefore : G.popped k = .held .marked t)
    (hpop : G'.popped = Function.update G.popped k (.held .counted t))
    (hact : ∀ b m, G'.role b = .active m ↔
      G.role b = .active m ∧ (m = n → reads G.popped n + 1 < 31))
    (hx : x = { s.heap (G.chain n) with counters := (s.heap (G.chain n)).counters + 1 }) :
    Chain G' (s.setBlock (G.chain n) x) := by
  have hself : reads G'.popped n = reads G.popped n + 1 := by
    refine reads_succ hi ?_ ?_ fun j hj hji ↦ ?_
    · rw [← hk, hbefore]
      rfl
    · rw [← hk, hpop, Function.update_self]
      rfl
    · rw [hpop, Function.update_of_ne (by omega)]
  have hothers : ∀ m, m ≠ n → reads G'.popped m = reads G.popped m := by
    intro m hm
    refine reads_congr fun j hj ↦ ?_
    rw [hpop, Function.update_of_ne (by omega)]
  have hstate : ∀ k', slotState (G'.pushed k') (G'.popped k') =
      slotState (G.pushed k') (G.popped k') := by
    intro k'
    rw [hpush, hpop]
    by_cases hkk : k' = k
    · subst hkk
      rw [Function.update_self, hbefore]
      cases G.pushed k' with
      | held st u => cases st <;> rfl
      | _ => rfl
    · rw [Function.update_of_ne hkk]
  have hvalue : ∀ y k', slotValue y (G'.pushed k') (G'.popped k') =
      slotValue (y : Option (ℕ × α)) (G.pushed k') (G.popped k') := by
    intro y k'
    rw [hpush, hpop]
    by_cases hkk : k' = k
    · subst hkk
      rw [Function.update_self, hbefore]
      cases G.pushed k' with
      | held st u => cases st <;> rfl
      | _ => rfl
    · rw [Function.update_of_ne hkk]
  refine ⟨?_, ?_, ?_, ?_, hl ▸ h.pushes_le, hl ▸ h.pops_le, ?_, ?_⟩
  · intro b m
    rw [hact, h.active_iff, hch, hl]
    by_cases hm : m = n
    · subst hm
      rw [hself]
      constructor
      · rintro ⟨⟨h₁, h₂, -⟩, h₃⟩
        exact ⟨h₁, h₂, h₃ rfl⟩
      · rintro ⟨h₁, h₂, h₃⟩
        exact ⟨⟨h₁, h₂, by omega⟩, fun _ ↦ h₃⟩
    · rw [hothers m hm]
      exact ⟨fun hc ↦ hc.1, fun hc ↦ ⟨hc, fun he ↦ absurd he hm⟩⟩
  · intro m hm hlm
    rw [hl] at hm
    have hlm' : reads G.popped m < 31 := by
      by_cases hmn : m = n
      · subst hmn
        exact hlive
      · rwa [hothers m hmn] at hlm
    have hshow := h.shows m hm hlm'
    rw [hch]
    by_cases hmn : m = n
    · subst hmn
      have hblk : (s.setBlock (G.chain m) x).heap (G.chain m) = x := by
        simp [Store.setBlock]
      rw [hblk, hx]
      refine ⟨fun j hj ↦ ?_, fun j hj ↦ ?_, ?_, ?_⟩
      · rw [hstate]
        exact hshow.state j hj
      · rw [hvalue]
        exact hshow.value j hj
      · rw [hself, ← hshow.counters]
      · rw [hch, hl]
        exact hshow.next
    · have hblk : (s.setBlock (G.chain n) x).heap (G.chain m) = s.heap (G.chain m) := by
        refine Function.update_of_ne (fun he ↦ hmn ?_) _ _
        exact h.chain_inj hm hlm' hn hlive he
      rw [hblk]
      refine ⟨fun j hj ↦ ?_, fun j hj ↦ ?_, ?_, ?_⟩
      · rw [hstate]
        exact hshow.state j hj
      · rw [hvalue]
        exact hshow.value j hj
      · rw [hothers m hmn]
        exact hshow.counters
      · rw [hch, hl]
        exact hshow.next
  · intro b hb j hj
    by_cases hbn : b = G.chain n
    · -- the block has left the chain, so it is spent
      subst hbn
      have hfull : reads G.popped n + 1 = 31 := by
        by_contra hne
        exact hb n ((hact _ n).2 ⟨h.role_chain hn hlive, fun _ ↦ by omega⟩)
      have hblk : (s.setBlock (G.chain n) x).heap (G.chain n) = x := by
        simp [Store.setBlock]
      rw [hblk, hx]
      exact (h.spent hn hlive hi hfull (by rw [← hk]; exact hbefore)).value j hj
    · have hblk : (s.setBlock (G.chain n) x).heap b = s.heap b := Function.update_of_ne hbn _ _
      rw [hblk]
      refine h.vacant b (fun m hm ↦ hb m ((hact b m).2 ⟨hm, fun hmn ↦ ?_⟩)) j hj
      obtain ⟨-, hch', -⟩ := (h.active_iff b m).1 hm
      rw [hmn] at hch'
      exact absurd hch'.symm hbn
  · intro k' hk'
    rw [hpush]
    refine h.taken k' ?_
    rw [hpop] at hk'
    by_cases hkk : k' = k
    · subst hkk
      rw [hbefore]
      rfl
    · rwa [Function.update_of_ne hkk] at hk'
  · rw [hch, hl]
    exact h.tail
  · rw [hch, hl]
    exact h.head

/-- **The next block is linked.** -/
theorem link (h : Chain G s) {b : ℕ} (hlive : reads G.popped G.last < 31)
    (hb : ∀ n, G.role b ≠ .active n) (hclean : Clean (s.heap b))
    (hpush : ∀ k, 31 * (G.last + 1) ≤ k → G.pushed k = .free)
    (hpop : ∀ k, 31 * (G.last + 1) ≤ k → G.popped k = .free)
    (hgap : s.tail.index / 2 % 32 = 31) :
    Chain { G with
      chain := Function.update G.chain (G.last + 1) b
      last := G.last + 1
      role := Function.update G.role b (.active (G.last + 1)) } (s.setNext (G.chain G.last) b) := by
  have hcell : ∀ i, G.pushed (31 * (G.last + 1) + i) = .free ∧
      G.popped (31 * (G.last + 1) + i) = .free := fun i ↦ ⟨hpush _ (by omega), hpop _ (by omega)⟩
  have hreads : reads G.popped (G.last + 1) = 0 := by
    simp only [reads, Finset.card_eq_zero, Finset.filter_eq_empty_iff]
    intro i _
    rw [(hcell i).2]
    simp [Phase.counted]
  have hne : G.chain G.last ≠ b := fun he ↦ hb G.last (he ▸ h.role_chain le_rfl hlive)
  have hpu := h.pushes_le
  have hpo := h.pops_le
  refine ⟨?_, ?_, ?_, h.taken, ?_, ?_, ?_, ?_⟩
  · intro a m
    dsimp only
    by_cases hab : a = b
    · subst hab
      rw [Function.update_self]
      by_cases hm : m = G.last + 1
      · subst hm
        simp [hreads]
      · rw [Function.update_of_ne hm]
        refine ⟨fun he ↦ absurd (Role.active.inj he).symm hm, fun hc ↦ ?_⟩
        exact absurd ((h.active_iff a m).2 ⟨by omega, hc.2⟩) (hb m)
    · rw [Function.update_of_ne hab, h.active_iff]
      by_cases hm : m = G.last + 1
      · subst hm
        rw [Function.update_self]
        exact ⟨fun hc ↦ by omega, fun hc ↦ absurd hc.2.1.symm hab⟩
      · rw [Function.update_of_ne hm]
        exact ⟨fun hc ↦ ⟨by omega, hc.2⟩, fun hc ↦ ⟨by omega, hc.2⟩⟩
  · intro m hm hlm
    dsimp only at hm hlm ⊢
    by_cases hml : m = G.last + 1
    · -- the new block
      subst hml
      rw [Function.update_self]
      have hblk : (s.setNext (G.chain G.last) b).heap b = s.heap b :=
        Function.update_of_ne hne.symm _ _
      rw [hblk]
      refine ⟨fun i hi ↦ ?_, fun i hi ↦ ?_, ?_, ?_⟩
      · rw [hclean.state i hi]
        dsimp only
        rw [(hcell i).1, (hcell i).2]
        rfl
      · rw [hclean.value i hi]
        dsimp only
        rw [(hcell i).1]
        rfl
      · rw [hclean.counters]
        exact hreads.symm
      · rw [hclean.next]
        simp
    · have hle : m ≤ G.last := by omega
      have hshow := h.shows m hle hlm
      rw [Function.update_of_ne hml]
      by_cases hmm : m = G.last
      · -- the block before it
        subst hmm
        have hblk : (s.setNext (G.chain G.last) b).heap (G.chain G.last) =
            { s.heap (G.chain G.last) with next := b } := by
          simp [Store.setNext, Store.setBlock]
        rw [hblk]
        refine ⟨hshow.state, hshow.value, hshow.counters, ?_⟩
        simp
      · have hblk : (s.setNext (G.chain G.last) b).heap (G.chain m) = s.heap (G.chain m) := by
          refine Function.update_of_ne (fun he ↦ hmm ?_) _ _
          exact h.chain_inj hle hlm le_rfl hlive he
        rw [hblk]
        refine ⟨hshow.state, hshow.value, hshow.counters, ?_⟩
        dsimp only
        rw [hshow.next, if_pos (by omega), if_pos (by omega), Function.update_of_ne (by omega)]
  · intro a ha
    dsimp only at ha
    have hab : a ≠ b := by
      rintro rfl
      exact ha _ (Function.update_self _ _ _)
    have hna : ∀ n, G.role a ≠ .active n := by
      intro n hn
      exact ha n ((Function.update_of_ne hab _ _).trans hn)
    have hblk : (s.setNext (G.chain G.last) b).heap a = s.heap a := by
      refine Function.update_of_ne ?_ _ _
      rintro rfl
      exact hna _ (h.role_chain le_rfl hlive)
    rw [hblk]
    exact h.vacant a hna
  · dsimp only [Store.setNext, Store.setBlock]
    omega
  · dsimp only [Store.setNext, Store.setBlock]
    omega
  · intro hc
    exact absurd hgap hc
  · intro hc
    have := h.head hc
    dsimp only [Store.setNext, Store.setBlock]
    rw [Function.update_of_ne (by omega)]
    exact ⟨this.1, by omega⟩

end Chain

end AtomicVec

end Crossync
