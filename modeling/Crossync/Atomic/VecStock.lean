import Crossync.Atomic.VecBlocks

/-!
# The blocks outside the chain

How a block moves between the hands of a thread, the retired list, the pool and the allocator. In
every case one address changes its role — all those on the retired list when the list is taken — and
the rest of the `Stock` is as before.

## One role at a time

An address is allocated, handed over, retired, taken back, pooled or freed, and each of these is one
access of one thread. The lemmas here are the transitions between roles; which thread makes them,
and why it may, is for the modules about the calls.
-/

open Interleave

namespace Crossync

namespace AtomicVec

variable {ι α : Type*}

/-- A role that a block neither had nor gets stays with the same blocks. -/
theorem role_update_iff {role : ℕ → Role ι} {b : ℕ} {x y : Role ι} (hb : role b ≠ y) (hx : x ≠ y)
    (a : ℕ) : Function.update role b x a = y ↔ role a = y := by
  by_cases hab : a = b
  · subst hab
    rw [Function.update_self]
    exact ⟨fun hc ↦ absurd hc hx, fun hc ↦ absurd hc hb⟩
  · rw [Function.update_of_ne hab]

/-- The blocks in the hands of another thread stay there. -/
theorem owned_update {role : ℕ → Role ι} {b a : ℕ} {x : Role ι} {t u : ι} (hb : role b = .owned t)
    (hu : u ≠ t) (ha : role a = .owned u) : Function.update role b x a = .owned u := by
  refine (Function.update_of_ne ?_ _ _).trans ha
  rintro rfl
  rw [hb] at ha
  exact hu (Role.owned.inj ha).symm

namespace Stock

variable {G G' : Ghost ι} {s s' : Store ι α} {b : ℕ} {t : ι}

/-- A step that leaves the roles outside the chain and the blocks in them alone. -/
theorem congr (h : Stock G s)
    (hun : ∀ b, G'.role b = .unallocated ↔ G.role b = .unallocated)
    (hret : ∀ b, G'.role b = .retired ↔ G.role b = .retired)
    (hpool : ∀ b pos, G'.role b = .pooled pos ↔ G.role b = .pooled pos)
    (hheap : ∀ b, (G.role b = .retired ∨ ∃ pos, G.role b = .pooled pos) → s'.heap b = s.heap b)
    (hall : s'.allocated = s.allocated) (hr : s'.retired = s.retired)
    (hh : s'.freeList.head = s.freeList.head) (hp : s'.freeList.pushes = s.freeList.pushes) :
    Stock G' s' where
  alloc_iff b := by
    rw [hall, h.alloc_iff, ne_eq, ne_eq, hun]
  null := (hun 0).2 h.null
  retired := by
    obtain ⟨l, hl, hmem⟩ := h.retired
    refine ⟨l, ?_, fun b ↦ (hret b).trans (hmem b)⟩
    rw [hr]
    exact hl.congr fun x hx ↦ by rw [hheap x (Or.inl ((hmem x).2 hx))]
  spent b hb := by
    rw [hret] at hb
    rw [hheap b (Or.inl hb)]
    exact h.spent b hb
  pooled_iff b pos := by
    rw [hpool, hh, hp]
    exact h.pooled_iff b pos
  clean b pos hb := by
    rw [hpool] at hb
    rw [hheap b (Or.inr ⟨pos, hb⟩)]
    exact h.clean b pos hb

/-- The role of one address changes, from and to roles of the chain or of a thread. -/
theorem setRole (h : Stock G s) {x : Role ι}
    (hb : (∃ n, G.role b = .active n) ∨ ∃ u, G.role b = .owned u)
    (hx : (∃ n, x = .active n) ∨ ∃ u, x = .owned u) (hrole : G'.role = Function.update G.role b x)
    (hheap : ∀ a, a ≠ b → (G.role a = .retired ∨ ∃ pos, G.role a = .pooled pos) →
      s'.heap a = s.heap a)
    (hall : s'.allocated = s.allocated) (hr : s'.retired = s.retired)
    (hfl : s'.freeList = s.freeList) : Stock G' s' := by
  have hself : ∀ y : Role ι, (∀ n, y ≠ .active n) → (∀ u, y ≠ .owned u) → ∀ a,
      G'.role a = y ↔ G.role a = y := by
    intro y h₁ h₂ a
    rw [hrole]
    refine role_update_iff ?_ ?_ a
    · rcases hb with ⟨n, hn⟩ | ⟨u, hu⟩
      · exact hn ▸ (h₁ n).symm
      · exact hu ▸ (h₂ u).symm
    · rcases hx with ⟨n, rfl⟩ | ⟨u, rfl⟩
      · exact (h₁ n).symm
      · exact (h₂ u).symm
  refine h.congr (hself _ (by simp) (by simp)) (hself _ (by simp) (by simp))
    (fun a pos ↦ hself _ (by simp) (by simp) a) (fun a ha ↦ ?_) hall hr (by rw [hfl]) (by rw [hfl])
  refine hheap a ?_ ha
  rintro rfl
  rcases hb with ⟨n, hn⟩ | ⟨u, hu⟩ <;> rcases ha with ha | ⟨pos, ha⟩ <;> simp_all

/-- A block is allocated. -/
theorem alloc (h : Stock G s) (hb : b ≠ 0) (hfree : s.allocated b = false) :
    Stock { G with role := Function.update G.role b (.owned t) }
      { s.setBlock b .zeroed with allocated := Function.update s.allocated b true } := by
  have hun : G.role b = .unallocated := by
    by_contra hne
    rw [(h.alloc_iff b).2 hne] at hfree
    cases hfree
  have hother : ∀ y : Role ι, y ≠ .unallocated → (∀ u, y ≠ .owned u) → ∀ a,
      Function.update G.role b (.owned t) a = y ↔ G.role a = y :=
    fun y h₁ h₂ ↦ role_update_iff (hun ▸ h₁.symm) (h₂ t).symm
  have hheap : ∀ a, a ≠ b → (s.setBlock b .zeroed).heap a = s.heap a := fun a ha ↦
    Function.update_of_ne ha _ _
  refine ⟨?_, ?_, ?_, ?_, ?_, ?_⟩
  · intro a
    dsimp only
    by_cases hab : a = b
    · subst hab
      simp
    · rw [Function.update_of_ne hab, Function.update_of_ne hab]
      exact h.alloc_iff a
  · dsimp only
    rw [Function.update_of_ne hb.symm]
    exact h.null
  · obtain ⟨l, hl, hmem⟩ := h.retired
    refine ⟨l, hl.congr fun x hx ↦ ?_, fun a ↦ (hother _ (by simp) (by simp) a).trans (hmem a)⟩
    have hx' := (hmem x).2 hx
    dsimp only
    rw [hheap x (by rintro rfl; rw [hun] at hx'; cases hx')]
  · intro a ha
    have ha' := (hother _ (by simp) (by simp) a).1 ha
    dsimp only
    rw [hheap a (by rintro rfl; rw [hun] at ha'; cases ha')]
    exact h.spent a ha'
  · intro a pos
    exact (hother _ (by simp) (by simp) a).trans (h.pooled_iff a pos)
  · intro a pos ha
    have ha' := (hother _ (by simp) (by simp) a).1 ha
    dsimp only
    rw [hheap a (by rintro rfl; rw [hun] at ha'; cases ha')]
    exact h.clean a pos ha'

/-- A block is freed. -/
theorem free (h : Stock G s) (hb : G.role b = .owned t) :
    Stock { G with role := Function.update G.role b .unallocated }
      { s with allocated := Function.update s.allocated b false } := by
  have hother : ∀ y : Role ι, y ≠ .unallocated → (∀ u, y ≠ .owned u) → ∀ a,
      Function.update G.role b .unallocated a = y ↔ G.role a = y :=
    fun y h₁ h₂ ↦ role_update_iff (hb ▸ (h₂ t).symm) h₁.symm
  refine ⟨?_, ?_, ?_, ?_, ?_, ?_⟩
  · intro a
    dsimp only
    by_cases hab : a = b
    · subst hab
      simp
    · rw [Function.update_of_ne hab, Function.update_of_ne hab]
      exact h.alloc_iff a
  · dsimp only
    by_cases hb0 : b = 0
    · rw [hb0, Function.update_self]
    · rw [Function.update_of_ne (Ne.symm hb0)]
      exact h.null
  · obtain ⟨l, hl, hmem⟩ := h.retired
    exact ⟨l, hl, fun a ↦ (hother _ (by simp) (by simp) a).trans (hmem a)⟩
  · intro a ha
    exact h.spent a ((hother _ (by simp) (by simp) a).1 ha)
  · intro a pos
    exact (hother _ (by simp) (by simp) a).trans (h.pooled_iff a pos)
  · intro a pos ha
    exact h.clean a pos ((hother _ (by simp) (by simp) a).1 ha)

/-- The oldest block of the pool is taken out. -/
theorem takeOut (h : Stock G s) (hb : s.freeList.pushes[s.freeList.head]? = some b)
    (hG : G' = { G with role := Function.update G.role b (.owned t) }) (hheap : s'.heap = s.heap)
    (hall : s'.allocated = s.allocated) (hr : s'.retired = s.retired)
    (hh : s'.freeList.head = s.freeList.head + 1)
    (hp : s'.freeList.pushes = s.freeList.pushes) : Stock G' s' := by
  subst hG
  have hrole := (h.pooled_iff b _).2 ⟨le_rfl, hb⟩
  have hother : ∀ y : Role ι, (∀ pos, y ≠ .pooled pos) → (∀ u, y ≠ .owned u) → ∀ a,
      Function.update G.role b (.owned t) a = y ↔ G.role a = y :=
    fun y h₁ h₂ ↦ role_update_iff (hrole ▸ (h₁ _).symm) (h₂ t).symm
  have hpooled : ∀ a pos, Function.update G.role b (.owned t) a = .pooled pos ↔
      a ≠ b ∧ G.role a = .pooled pos := by
    intro a pos
    by_cases hab : a = b
    · subst hab
      simp
    · rw [Function.update_of_ne hab]
      simp [hab]
  refine ⟨?_, ?_, ?_, ?_, ?_, ?_⟩
  · intro a
    rw [hall, h.alloc_iff, ne_eq, ne_eq]
    exact not_congr (hother _ (by simp) (by simp) a).symm
  · exact (hother _ (by simp) (by simp) 0).2 h.null
  · obtain ⟨l, hl, hmem⟩ := h.retired
    exact ⟨l, by rw [hheap, hr]; exact hl, fun a ↦ (hother _ (by simp) (by simp) a).trans (hmem a)⟩
  · intro a ha
    rw [hheap]
    exact h.spent a ((hother _ (by simp) (by simp) a).1 ha)
  · intro a pos
    dsimp only
    rw [hpooled, h.pooled_iff, hh, hp]
    constructor
    · rintro ⟨hab, hle, hget⟩
      refine ⟨?_, hget⟩
      rcases Nat.lt_or_ge s.freeList.head pos with hlt | hge
      · exact hlt
      · obtain rfl : pos = s.freeList.head := Nat.le_antisymm hge hle
        exact absurd (Option.some.inj (hget.symm.trans hb)) hab
    · rintro ⟨hlt, hget⟩
      refine ⟨?_, by omega, hget⟩
      rintro rfl
      -- an address is at one position only
      have h₁ := (h.pooled_iff a pos).2 ⟨by omega, hget⟩
      rw [hrole] at h₁
      cases h₁
      omega
  · intro a pos ha
    rw [hheap]
    exact h.clean a pos ((hpooled a pos).1 ha).2

/-- A clean block is put into the pool. -/
theorem putIn (h : Stock G s) (hb : G.role b = .owned t) (hclean : Clean (s.heap b))
    (hle : s.freeList.head ≤ s.freeList.pushes.length)
    (hG : G' = { G with
      role := Function.update G.role b (.pooled s.freeList.pushes.length) })
    (hheap : s'.heap = s.heap) (hall : s'.allocated = s.allocated) (hr : s'.retired = s.retired)
    (hh : s'.freeList.head = s.freeList.head)
    (hp : s'.freeList.pushes = s.freeList.pushes ++ [b]) : Stock G' s' := by
  subst hG
  have hother : ∀ y : Role ι, (∀ pos, y ≠ .pooled pos) → (∀ u, y ≠ .owned u) → ∀ a,
      Function.update G.role b (.pooled s.freeList.pushes.length) a = y ↔ G.role a = y :=
    fun y h₁ h₂ ↦ role_update_iff (hb ▸ (h₂ t).symm) (h₁ _).symm
  refine ⟨?_, ?_, ?_, ?_, ?_, ?_⟩
  · intro a
    rw [hall, h.alloc_iff, ne_eq, ne_eq]
    exact not_congr (hother _ (by simp) (by simp) a).symm
  · exact (hother _ (by simp) (by simp) 0).2 h.null
  · obtain ⟨l, hl, hmem⟩ := h.retired
    exact ⟨l, by rw [hheap, hr]; exact hl, fun a ↦ (hother _ (by simp) (by simp) a).trans (hmem a)⟩
  · intro a ha
    rw [hheap]
    exact h.spent a ((hother _ (by simp) (by simp) a).1 ha)
  · intro a pos
    dsimp only
    rw [hh, hp]
    by_cases hab : a = b
    · subst hab
      rw [Function.update_self]
      constructor
      · intro hc
        obtain rfl := Role.pooled.inj hc
        exact ⟨hle, by simp⟩
      · rintro ⟨hge, hget⟩
        by_cases hlt : pos < s.freeList.pushes.length
        · rw [List.getElem?_append_left hlt] at hget
          have := (h.pooled_iff a pos).2 ⟨hge, hget⟩
          rw [hb] at this
          cases this
        · rcases Nat.lt_or_ge s.freeList.pushes.length pos with hgt | hle'
          · rw [List.getElem?_eq_none (by simp; omega)] at hget
            cases hget
          · rw [Nat.le_antisymm hle' (not_lt.1 hlt)]
    · rw [Function.update_of_ne hab, h.pooled_iff]
      refine and_congr_right fun _ ↦ ?_
      by_cases hlt : pos < s.freeList.pushes.length
      · rw [List.getElem?_append_left hlt]
      · rw [List.getElem?_eq_none (not_lt.1 hlt), List.getElem?_append_right (not_lt.1 hlt)]
        cases hd : pos - s.freeList.pushes.length with
        | zero => simp [Ne.symm hab]
        | succ m => simp
  · intro a pos ha
    rw [hheap]
    dsimp only at ha
    by_cases hab : a = b
    · subst hab
      exact hclean
    · rw [Function.update_of_ne hab] at ha
      exact h.clean a pos ha

/-- A spent block, already linked to the retired list, becomes its first block. -/
theorem retire (h : Stock G s) (hb : G.role b = .owned t) (hspent : Spent (s.heap b))
    (hnext : (s.heap b).next = s.retired) :
    Stock { G with role := Function.update G.role b .retired } { s with retired := b } := by
  have hother : ∀ y : Role ι, y ≠ .retired → (∀ u, y ≠ .owned u) → ∀ a,
      Function.update G.role b .retired a = y ↔ G.role a = y :=
    fun y h₁ h₂ ↦ role_update_iff (hb ▸ (h₂ t).symm) h₁.symm
  refine ⟨?_, ?_, ?_, ?_, ?_, ?_⟩
  · intro a
    dsimp only
    rw [h.alloc_iff, ne_eq, ne_eq]
    exact not_congr (hother _ (by simp) (by simp) a).symm
  · exact (hother _ (by simp) (by simp) 0).2 h.null
  · obtain ⟨l, hl, hmem⟩ := h.retired
    refine ⟨b :: l, ⟨rfl, ?_, ?_, ?_⟩, fun a ↦ ?_⟩
    · rintro rfl
      rw [h.null] at hb
      cases hb
    · intro hc
      rw [(hmem b).2 hc] at hb
      cases hb
    · dsimp only
      rw [hnext]
      exact hl
    · dsimp only
      by_cases hab : a = b
      · subst hab
        simp
      · rw [Function.update_of_ne hab, hmem]
        simp [hab]
  · intro a ha
    dsimp only at ha ⊢
    by_cases hab : a = b
    · subst hab
      exact hspent
    · rw [Function.update_of_ne hab] at ha
      exact h.spent a ha
  · intro a pos
    exact (hother _ (by simp) (by simp) a).trans (h.pooled_iff a pos)
  · intro a pos ha
    exact h.clean a pos ((hother _ (by simp) (by simp) a).1 ha)

/-- The roles after a thread has taken the retired list. -/
def takeRetired (role : ℕ → Role ι) (t : ι) (b : ℕ) : Role ι :=
  match role b with
  | .retired => .owned t
  | r => r

theorem takeRetired_of_ne {role : ℕ → Role ι} (h : role b ≠ .retired) :
    takeRetired role t b = role b := by
  unfold takeRetired
  split
  · exact absurd ‹_› h
  · rfl

theorem takeRetired_eq_iff {role : ℕ → Role ι} {y : Role ι} (h₁ : y ≠ .retired)
    (h₂ : ∀ u, y ≠ .owned u) : takeRetired role t b = y ↔ role b = y := by
  unfold takeRetired
  split
  · rename_i hr
    rw [hr]
    exact ⟨fun hc ↦ absurd hc.symm (h₂ t), fun hc ↦ absurd hc.symm h₁⟩
  · exact Iff.rfl

/-- The retired list is taken. -/
theorem swap (h : Stock G s) :
    Stock { G with role := takeRetired G.role t } { s with retired := 0 } := by
  refine ⟨?_, ?_, ?_, ?_, ?_, ?_⟩
  · intro a
    dsimp only
    rw [h.alloc_iff, ne_eq, ne_eq]
    exact not_congr (takeRetired_eq_iff (by simp) (by simp)).symm
  · exact (takeRetired_eq_iff (by simp) (by simp)).2 h.null
  · refine ⟨[], rfl, fun a ↦ ⟨fun ha ↦ ?_, fun ha ↦ by cases ha⟩⟩
    dsimp only [takeRetired] at ha
    split at ha
    · cases ha
    · contradiction
  · intro a ha
    dsimp only [takeRetired] at ha
    split at ha
    · cases ha
    · contradiction
  · intro a pos
    exact (takeRetired_eq_iff (by simp) (by simp)).trans (h.pooled_iff a pos)
  · intro a pos ha
    exact h.clean a pos ((takeRetired_eq_iff (by simp) (by simp)).1 ha)

end Stock

end AtomicVec

end Crossync
