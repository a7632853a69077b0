import Mathlib.Data.List.Basic
import Mathlib.Data.List.Nodup
import Mathlib.Logic.Function.Basic

/-!
# Linked chains in a memory

Cells with a link to the next one, in a memory of addresses, where the address `0` is null. `Chain m
p as` says that following the links from `p` visits exactly the addresses `as` and ends at null.
This is the one predicate everything is stated with: what a loop over the links computes is a
function of `as`, and what a write does to a chain is a change of `as`.

A loop over links need not end in an arbitrary memory, so the loops here count their rounds and give
up (`none`) when the count is spent or a link leads nowhere; on a chain they never do either.

## What the lemmas are about

* **Functionality.** A chain from a pointer has one list of addresses, so whatever a loop computes
  is a function of that list.
* **Frames.** A write to a cell outside the list leaves the chain as it was.
* **Edits.** Linking in front, redirecting a link and taking a prefix off are list operations.

No lemma speaks of what is stored in a cell besides its link. A user that has entries with keys and
values supplies `next` as a projection and reads the rest of the cell itself.
-/

namespace Linked

/-- A cell with a link. -/
class Node (N : Type*) where
  next : N → ℕ
  setNext : N → ℕ → N
  next_setNext : ∀ n p, next (setNext n p) = p

export Node (next setNext next_setNext)

/-- Memory: the cell at each address in use. -/
abbrev Mem (N : Type*) := ℕ → Option N

variable {N : Type*} [Node N]

/-- Following the links from an address visits these addresses and ends at null. -/
def Chain (m : Mem N) : ℕ → List ℕ → Prop
  | p, [] => p = 0
  | p, a :: as => p = a ∧ a ≠ 0 ∧ ∃ n, m a = some n ∧ Chain m (next n) as

section Chain

variable {m m' : Mem N} {p a : ℕ} {as pre post : List ℕ} {n : N}

/-- **Frame.** A chain depends only on the links of its own cells. -/
theorem Chain.congr (h : Chain m p as) (hm : ∀ a ∈ as, (m' a).map next = (m a).map next) :
    Chain m' p as := by
  induction as generalizing p with
  | nil => exact h
  | cons a as ih =>
    obtain ⟨rfl, hne, n, hn, hrest⟩ := h
    have hlink := hm p (List.mem_cons_self ..)
    rw [hn, Option.map_some, Option.map_eq_some_iff] at hlink
    obtain ⟨n', hn', hnext⟩ := hlink
    refine ⟨rfl, hne, n', hn', ?_⟩
    rw [hnext]
    exact ih hrest fun a ha ↦ hm a (List.mem_cons_of_mem _ ha)

/-- A write off the chain. -/
theorem Chain.update_of_notMem (h : Chain m p as) (ha : a ∉ as) (x : Option N) :
    Chain (Function.update m a x) p as := by
  refine h.congr fun b hb ↦ ?_
  rw [Function.update_of_ne (ne_of_mem_of_not_mem hb ha)]

/-- The same, for several chains. -/
theorem chains_congr {ps : List ℕ} {ass : List (List ℕ)} (h : List.Forall₂ (Chain m) ps ass)
    (hm : ∀ a ∈ ass.flatten, (m' a).map next = (m a).map next) :
    List.Forall₂ (Chain m') ps ass := by
  induction h with
  | nil => exact .nil
  | cons hp _ ih =>
    refine .cons (hp.congr fun a ha ↦ hm a ?_) (ih fun a ha ↦ hm a ?_)
    · exact List.mem_flatten.2 ⟨_, List.mem_cons_self .., ha⟩
    · rw [List.flatten_cons]
      exact List.mem_append_right _ ha

/-- A write that keeps the link of a cell. -/
theorem Chain.update_of_next (h : Chain m p as) (ha : m a = some n) {n' : N}
    (hn : next n' = next n) : Chain (Function.update m a (some n')) p as := by
  refine h.congr fun b _ ↦ ?_
  by_cases hb : b = a
  · subst hb
    rw [Function.update_self, ha, Option.map_some, Option.map_some, hn]
  · rw [Function.update_of_ne hb]

theorem Chain.exists_of_mem (h : Chain m p as) (ha : a ∈ as) : a ≠ 0 ∧ ∃ n, m a = some n := by
  induction as generalizing p with
  | nil => cases ha
  | cons b as ih =>
    obtain ⟨rfl, hne, n, hn, hrest⟩ := h
    rcases List.mem_cons.1 ha with rfl | ha
    · exact ⟨hne, n, hn⟩
    · exact ih hrest ha

theorem Chain.null_iff (h : Chain m p as) : p = 0 ↔ as = [] := by
  cases as with
  | nil => exact ⟨fun _ ↦ rfl, fun _ ↦ h⟩
  | cons a as =>
    obtain ⟨rfl, hne, -⟩ := h
    exact ⟨fun h0 ↦ absurd h0 hne, fun hc ↦ by cases hc⟩

/-- A chain is determined by where it starts. -/
theorem Chain.unique {bs : List ℕ} (h : Chain m p as) (h' : Chain m p bs) : as = bs := by
  induction as generalizing p bs with
  | nil => exact (h'.null_iff.1 h).symm
  | cons a as ih =>
    obtain ⟨rfl, hne, n, hn, hrest⟩ := h
    cases bs with
    | nil => exact absurd h' hne
    | cons b bs =>
      obtain ⟨rfl, -, n', hn', hrest'⟩ := h'
      rw [hn] at hn'
      cases hn'
      rw [ih hrest hrest']

/-- What follows a cell of a chain is a chain. -/
theorem Chain.after (h : Chain m p (pre ++ a :: post)) (ha : m a = some n) :
    Chain m (next n) post := by
  induction pre generalizing p with
  | nil =>
    obtain ⟨rfl, -, n', hn', hrest⟩ := h
    rw [ha] at hn'
    cases hn'
    exact hrest
  | cons b pre ih =>
    obtain ⟨rfl, -, n', -, hrest⟩ := h
    exact ih hrest

/-- A new cell in front. -/
theorem Chain.push (h : Chain m p as) (ha : a ≠ 0) (hfree : a ∉ as) (hn : next n = p) :
    Chain (Function.update m a (some n)) a (a :: as) := by
  refine ⟨rfl, ha, n, Function.update_self .., ?_⟩
  rw [hn]
  exact h.update_of_notMem hfree _

/-- **Unlinking.** Redirecting the link of the cell before takes one cell out of the chain. -/
theorem Chain.unlink (h : Chain m p (pre ++ a :: post)) (hd : (pre ++ a :: post).Nodup)
    (ha : m a = some n) {b : ℕ} {nb : N} (hb : pre.getLast? = some b) (hnb : m b = some nb) :
    Chain (Function.update m b (some (setNext nb (next n)))) p (pre ++ post) := by
  induction pre generalizing p with
  | nil => cases hb
  | cons c pre ih =>
    obtain ⟨rfl, hne, n', hn', hrest⟩ := h
    have hd' := List.nodup_cons.1 hd
    cases pre with
    | nil =>
      -- the cell before is the first one
      cases hb
      obtain rfl : n' = nb := Option.some.inj (hn'.symm.trans hnb)
      refine ⟨rfl, hne, _, Function.update_self .., ?_⟩
      rw [next_setNext]
      have hafter := Chain.after (show Chain m (next n') ([] ++ a :: post) from hrest) ha
      refine hafter.update_of_notMem (fun hmem ↦ hd'.1 ?_) _
      exact List.mem_cons_of_mem _ hmem
    | cons d pre =>
      have hb' : (d :: pre).getLast? = some b := by
        rwa [List.getLast?_cons_cons] at hb
      have hmem : b ∈ d :: pre := List.mem_of_getLast? hb'
      have hpb : p ≠ b := by
        rintro rfl
        exact hd'.1 (List.mem_append_left _ hmem)
      refine ⟨rfl, hne, n', ?_, ih hrest hd'.2 hb'⟩
      rw [Function.update_of_ne hpb]
      exact hn'

/-- A cell linked in at the end. -/
theorem Chain.snoc {b : ℕ} {nb : N} (h : Chain m p as) (hd : as.Nodup) (ha : as.getLast? = some a)
    (hn : m a = some n) (hb : b ≠ 0) (hfree : b ∉ as) (hnb : m b = some nb) (hend : next nb = 0) :
    Chain (Function.update m a (some (setNext n b))) p (as ++ [b]) := by
  induction as generalizing p with
  | nil => cases ha
  | cons c as ih =>
    obtain ⟨rfl, hne, n', hn', hrest⟩ := h
    obtain ⟨hnot, hd'⟩ := List.nodup_cons.1 hd
    cases as with
    | nil =>
      obtain rfl : p = a := Option.some.inj ha
      have hba : b ≠ p := fun hbp ↦ hfree (hbp ▸ List.mem_cons_self ..)
      refine ⟨rfl, hne, _, Function.update_self .., next_setNext n b, hb, nb, ?_, hend⟩
      rw [Function.update_of_ne hba]
      exact hnb
    | cons d as =>
      have ha' : (d :: as).getLast? = some a := by rwa [List.getLast?_cons_cons] at ha
      have hpa : p ≠ a := fun hpa ↦ hnot (hpa ▸ List.mem_of_getLast? ha')
      refine ⟨rfl, hne, n', ?_, ih hrest hd' ha' fun hmem ↦ hfree (List.mem_cons_of_mem _ hmem)⟩
      rw [Function.update_of_ne hpa]
      exact hn'

end Chain

/-! ### Loops over a chain

The loops that code over linked cells makes: a search, a search for the cell before, a traversal
that collects, and one that frees. Each is a function of the list of addresses. -/

section Loops

variable (test : N → Bool) (m : Mem N)

/-- The first cell that passes a test. -/
def find : ℕ → ℕ → Option (Option ℕ)
  | 0, _ => none
  | k + 1, cur =>
    if cur = 0 then some none
    else
      match m cur with
      | none => none
      | some n => if test n then some (some cur) else find k (next n)

/-- The first cell that passes a test, and the cell before it. -/
def findPrev : ℕ → ℕ → ℕ → Option (Option (ℕ × ℕ))
  | 0, _, _ => none
  | k + 1, prev, cur =>
    if cur = 0 then some none
    else
      match m cur with
      | none => none
      | some n => if test n then some (some (prev, cur)) else findPrev k cur (next n)

/-- The cells. -/
def cells : ℕ → ℕ → Option (List N)
  | 0, _ => none
  | k + 1, cur =>
    if cur = 0 then some []
    else
      match m cur with
      | none => none
      | some n => (cells k (next n)).map (n :: ·)

/-- The addresses of the cells. -/
def addresses : ℕ → ℕ → Option (List ℕ)
  | 0, _ => none
  | k + 1, cur =>
    if cur = 0 then some []
    else
      match m cur with
      | none => none
      | some n => (addresses k (next n)).map (cur :: ·)

/-- Free the cells. -/
def free (m : Mem N) : ℕ → ℕ → Option (Mem N)
  | 0, _ => none
  | k + 1, cur =>
    if cur = 0 then some m
    else
      match m cur with
      | none => none
      | some n => free (Function.update m cur none) k (next n)

end Loops

section Specs

variable {test : N → Bool} {m : Mem N} {p a fuel : ℕ} {as pre post : List ℕ}

/-- The test fails on every cell. -/
def Misses (test : N → Bool) (m : Mem N) (as : List ℕ) : Prop :=
  ∀ a ∈ as, ∀ n, m a = some n → test n = false

theorem find_eq_none (h : Chain m p as) (hf : as.length < fuel) (hmiss : Misses test m as) :
    find test m fuel p = some none := by
  induction as generalizing p fuel with
  | nil =>
    cases fuel with
    | zero => cases hf
    | succ k => rw [find, if_pos (show p = 0 from h)]
  | cons a as ih =>
    obtain ⟨rfl, hne, n, hn, hrest⟩ := h
    cases fuel with
    | zero => cases hf
    | succ k =>
      have htest := hmiss p (List.mem_cons_self ..) n hn
      simp only [find, if_neg hne, hn, htest, Bool.false_eq_true, if_false]
      exact ih hrest (by simpa using hf) fun b hb ↦ hmiss b (List.mem_cons_of_mem _ hb)

theorem find_eq_some (h : Chain m p (pre ++ a :: post)) (hf : (pre ++ a :: post).length < fuel)
    (hmiss : Misses test m pre) {n : N} (hn : m a = some n) (hhit : test n = true) :
    find test m fuel p = some (some a) := by
  induction pre generalizing p fuel with
  | nil =>
    obtain ⟨rfl, hne, -⟩ := h
    cases fuel with
    | zero => cases hf
    | succ k => simp only [find, if_neg hne, hn, hhit, if_true]
  | cons b pre ih =>
    obtain ⟨rfl, hne, nb, hnb, hrest⟩ := h
    cases fuel with
    | zero => cases hf
    | succ k =>
      have htest := hmiss p (List.mem_cons_self ..) nb hnb
      simp only [find, if_neg hne, hnb, htest, Bool.false_eq_true, if_false]
      exact ih hrest (by simpa using hf) fun b hb ↦ hmiss b (List.mem_cons_of_mem _ hb)

theorem findPrev_eq_none (prev : ℕ) (h : Chain m p as) (hf : as.length < fuel)
    (hmiss : Misses test m as) : findPrev test m fuel prev p = some none := by
  induction as generalizing p prev fuel with
  | nil =>
    cases fuel with
    | zero => cases hf
    | succ k => rw [findPrev, if_pos (show p = 0 from h)]
  | cons a as ih =>
    obtain ⟨rfl, hne, n, hn, hrest⟩ := h
    cases fuel with
    | zero => cases hf
    | succ k =>
      have htest := hmiss p (List.mem_cons_self ..) n hn
      simp only [findPrev, if_neg hne, hn, htest, Bool.false_eq_true, if_false]
      exact ih _ hrest (by simpa using hf) fun b hb ↦ hmiss b (List.mem_cons_of_mem _ hb)

theorem findPrev_eq_some (prev : ℕ) (h : Chain m p (pre ++ a :: post))
    (hf : (pre ++ a :: post).length < fuel) (hmiss : Misses test m pre) {n : N} (hn : m a = some n)
    (hhit : test n = true) :
    findPrev test m fuel prev p = some (some (pre.getLast?.getD prev, a)) := by
  induction pre generalizing p prev fuel with
  | nil =>
    obtain ⟨rfl, hne, -⟩ := h
    cases fuel with
    | zero => cases hf
    | succ k => simp [findPrev, hne, hn, hhit]
  | cons b pre ih =>
    obtain ⟨rfl, hne, nb, hnb, hrest⟩ := h
    cases fuel with
    | zero => cases hf
    | succ k =>
      have htest := hmiss p (List.mem_cons_self ..) nb hnb
      simp only [findPrev, if_neg hne, hnb, htest, Bool.false_eq_true, if_false]
      rw [ih _ hrest (by simpa using hf) fun b hb ↦ hmiss b (List.mem_cons_of_mem _ hb)]
      cases pre with
      | nil => rfl
      | cons c pre =>
        rw [List.getLast?_cons_cons, List.getLast?_eq_some_getLast (List.cons_ne_nil c pre)]
        rfl

theorem cells_eq (h : Chain m p as) (hf : as.length < fuel) :
    cells m fuel p = some (as.filterMap m) := by
  induction as generalizing p fuel with
  | nil =>
    cases fuel with
    | zero => cases hf
    | succ k =>
      rw [cells, if_pos (show p = 0 from h)]
      rfl
  | cons a as ih =>
    obtain ⟨rfl, hne, n, hn, hrest⟩ := h
    cases fuel with
    | zero => cases hf
    | succ k =>
      simp only [cells, if_neg hne, hn]
      rw [ih hrest (by simpa using hf), List.filterMap_cons, hn]
      rfl

theorem addresses_eq (h : Chain m p as) (hf : as.length < fuel) : addresses m fuel p = some as := by
  induction as generalizing p fuel with
  | nil =>
    cases fuel with
    | zero => cases hf
    | succ k => rw [addresses, if_pos (show p = 0 from h)]
  | cons a as ih =>
    obtain ⟨rfl, hne, n, hn, hrest⟩ := h
    cases fuel with
    | zero => cases hf
    | succ k =>
      simp only [addresses, if_neg hne, hn]
      rw [ih hrest (by simpa using hf)]
      rfl

theorem free_eq (h : Chain m p as) (hd : as.Nodup) (hf : as.length < fuel) :
    free m fuel p = some fun b ↦ if b ∈ as then none else m b := by
  induction as generalizing p m fuel with
  | nil =>
    cases fuel with
    | zero => cases hf
    | succ k =>
      rw [free, if_pos (show p = 0 from h)]
      simp
  | cons a as ih =>
    obtain ⟨rfl, hne, n, hn, hrest⟩ := h
    obtain ⟨hnot, hd'⟩ := List.nodup_cons.1 hd
    cases fuel with
    | zero => cases hf
    | succ k =>
      simp only [free, if_neg hne, hn]
      rw [ih (hrest.update_of_notMem hnot none) hd' (by simpa using hf)]
      refine congrArg some (funext fun b ↦ ?_)
      by_cases hb : b = p
      · subst hb
        simp [hnot]
      · simp [hb]

end Specs

end Linked
