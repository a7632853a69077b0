import Mathlib.Data.List.Chain
import Mathlib.Algebra.Order.Floor.Div

/-!
# `AtomicArray::chunk_indices`

The ranges of `chunk_indices` are cut from left to right, each starting where the one before ended.
A list of such ranges tiles an interval (`Tiles`), and then every index of the interval is in
exactly one of them (`Tiles.existsUnique`); so one induction over the loop is enough for a
partition.

The arithmetic is that of 64-bit words. The size of a chunk is rounded up by `div_ceil`, the loop
steps by it without a test for overflow, and only the end of a range saturates. The one step that
may wrap around is the last one, whose result is never used: the loop counts its steps beforehand.

## Three lemmas and no more

The arithmetic of the source is reduced once to natural numbers (the rounded-up quotient and the
number of steps), the loop is one induction over the steps, and the partition is a fact about
tilings of an interval that knows nothing of words. `chunkIndices_partition` puts them together.
-/

namespace Crossync

namespace AtomicArray

/-! ### Consecutive ranges

Lists of ranges of any kind of index. Nothing here is about chunks. -/

/-- The ranges of the list are non-empty and follow each other from `a` to `b`. -/
def Tiles (a b : ℕ) : List (ℕ × ℕ) → Prop
  | [] => a = b
  | c :: cs => c.1 = a ∧ a < c.2 ∧ Tiles c.2 b cs

namespace Tiles

variable {a b : ℕ} {cs : List (ℕ × ℕ)}

theorem le (h : Tiles a b cs) : a ≤ b := by
  induction cs generalizing a with
  | nil => exact Nat.le_of_eq h
  | cons c cs ih => exact h.2.1.le.trans (ih h.2.2)

/-- Every range is non-empty and lies between the ends. -/
theorem bounds (h : Tiles a b cs) {c : ℕ × ℕ} (hc : c ∈ cs) : a ≤ c.1 ∧ c.1 < c.2 ∧ c.2 ≤ b := by
  induction cs generalizing a with
  | nil => cases hc
  | cons d cs ih =>
    obtain ⟨hstart, hlt, htail⟩ := h
    rcases List.mem_cons.1 hc with rfl | hc
    · exact ⟨hstart.ge, hstart.trans_lt hlt, htail.le⟩
    · obtain ⟨hle, hne, hend⟩ := ih htail hc
      exact ⟨hlt.le.trans hle, hne, hend⟩

/-- Each range starts where the one before ends. -/
theorem isChain (h : Tiles a b cs) : cs.IsChain fun c d ↦ c.2 = d.1 := by
  induction cs generalizing a with
  | nil => exact .nil
  | cons c cs ih =>
    cases cs with
    | nil => exact .singleton c
    | cons d cs => exact .cons_cons h.2.2.1.symm (ih h.2.2)

/-- The last range ends at the end. -/
theorem getLast (h : Tiles a b cs) (hne : a < b) : cs.getLast?.map Prod.snd = some b := by
  induction cs generalizing a with
  | nil => exact absurd h hne.ne
  | cons c cs ih =>
    cases cs with
    | nil => exact congrArg some h.2.2
    | cons d cs =>
      rw [List.getLast?_cons_cons]
      refine ih h.2.2 ?_
      obtain ⟨hstart, hlt, htail⟩ := h.2.2
      exact hlt.trans_le htail.le

/-- **Every index is in exactly one range.** -/
theorem existsUnique (h : Tiles a b cs) {i : ℕ} (ha : a ≤ i) (hb : i < b) :
    ∃! j : ℕ, ∃ c : ℕ × ℕ, cs[j]? = some c ∧ c.1 ≤ i ∧ i < c.2 := by
  induction cs generalizing a with
  | nil => exact absurd (h.symm.trans_le ha) (Nat.not_le.2 hb)
  | cons c cs ih =>
    obtain ⟨hstart, hlt, htail⟩ := h
    by_cases hi : i < c.2
    · -- the first range, and no later one
      refine ⟨0, ⟨c, rfl, hstart.trans_le ha, hi⟩, ?_⟩
      rintro j ⟨d, hd, hle, -⟩
      cases j with
      | zero => rfl
      | succ j =>
        have hmem : d ∈ cs := List.mem_of_getElem? (i := j) hd
        exact absurd ((htail.bounds hmem).1.trans hle) (Nat.not_le.2 hi)
    · obtain ⟨j, ⟨d, hd, hin⟩, huniq⟩ := ih htail (Nat.le_of_not_lt hi)
      refine ⟨j + 1, ⟨d, hd, hin⟩, ?_⟩
      rintro k ⟨e, he, hle, hgt⟩
      cases k with
      | zero =>
        cases he
        exact absurd hgt hi
      | succ k => exact congrArg (· + 1) (huniq k ⟨e, he, hle, hgt⟩)

end Tiles

/-! ### The code

The function of the source on 64-bit words, with the operations of the standard library that it
uses. -/

/-- `usize::div_ceil`. -/
def divCeil (a b : UInt64) : UInt64 := if 0 < a % b then a / b + 1 else a / b

/-- `usize::saturating_add`. -/
def saturatingAdd (a b : UInt64) : UInt64 :=
  if a.toNat + b.toNat < 2 ^ 64 then a + b else 0xFFFFFFFFFFFFFFFF

/-- `(start..).step_by(step)`, with the number of steps that the range allows. -/
def stepBy (step : UInt64) : ℕ → UInt64 → List UInt64
  | 0, _ => []
  | remaining + 1, start => start :: stepBy step remaining (start + step)

/-- `chunk_indices`, for the length that the array had. -/
def chunkIndices (len numChunks : UInt64) : List (UInt64 × UInt64) :=
  if len = 0 ∨ numChunks = 0 then []
  else
    let chunkSize := divCeil len numChunks
    (stepBy chunkSize (divCeil len chunkSize).toNat 0).map fun start ↦
      (start, min (saturatingAdd start chunkSize) len)

/-! ### The arithmetic -/

/-- `div_ceil` rounds up, and does not overflow. -/
theorem toNat_divCeil {a b : UInt64} (hb : b ≠ 0) : (divCeil a b).toNat = a.toNat ⌈/⌉ b.toNat := by
  have hpos : 0 < b.toNat := Nat.pos_of_ne_zero fun hz ↦ hb (UInt64.toNat_inj.1 hz)
  have hmod : (0 < a % b) ↔ 0 < a.toNat % b.toNat := by
    rw [UInt64.lt_iff_toNat_lt, UInt64.toNat_mod]
    rfl
  have hdiv := Nat.div_add_mod a.toNat b.toNat
  have hrem := Nat.mod_lt a.toNat hpos
  have hlt := a.toNat_lt
  rw [divCeil, Nat.ceilDiv_eq_add_pred_div]
  split_ifs with h
  · rw [hmod] at h
    -- there is a remainder, so the divisor is at least two
    have htwo : 2 * (a.toNat / b.toNat) ≤ b.toNat * (a.toNat / b.toNat) :=
      Nat.mul_le_mul_right _ (by omega)
    have hsum : a.toNat + b.toNat - 1 = b.toNat * (a.toNat / b.toNat + 1) +
        (a.toNat % b.toNat - 1) := by
      rw [Nat.mul_add]
      omega
    have hsmall : (a.toNat % b.toNat - 1) / b.toNat = 0 := Nat.div_eq_of_lt (by omega)
    have hone : (1 : UInt64).toNat = 1 := rfl
    rw [hsum, Nat.mul_add_div hpos, hsmall, UInt64.toNat_add, UInt64.toNat_div, hone]
    exact Nat.mod_eq_of_lt (by omega)
  · rw [hmod] at h
    have hsum : a.toNat + b.toNat - 1 = b.toNat * (a.toNat / b.toNat) + (b.toNat - 1) := by omega
    have hsmall : (b.toNat - 1) / b.toNat = 0 := Nat.div_eq_of_lt (by omega)
    rw [hsum, Nat.mul_add_div hpos, hsmall, UInt64.toNat_div, Nat.add_zero]

/-- The end of a range that starts at `start`. -/
theorem toNat_end (start size len : UInt64) :
    (min (saturatingAdd start size) len).toNat = min (start.toNat + size.toNat) len.toNat := by
  have hlen := len.toNat_lt
  have hmin : ∀ x y : UInt64, (min x y).toNat = min x.toNat y.toNat := by
    intro x y
    show (if x ≤ y then x else y).toNat = _
    split_ifs with h
    · rw [Nat.min_eq_left (UInt64.le_iff_toNat_le.1 h)]
    · rw [UInt64.le_iff_toNat_le, Nat.not_le] at h
      rw [Nat.min_eq_right h.le]
  rw [hmin, saturatingAdd]
  split_ifs with h
  · rw [UInt64.toNat_add, Nat.mod_eq_of_lt h]
  · have : (0xFFFFFFFFFFFFFFFF : UInt64).toNat = 2 ^ 64 - 1 := rfl
    omega

/-- The ranges of the code, as natural numbers. -/
def ranges (l : List (UInt64 × UInt64)) : List (ℕ × ℕ) := l.map fun c ↦ (c.1.toNat, c.2.toNat)

/-! ### The loop

The steps that are left determine where the loop is, so the induction is on their number and not on
an index word that may wrap at the end. -/

theorem length_stepBy (step : UInt64) (n : ℕ) (start : UInt64) :
    (stepBy step n start).length = n := by
  induction n generalizing start with
  | zero => rfl
  | succ n ih => rw [stepBy, List.length_cons, ih]

/-- **The loop tiles what is left**, when the steps that are left are those that fit into it: by
induction on their number. Every range but the last has the size of a step. -/
theorem loop_tiles {len size : UInt64} (n : ℕ) (start : UInt64)
    (hfit : start.toNat + size.toNat * n < len.toNat)
    (hlast : len.toNat ≤ start.toNat + size.toNat * (n + 1)) :
    Tiles start.toNat len.toNat
      (ranges ((stepBy size (n + 1) start).map fun s ↦ (s, min (saturatingAdd s size) len))) ∧
    ∀ c ∈ ((stepBy size (n + 1) start).map fun s ↦ (s, min (saturatingAdd s size) len)).dropLast,
      c.2.toNat = c.1.toNat + size.toNat := by
  induction n generalizing start with
  | zero =>
    have hend : (min (saturatingAdd start size) len).toNat = len.toNat := by
      rw [toNat_end]
      omega
    refine ⟨⟨rfl, ?_, ?_⟩, by simp [stepBy]⟩
    · show start.toNat < (min (saturatingAdd start size) len).toNat
      omega
    · exact hend
  | succ n ih =>
    have hlen := len.toNat_lt
    have hmul : size.toNat * (n + 1) = size.toNat * n + size.toNat := Nat.mul_succ _ _
    have hmul' : size.toNat * (n + 1 + 1) = size.toNat * (n + 1) + size.toNat := Nat.mul_succ _ _
    -- the next start has not wrapped around
    have hnext : (start + size).toNat = start.toNat + size.toNat := by
      rw [UInt64.toNat_add]
      exact Nat.mod_eq_of_lt (by omega)
    have hend : (min (saturatingAdd start size) len).toNat = start.toNat + size.toNat := by
      rw [toNat_end]
      omega
    have hpos : 0 < size.toNat := by
      by_contra hz
      simp only [Nat.not_lt, Nat.le_zero] at hz
      simp only [hz, Nat.zero_mul] at hfit hlast
      omega
    obtain ⟨htiles, hsizes⟩ := ih (start + size) (by omega) (by omega)
    refine ⟨⟨rfl, ?_, ?_⟩, ?_⟩
    · show start.toNat < (min (saturatingAdd start size) len).toNat
      omega
    · show Tiles (min (saturatingAdd start size) len).toNat len.toNat _
      rw [hend, ← hnext]
      exact htiles
    · intro c hc
      rw [stepBy, List.map_cons, stepBy, List.map_cons, List.dropLast_cons_cons] at hc
      rcases List.mem_cons.1 hc with rfl | hc
      · exact hend
      · refine hsizes c ?_
        rw [stepBy, List.map_cons]
        exact hc

section Partition

variable {len numChunks : UInt64}

/-- What the loop makes of a length and a number of chunks that are not zero. -/
theorem chunkIndices_tiles (hlen : len ≠ 0) (hnum : numChunks ≠ 0) :
    Tiles 0 len.toNat (ranges (chunkIndices len numChunks)) ∧
    (∀ c ∈ (chunkIndices len numChunks).dropLast, c.2.toNat =
      c.1.toNat + len.toNat ⌈/⌉ numChunks.toNat) ∧
    (chunkIndices len numChunks).length ≤ numChunks.toNat := by
  have hlpos : 0 < len.toNat := Nat.pos_of_ne_zero fun hz ↦ hlen (UInt64.toNat_inj.1 hz)
  have hnpos : 0 < numChunks.toNat := Nat.pos_of_ne_zero fun hz ↦ hnum (UInt64.toNat_inj.1 hz)
  have hsize : (divCeil len numChunks).toNat = len.toNat ⌈/⌉ numChunks.toNat := toNat_divCeil hnum
  -- a chunk is not empty, and so many of them cover the length
  have hcover : len.toNat ≤ numChunks.toNat * (divCeil len numChunks).toNat := by
    rw [hsize]
    exact (ceilDiv_le_iff_le_mul hnpos).1 le_rfl
  have hspos : 0 < (divCeil len numChunks).toNat := by
    by_contra hz
    rw [Nat.le_zero.1 (Nat.le_of_not_lt hz), Nat.mul_zero] at hcover
    omega
  have hne : divCeil len numChunks ≠ 0 := by
    intro hz
    rw [hz] at hspos
    exact absurd hspos (Nat.lt_irrefl 0)
  have hcount : (divCeil len (divCeil len numChunks)).toNat =
      len.toNat ⌈/⌉ (divCeil len numChunks).toNat :=
    toNat_divCeil hne
  have hle : len.toNat ⌈/⌉ (divCeil len numChunks).toNat ≤ numChunks.toNat := by
    refine (ceilDiv_le_iff_le_mul hspos).2 ?_
    rw [Nat.mul_comm]
    exact hcover
  obtain ⟨n, hn⟩ : ∃ n, len.toNat ⌈/⌉ (divCeil len numChunks).toNat = n + 1 := by
    refine Nat.exists_eq_succ_of_ne_zero fun hz ↦ ?_
    have := (ceilDiv_le_iff_le_mul hspos).1 (Nat.le_of_eq hz)
    omega
  have hchunks : chunkIndices len numChunks = (stepBy (divCeil len numChunks) (n + 1) 0).map
      fun s ↦ (s, min (saturatingAdd s (divCeil len numChunks)) len) := by
    rw [← hn, ← hcount]
    exact if_neg (by simp [hlen, hnum])
  have hzero : (0 : UInt64).toNat = 0 := rfl
  have hfit : (0 : UInt64).toNat + (divCeil len numChunks).toNat * n < len.toNat := by
    by_contra hge
    have :=
      (ceilDiv_le_iff_le_mul hspos).2 (show len.toNat ≤ (divCeil len numChunks).toNat * n by omega)
    omega
  have hlast : len.toNat ≤ (0 : UInt64).toNat + (divCeil len numChunks).toNat * (n + 1) := by
    have := (ceilDiv_le_iff_le_mul hspos).1 (Nat.le_of_eq hn)
    omega
  obtain ⟨htiles, hsizes⟩ := loop_tiles n 0 hfit hlast
  rw [hchunks, ← hsize]
  refine ⟨htiles, hsizes, ?_⟩
  rw [List.length_map, length_stepBy]
  omega

/-- **`chunk_indices` partitions the indices.** Nothing comes of an empty array or of no chunks.
Otherwise the ranges are non-empty and consecutive from `0` to the length, so that every index is in
exactly one of them; there are at most as many as were asked for, and all but the last have the size
of the quotient, rounded up. -/
theorem chunkIndices_partition (len numChunks : UInt64) :
    (len = 0 ∨ numChunks = 0 → chunkIndices len numChunks = []) ∧
    (len ≠ 0 → numChunks ≠ 0 →
      (∀ c ∈ chunkIndices len numChunks, c.1 < c.2) ∧
      (chunkIndices len numChunks).IsChain (fun c d ↦ c.2 = d.1) ∧
      (chunkIndices len numChunks).head?.map Prod.fst = some 0 ∧
      (chunkIndices len numChunks).getLast?.map Prod.snd = some len ∧
      (∀ i < len, ∃! j : ℕ, ∃ c : UInt64 × UInt64,
        (chunkIndices len numChunks)[j]? = some c ∧ c.1 ≤ i ∧ i < c.2) ∧
      (chunkIndices len numChunks).length ≤ numChunks.toNat ∧
      ∀ c ∈ (chunkIndices len numChunks).dropLast,
        c.2.toNat - c.1.toNat = len.toNat ⌈/⌉ numChunks.toNat) := by
  refine ⟨fun h ↦ if_pos h, fun hlen hnum ↦ ?_⟩
  obtain ⟨htiles, hsizes, hcount⟩ := chunkIndices_tiles hlen hnum
  have hlpos : 0 < len.toNat := Nat.pos_of_ne_zero fun hz ↦ hlen (UInt64.toNat_inj.1 hz)
  generalize chunkIndices len numChunks = cs at htiles hsizes hcount
  refine ⟨fun c hc ↦ ?_, ?_, ?_, ?_, fun i hi ↦ ?_, hcount, fun c hc ↦ ?_⟩
  · have := (htiles.bounds (List.mem_map_of_mem hc)).2.1
    exact UInt64.lt_iff_toNat_lt.2 this
  · have := htiles.isChain
    rw [ranges, List.isChain_map] at this
    exact this.imp fun c d h ↦ UInt64.toNat_inj.1 h
  · cases cs with
    | nil => exact absurd htiles hlpos.ne
    | cons c cs => exact congrArg some (UInt64.toNat_inj.1 htiles.1)
  · have := htiles.getLast hlpos
    rw [ranges, List.getLast?_map] at this
    cases hl : cs.getLast? with
    | none =>
      rw [hl] at this
      cases this
    | some c =>
      rw [hl] at this
      exact congrArg some (UInt64.toNat_inj.1 (Option.some.inj this))
  · obtain ⟨j, ⟨c, hc, hle, hlt⟩, huniq⟩ :=
      htiles.existsUnique (Nat.zero_le i.toNat) (UInt64.lt_iff_toNat_lt.1 hi)
    rw [ranges, List.getElem?_map] at hc
    obtain ⟨d, hd, rfl⟩ := Option.map_eq_some_iff.1 hc
    refine ⟨j, ⟨d, hd, UInt64.le_iff_toNat_le.2 hle, UInt64.lt_iff_toNat_lt.2 hlt⟩, ?_⟩
    rintro k ⟨e, he, hke, hek⟩
    refine huniq k ⟨(e.1.toNat, e.2.toNat), ?_, UInt64.le_iff_toNat_le.1 hke,
      UInt64.lt_iff_toNat_lt.1 hek⟩
    rw [ranges, List.getElem?_map, he]
    rfl
  · rw [hsizes c hc]
    omega

end Partition

/-- Ten elements in three chunks. -/
theorem chunkIndices_ten : chunkIndices 10 3 = [(0, 4), (4, 8), (8, 10)] ∧
    ∀ i < (10 : UInt64), ∃! j : ℕ, ∃ c : UInt64 × UInt64,
      (chunkIndices 10 3)[j]? = some c ∧ c.1 ≤ i ∧ i < c.2 :=
  ⟨by decide, ((chunkIndices_partition 10 3).2 (by decide) (by decide)).2.2.2.2.1⟩

end AtomicArray

end Crossync
