import Mathlib.Algebra.BigOperators.Group.List.Basic
import Mathlib.Data.Nat.Bitwise
import Crossync.Atomic.HashMap

/-!
# The layout of an `AtomicHashMap`

The constructor rounds the requested capacity up to a multiple of the number of shards, by a mask,
and picks the shift that leaves as many high bits of a hash as there are bits in a shard number. A
layout is `Valid` if the shift selects one of the shards and every shard has a slot, which is all
that the operations need.

The constructor accepts every power of two from `2` to `2 ^ 63` as the number of shards, unless
rounding up overflows, and what it accepts is valid (`routing_total`).

## Words and numbers

Rounding up by a mask is `(c + m) & !m`, and overflow of the addition is a panic of the constructor.
The shift is the word size minus the logarithm of the number of shards. All of it is done on 64-bit
words as in the source; one lemma each turns the mask into a division and the shift into a quotient,
and the rest is arithmetic of natural numbers.
-/

namespace Crossync

namespace AtomicHashMap

/-- The shift selects one of the shards, and every shard has a slot. -/
structure Layout.Valid (L : Layout) : Prop where
  capacity_pos : 0 < L.capacity
  shards : L.shardAmount * 2 ^ L.shift = 2 ^ 64

theorem trailingZeros_two_pow {k : ℕ} (hk : k < 64) : trailingZeros (2 ^ k) = k := by
  have h : (List.range 64).find? (fun i ↦ (2 ^ k).testBit i) = some k := by
    refine List.find?_range_eq_some.2 ⟨Nat.testBit_two_pow_self, List.mem_range.2 hk, fun j hj ↦ ?_⟩
    rw [Nat.testBit_two_pow_of_ne (by omega)]
    rfl
  rw [trailingZeros, h]
  rfl

/-- Clearing the low `k` bits rounds down to a multiple of `2 ^ k`. -/
theorem and_not_low_bits {x m : UInt64} {k : ℕ} (hm : m.toNat = 2 ^ k - 1) :
    (x &&& ~~~m).toNat = x.toNat / 2 ^ k * 2 ^ k := by
  have hshift : x.toNat / 2 ^ k * 2 ^ k = (x.toNat >>> k) <<< k := by
    rw [Nat.shiftLeft_eq, Nat.shiftRight_eq_div_pow]
  have hx : x.toNat < 2 ^ 64 := x.toNat_lt
  rw [hshift, UInt64.toNat_and, UInt64.toNat_not]
  apply Nat.eq_of_testBit_eq
  intro i
  have hnot : (UInt64.size - 1 - m.toNat).testBit i = (decide (i < 64) && !m.toNat.testBit i) := by
    rw [show UInt64.size - 1 - m.toNat = 2 ^ 64 - (m.toNat + 1) by rw [UInt64.size]; omega]
    exact Nat.testBit_two_pow_sub_succ m.toNat_lt i
  rw [Nat.testBit_and, hnot, hm, Nat.testBit_two_pow_sub_one, Nat.testBit_shiftLeft,
    Nat.testBit_shiftRight]
  by_cases hi : k ≤ i
  · have hadd : k + (i - k) = i := by omega
    rw [hadd]
    by_cases hb : i < 64
    · simp [hi, hb]
    · have hz : x.toNat.testBit i = false :=
        Nat.testBit_lt_two_pow (hx.trans_le (Nat.pow_le_pow_right (by omega) (by omega)))
      simp [hz]
  · simp [hi]
    omega

theorem isPowerOfTwo_iff {n : ℕ} (h : isPowerOfTwo n = true) : ∃ k, n = 2 ^ k := by
  simp only [isPowerOfTwo, Bool.and_eq_true, bne_iff_ne, ne_eq, beq_iff_eq] at h
  exact (Nat.and_sub_one_eq_zero_iff_isPowerOfTwo h.1).1 h.2

theorem isPowerOfTwo_two_pow (k : ℕ) : isPowerOfTwo (2 ^ k) = true := by
  have hpos : 2 ^ k ≠ 0 := (Nat.two_pow_pos k).ne'
  simp only [isPowerOfTwo, Bool.and_eq_true, bne_iff_ne, ne_eq, beq_iff_eq]
  exact ⟨hpos, (Nat.and_sub_one_eq_zero_iff_isPowerOfTwo hpos).2 ⟨k, rfl⟩⟩

theorem two_pow_mul_shift {k : ℕ} (hk : k < 64) : 2 ^ k * 2 ^ (64 - k) = 2 ^ 64 := by
  rw [← pow_add]
  congr 1
  omega

/-- **What the constructor computes**, for a number of shards that it accepts: it rounds up to a
multiple of the number of shards, unless the sum overflows. -/
theorem withCapacity_eq (capacity : UInt64) {shardAmount : UInt64} {k : ℕ}
    (hk : shardAmount.toNat = 2 ^ k) (h1 : 0 < k) :
    withCapacityHasherAndShardAmount capacity shardAmount =
      if capacity ≠ 0 then
        if capacity.toNat + (2 ^ k - 1) < 2 ^ 64 then
          .ok ⟨2 ^ k, (capacity.toNat + (2 ^ k - 1)) / 2 ^ k, 64 - k⟩
        else .error "map capacity overflow"
      else .ok ⟨2 ^ k, 16, 64 - k⟩ := by
  have hk64 : k < 64 := (Nat.pow_lt_pow_iff_right (by omega : 1 < 2)).1 (hk ▸ shardAmount.toNat_lt)
  have htwo : 2 ≤ 2 ^ k := (Nat.pow_le_pow_right (by omega) h1 : 2 ^ 1 ≤ 2 ^ k)
  have hpow : isPowerOfTwo (2 ^ k) = true := isPowerOfTwo_two_pow k
  unfold withCapacityHasherAndShardAmount
  rw [hk, if_neg (by omega), if_neg (by rw [hpow]; simp), trailingZeros_two_pow hk64]
  by_cases h0 : capacity ≠ 0
  · rw [if_pos h0, if_pos h0]
    by_cases hov : capacity.toNat + (2 ^ k - 1) < 2 ^ 64
    · rw [if_pos hov, if_pos hov]
      have hsub : (shardAmount - 1).toNat = 2 ^ k - 1 := by
        rw [UInt64.toNat_sub_of_le _ _ (UInt64.le_iff_toNat_le.2 (by simp; omega)), hk]
        rfl
      have hadd : (capacity + (shardAmount - 1)).toNat = capacity.toNat + (2 ^ k - 1) := by
        rw [UInt64.toNat_add, hsub]
        exact Nat.mod_eq_of_lt hov
      have hround := and_not_low_bits (x := capacity + (shardAmount - 1)) hsub
      rw [hadd] at hround
      have hcap : 0 < capacity.toNat := Nat.pos_of_ne_zero fun hz ↦ h0 (UInt64.toNat_inj.1 hz)
      have hpos : 0 < 2 ^ k := Nat.two_pow_pos k
      have hone : 1 ≤ (capacity.toNat + (2 ^ k - 1)) / 2 ^ k :=
        (Nat.one_le_div_iff hpos).2 (by omega)
      have hne : (capacity + (shardAmount - 1)) &&& ~~~(shardAmount - 1) ≠ 0 := by
        intro hz
        rw [hz] at hround
        have := Nat.mul_pos hone hpos
        rw [← hround] at this
        cases this
      simp only [if_neg hne, hround, Nat.mul_div_cancel _ hpos]
    · rw [if_neg hov, if_neg hov]
  · rw [if_neg h0, if_neg h0]

/-- Every layout that the constructor accepts is valid. -/
theorem valid_of_ok {capacity shardAmount : UInt64} {L : Layout}
    (h : withCapacityHasherAndShardAmount capacity shardAmount = .ok L) : L.Valid := by
  obtain ⟨k, hk, h1⟩ : ∃ k, shardAmount.toNat = 2 ^ k ∧ 0 < k := by
    unfold withCapacityHasherAndShardAmount at h
    split_ifs at h with hgt hpow
    all_goals
      obtain ⟨k, hk⟩ := isPowerOfTwo_iff hpow
      refine ⟨k, hk, Nat.pos_of_ne_zero ?_⟩
      rintro rfl
      rw [hk] at hgt
      exact absurd hgt (by decide)
  have hk64 : k < 64 := (Nat.pow_lt_pow_iff_right (by omega : 1 < 2)).1 (hk ▸ shardAmount.toNat_lt)
  have hshards : 2 ^ k * 2 ^ (64 - k) = 2 ^ 64 := two_pow_mul_shift hk64
  rw [withCapacity_eq capacity hk h1] at h
  split_ifs at h with h0 hov
  · cases h
    have hcap : 0 < capacity.toNat := Nat.pos_of_ne_zero fun hz ↦ h0 (UInt64.toNat_inj.1 hz)
    exact ⟨(Nat.one_le_div_iff (Nat.two_pow_pos k)).2 (by omega), hshards⟩
  · cases h
    exact ⟨Nat.succ_pos 15, hshards⟩

theorem Layout.Valid.determineShard_lt {L : Layout} (hL : L.Valid) (hash : UInt64) :
    L.determineShard hash < L.shardAmount := by
  rw [Layout.determineShard, BitVec.toNat_ushiftRight, Nat.shiftRight_eq_div_pow,
    Nat.div_lt_iff_lt_mul (Nat.two_pow_pos _), hL.shards]
  exact BitVec.isLt _

theorem Layout.Valid.getSlot_lt {L : Layout} (hL : L.Valid) (hash : UInt64) :
    L.getSlot hash < L.capacity := Nat.mod_lt _ hL.capacity_pos

/-- The slots of all shards, which is what `capacity` sums up. -/
def Layout.totalCapacity (L : Layout) : ℕ := ((List.range L.shardAmount).map fun _ ↦ L.capacity).sum

theorem Layout.totalCapacity_eq (L : Layout) : L.totalCapacity = L.shardAmount * L.capacity := by
  rw [Layout.totalCapacity, List.map_const', List.length_range, List.sum_replicate_nat]

/-- **The routing is total.** For every requested capacity and every number of shards `2 ^ k` from
`2` to `2 ^ 63`, the constructor panics on the addition, which overflows, or the shards together
have the requested capacity and, if any was requested, less than one slot per shard more; then the
shift is one of a 64-bit word, and every hash selects a shard and a slot that exist. -/
theorem routing_total (capacity shardAmount : UInt64) {k : ℕ} (h1 : 1 ≤ k) (h63 : k ≤ 63)
    (hk : shardAmount.toNat = 2 ^ k) :
    (capacity ≠ 0 ∧ 2 ^ 64 ≤ capacity.toNat + (shardAmount.toNat - 1) ∧
      withCapacityHasherAndShardAmount capacity shardAmount = .error "map capacity overflow") ∨
    ∃ L, withCapacityHasherAndShardAmount capacity shardAmount = .ok L ∧
      L.shardAmount = shardAmount.toNat ∧ 1 ≤ L.capacity ∧ capacity.toNat ≤ L.totalCapacity ∧
      (capacity ≠ 0 → L.totalCapacity < capacity.toNat + shardAmount.toNat ∧
        L.totalCapacity < 2 ^ 64) ∧
      L.shift < 64 ∧ ∀ hash, L.determineShard hash < L.shardAmount ∧
        L.getSlot hash < L.capacity := by
  have hpos : 0 < 2 ^ k := Nat.two_pow_pos k
  have heq := withCapacity_eq capacity hk h1
  -- what is left once the layout is known
  have hok : ∀ {L : Layout}, withCapacityHasherAndShardAmount capacity shardAmount = .ok L →
      L.shift < 64 → (∀ hash, L.determineShard hash < L.shardAmount ∧ L.getSlot hash < L.capacity) ∧
      1 ≤ L.capacity := fun hL _ ↦
    ⟨fun hash ↦ ⟨(valid_of_ok hL).determineShard_lt hash, (valid_of_ok hL).getSlot_lt hash⟩,
      (valid_of_ok hL).capacity_pos⟩
  rw [hk]
  by_cases h0 : capacity = 0
  · right
    rw [if_neg (by simpa using h0)] at heq
    obtain ⟨hroute, hcap⟩ := hok heq (by simp only; omega)
    refine ⟨_, heq, rfl, hcap, ?_, fun hne ↦ absurd h0 hne, (by simp only; omega), hroute⟩
    rw [h0]
    exact Nat.zero_le _
  · rw [if_pos h0] at heq
    by_cases hov : capacity.toNat + (2 ^ k - 1) < 2 ^ 64
    · right
      rw [if_pos hov] at heq
      obtain ⟨hroute, hcap⟩ := hok heq (by simp only; omega)
      -- rounding up to a multiple of the number of shards
      have hdiv := Nat.div_add_mod (capacity.toNat + (2 ^ k - 1)) (2 ^ k)
      have hmod := Nat.mod_lt (capacity.toNat + (2 ^ k - 1)) hpos
      refine ⟨_, heq, rfl, hcap, ?_, fun _ ↦ ?_, (by simp only; omega), hroute⟩
      · rw [Layout.totalCapacity_eq]
        simp only
        omega
      · rw [Layout.totalCapacity_eq]
        simp only
        omega
    · left
      rw [if_neg hov] at heq
      exact ⟨h0, Nat.le_of_not_lt hov, heq⟩

/-- The extremes: `2 ^ 63` shards, with a request that gives each of them one slot. -/
theorem routing_total_largest :
    ∃ L, withCapacityHasherAndShardAmount 0x8000000000000000 0x8000000000000000 = .ok L ∧
      L.capacity = 1 ∧
      L.totalCapacity < 2 ^ 64 ∧ ∀ hash, L.determineShard hash < 2 ^ 63 := by
  have hval : withCapacityHasherAndShardAmount 0x8000000000000000 0x8000000000000000 =
      .ok ⟨2 ^ 63, 1, 1⟩ := by
    decide
  obtain ⟨-, -, herr⟩ | ⟨L, hL, -, -, -, hsum, -, hroute⟩ :=
    routing_total 0x8000000000000000 0x8000000000000000 (k := 63) (by decide) (by decide)
      (by decide)
  · rw [hval] at herr
    cases herr
  · rw [hval] at hL
    cases hL
    exact ⟨_, hval, rfl, (hsum (by decide)).2, fun hash ↦ (hroute hash).1⟩

end AtomicHashMap

end Crossync
