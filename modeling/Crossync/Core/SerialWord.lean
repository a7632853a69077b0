import Mathlib.Data.Nat.Bitwise
import Mathlib.Tactic.Ring
import Mathlib.Tactic.SplitIfs

/-!
# The word of a `SerialMutex`

One 64-bit word holds the owner's identifier in its high half and, below it, the waiter flag, the
writer flag and a 30-bit reader count. As for the reader-writer word, the code's masks are kept as
they are and every word is read through four fields — `own`, `waiting`, `writing`, `readers` — which
determine it (`ext_fields`).

## What the arithmetic is for

The count is changed by adding or subtracting one to the whole word. That no carry or borrow leaves
the count field is `fields_add_one` and `fields_sub_one`; their side conditions are the checks that
the code makes before it adds, and the fact that a guard lives when it subtracts.
-/

namespace Crossync

namespace SerialWord

/-- The state word. -/
abbrev Word := BitVec 64

/-- `COUNT`: the bits of the reader count. -/
def countMask : Word := BitVec.ofNat 64 (2 ^ 30 - 1)

/-- `WRITE`: a writer holds the lock. -/
def writeFlag : Word := BitVec.ofNat 64 (2 ^ 30)

/-- `WAIT`: a waiter is registered. -/
def waitFlag : Word := BitVec.ofNat 64 (2 ^ 31)

/-- `!(u32::MAX as u64)`: the bits of the owner. -/
def ownerMask : Word := ~~~(BitVec.ofNat 64 (2 ^ 32 - 1))

/-- An owner identifier in the position it has in the word. -/
def ownerBits (id : BitVec 32) : Word := BitVec.setWidth 64 id <<< 32

/-! ### Fields

The four readings, and that they determine the word. -/

/-- The owner field. -/
def own (s : Word) : ℕ := s.toNat / 2 ^ 32

/-- The waiter flag. -/
def waiting (s : Word) : Bool := s.toNat.testBit 31

/-- The writer flag. -/
def writing (s : Word) : Bool := s.toNat.testBit 30

/-- The reader count. -/
def readers (s : Word) : ℕ := s.toNat % 2 ^ 30

/-- A word is its owner's number above the two flags and the count. -/
theorem toNat_eq (s : Word) : s.toNat =
    2 ^ 32 * own s + 2 ^ 31 * (waiting s).toNat + 2 ^ 30 * (writing s).toNat + readers s := by
  have h1 : (waiting s).toNat = s.toNat / 2 ^ 31 % 2 := by rw [waiting, Nat.toNat_testBit]
  have h2 : (writing s).toNat = s.toNat / 2 ^ 30 % 2 := by rw [writing, Nat.toNat_testBit]
  unfold own readers
  omega

/-- The fields determine the word. -/
theorem ext_fields {s s' : Word} (ho : own s = own s') (hq : waiting s = waiting s')
    (hw : writing s = writing s') (hr : readers s = readers s') : s = s' := by
  apply BitVec.eq_of_toNat_eq
  rw [toNat_eq s, toNat_eq s', ho, hq, hw, hr]

/-- The count field has thirty bits. -/
theorem readers_lt (s : Word) : readers s < 2 ^ 30 := Nat.mod_lt _ (by norm_num)

/-- Read the fields off a decomposition of the word's value. -/
theorem fields_of_toNat {s : Word} {o r : ℕ} {q w : Bool} (hr : r < 2 ^ 30)
    (h : s.toNat = 2 ^ 32 * o + 2 ^ 31 * q.toNat + 2 ^ 30 * w.toNat + r) :
    own s = o ∧ waiting s = q ∧ writing s = w ∧ readers s = r := by
  have hq : q.toNat ≤ 1 := Bool.toNat_le q
  have hw : w.toNat ≤ 1 := Bool.toNat_le w
  have hqs : (waiting s).toNat = q.toNat := by
    rw [waiting, Nat.toNat_testBit]
    omega
  have hws : (writing s).toNat = w.toNat := by
    rw [writing, Nat.toNat_testBit]
    omega
  refine ⟨?_, ?_, ?_, ?_⟩
  · unfold own
    omega
  · cases hv : waiting s <;> cases q <;> simp_all
  · cases hv : writing s <;> cases w <;> simp_all
  · unfold readers
    omega

/-! ### Masks

What the masks of the code do to the readings. -/

/-- `state & WRITE == 0`: no write guard is live. -/
theorem and_writeFlag_eq_zero_iff {s : Word} : s &&& writeFlag = 0 ↔ writing s = false := by
  have h := Nat.and_two_pow s.toNat 30
  rw [← BitVec.toNat_inj, BitVec.toNat_and, show writeFlag.toNat = 2 ^ 30 from rfl, h]
  cases hb : s.toNat.testBit 30 <;> simp [writing, hb]

/-- `state & WAIT == 0`: no waiter has announced itself. -/
theorem and_waitFlag_eq_zero_iff {s : Word} : s &&& waitFlag = 0 ↔ waiting s = false := by
  have h := Nat.and_two_pow s.toNat 31
  rw [← BitVec.toNat_inj, BitVec.toNat_and, show waitFlag.toNat = 2 ^ 31 from rfl, h]
  cases hb : s.toNat.testBit 31 <;> simp [waiting, hb]

/-- Masking with `COUNT` leaves the count. -/
theorem toNat_and_countMask (s : Word) : (s &&& countMask).toNat = readers s := by
  rw [BitVec.toNat_and, show countMask.toNat = 2 ^ 30 - 1 from rfl]
  exact Nat.and_two_pow_sub_one_eq_mod s.toNat 30

/-- `state & COUNT == 0`: no read guard is live. -/
theorem and_countMask_eq_zero_iff {s : Word} : s &&& countMask = 0 ↔ readers s = 0 := by
  rw [← BitVec.toNat_inj, toNat_and_countMask]
  rfl

/-- `state & COUNT == COUNT`: the count is at its limit. -/
theorem and_countMask_eq_countMask_iff {s : Word} :
    s &&& countMask = countMask ↔ readers s = 2 ^ 30 - 1 := by
  rw [← BitVec.toNat_inj, toNat_and_countMask]
  rfl

/-- `state & COUNT == 1`: this is the last read guard. -/
theorem and_countMask_eq_one_iff {s : Word} : s &&& countMask = 1 ↔ readers s = 1 := by
  rw [← BitVec.toNat_inj, toNat_and_countMask]
  rfl

/-- The owner's number stands in the high half. -/
theorem toNat_ownerBits (id : BitVec 32) : (ownerBits id).toNat = 2 ^ 32 * id.toNat := by
  have hid := id.isLt
  rw [ownerBits, BitVec.toNat_shiftLeft, BitVec.toNat_setWidth, Nat.shiftLeft_eq]
  omega

/-- Masking off the low half leaves the owner's number. -/
theorem toNat_and_ownerMask (s : Word) : (s &&& ownerMask).toNat = 2 ^ 32 * own s := by
  have hmask : ownerMask.toNat = (2 ^ 32 - 1) <<< 32 := by decide
  have hown : 2 ^ 32 * own s = (s.toNat >>> 32) <<< 32 := by
    rw [Nat.shiftLeft_eq, Nat.shiftRight_eq_div_pow]
    unfold own
    omega
  rw [BitVec.toNat_and, hmask, hown]
  apply Nat.eq_of_testBit_eq
  intro i
  rw [Nat.testBit_and, Nat.testBit_shiftLeft, Nat.testBit_shiftLeft, Nat.testBit_two_pow_sub_one,
    Nat.testBit_shiftRight]
  by_cases hi : 32 ≤ i
  · have hsub : 32 + (i - 32) = i := by omega
    by_cases hb : i < 64
    · simp [hi, hsub, show i - 32 < 32 by omega]
    · have hz : s.toNat.testBit i = false :=
        Nat.testBit_lt_two_pow (s.isLt.trans_le (Nat.pow_le_pow_right (by omega) (by omega)))
      simp [hz, hsub]
  · simp [hi]

/-- The owner test of the code. -/
theorem and_ownerMask_eq_iff {s : Word} {id : BitVec 32} :
    s &&& ownerMask = ownerBits id ↔ own s = id.toNat := by
  rw [← BitVec.toNat_inj, toNat_and_ownerMask, toNat_ownerBits]
  omega

/-! ### The words the code builds

Each expression of the source that is stored, with its four readings. -/

@[simp] theorem own_zero : own 0 = 0 := rfl
@[simp] theorem waiting_zero : waiting 0 = false := by decide
@[simp] theorem writing_zero : writing 0 = false := by decide
@[simp] theorem readers_zero : readers 0 = 0 := rfl

/-- The word of a first reader. -/
theorem fields_first_reader (id : BitVec 32) :
    own (ownerBits id ||| 1) = id.toNat ∧ waiting (ownerBits id ||| 1) = false ∧
      writing (ownerBits id ||| 1) = false ∧ readers (ownerBits id ||| 1) = 1 := by
  refine fields_of_toNat (by norm_num) ?_
  rw [BitVec.toNat_or, toNat_ownerBits, show (1 : Word).toNat = 1 from rfl, Nat.mul_comm,
    ← Nat.shiftLeft_eq, ← Nat.shiftLeft_add_eq_or_of_lt (by norm_num), Nat.shiftLeft_eq]
  simp

/-- The word of a writer. -/
theorem fields_writer (id : BitVec 32) :
    own (ownerBits id ||| writeFlag) = id.toNat ∧ waiting (ownerBits id ||| writeFlag) = false ∧
      writing (ownerBits id ||| writeFlag) = true ∧ readers (ownerBits id ||| writeFlag) = 0 := by
  refine fields_of_toNat (by norm_num) ?_
  rw [BitVec.toNat_or, toNat_ownerBits, show writeFlag.toNat = 2 ^ 30 from rfl, Nat.mul_comm,
    ← Nat.shiftLeft_eq, ← Nat.shiftLeft_add_eq_or_of_lt (show 2 ^ 30 < 2 ^ 32 by decide),
    Nat.shiftLeft_eq]
  simp

/-- The word with a registered waiter. -/
theorem fields_or_waitFlag (s : Word) :
    own (s ||| waitFlag) = own s ∧ waiting (s ||| waitFlag) = true ∧
      writing (s ||| waitFlag) = writing s ∧ readers (s ||| waitFlag) = readers s := by
  have hw : waitFlag.toNat = 2 ^ 31 := rfl
  refine ⟨?_, ?_, ?_, ?_⟩
  · have h : (s ||| waitFlag).toNat >>> 32 = s.toNat >>> 32 := by
      rw [BitVec.toNat_or, Nat.shiftRight_or_distrib, hw]
      simp
    rw [Nat.shiftRight_eq_div_pow, Nat.shiftRight_eq_div_pow] at h
    exact h
  · rw [waiting, BitVec.toNat_or, hw, Nat.testBit_or, Nat.testBit_two_pow_self, Bool.or_true]
  · rw [writing, BitVec.toNat_or, hw, Nat.testBit_or,
      show (2 ^ 31 : ℕ).testBit 30 = false by decide,
      Bool.or_false, writing]
  · have h : (s ||| waitFlag) &&& countMask = s &&& countMask := by
      rw [BitVec.and_comm, BitVec.and_or_distrib_left, show countMask &&& waitFlag = 0#64 by decide,
        BitVec.or_zero, BitVec.and_comm]
    rw [← toNat_and_countMask, h, toNat_and_countMask]

/-- One more read guard: the count goes up by one and no carry reaches the flags. -/
theorem fields_add_one {s : Word} (h : readers s ≠ 2 ^ 30 - 1) :
    own (s + 1) = own s ∧ waiting (s + 1) = waiting s ∧ writing (s + 1) = writing s ∧
      readers (s + 1) = readers s + 1 := by
  have hlt := readers_lt s
  have hs := s.isLt
  have he := toNat_eq s
  have h1 : (s + 1).toNat = s.toNat + 1 := by
    rw [BitVec.toNat_add, show (1 : Word).toNat = 1 from rfl]
    unfold own at he
    omega
  refine fields_of_toNat (by omega) ?_
  omega

/-- One read guard less: the count goes down by one and no borrow reaches the flags. -/
theorem fields_sub_one {s : Word} (h : readers s ≠ 0) :
    own (s - 1) = own s ∧ waiting (s - 1) = waiting s ∧ writing (s - 1) = writing s ∧
      readers (s - 1) + 1 = readers s := by
  have hlt := readers_lt s
  have hs := s.isLt
  have he := toNat_eq s
  have h1 : (s - 1).toNat + 1 = s.toNat := by
    rw [BitVec.toNat_sub, show (1 : Word).toNat = 1 from rfl]
    omega
  obtain ⟨h2, h3, h4, h5⟩ := fields_of_toNat (s := s - 1) (o := own s) (r := readers s - 1)
    (q := waiting s) (w := writing s) (by omega) (by omega)
  exact ⟨h2, h3, h4, by omega⟩

end SerialWord

end Crossync
