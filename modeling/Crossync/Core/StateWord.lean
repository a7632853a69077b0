import Mathlib.Data.Nat.Bitwise
import Mathlib.Tactic.Ring
import Mathlib.Tactic.SplitIfs

/-!
# The reader-writer state word

The 64-bit word shared by the reader-writer locks: two parked flags in the low bits and a reader
count above them, with the all-ones count reserved for "a writer holds the lock".

The masks are the ones the code uses, on machine words. Proofs never touch a mask: each word is read
through `count`, `rp` and `wp` — the count field and the two flags — and every word expression of
the code has its three readings as simp lemmas here. `ext_fields` says that the three readings
determine the word, and `writerCount` is the count that means "writer".

## Where a mask could go wrong

The subtraction of a reader and the addition of one are done on the whole word. They act on the
count field alone as long as it neither overflows into nothing nor borrows from the flags:
`count_add_oneReader` and `count_sub_oneReader` carry the side conditions, and every use of them has
to show that the field has room, or that a reader is there. The one path of the library that adds
without the first of the two is in `LockFree.SpinCellLimit`.
-/

namespace Crossync

/-- Bitmask-based state. -/
abbrev Word := BitVec 64

namespace Word

/-- No reader, no writer, nobody parked. -/
def unlocked : Word := 0

/-- There are readers waiting. -/
def readersParked : Word := 0b0001

/-- There are writers waiting. -/
def writersParked : Word := 0b0010

/-- The reader count starts at bit 2. -/
def oneReader : Word := 0b0100

/-- All bits but the parked flags. -/
def oneWriter : Word := ~~~(readersParked ||| writersParked)

/-- The word represents an exclusive writer lock. -/
def isWriterLocked (state : Word) : Bool := state &&& oneWriter == oneWriter

/-- The number of active readers. -/
def readersCount (state : Word) : ℕ :=
  if isWriterLocked state then 0 else ((state &&& oneWriter) >>> 2).toNat

/-- `checked_add` on machine words. -/
def checkedAdd (x y : Word) : Option Word :=
  if x.toNat + y.toNat < 2 ^ 64 then some (x + y) else none

/-! ### The three readings of a word

The count above the flags. The all-ones count is the writer's. -/

/-- The count field. -/
def count (s : Word) : ℕ := s.toNat / 4

/-- The readers-parked flag. -/
def rp (s : Word) : Bool := s.toNat.testBit 0

/-- The writers-parked flag. -/
def wp (s : Word) : Bool := s.toNat.testBit 1

/-- The count that means "a writer holds the lock". -/
def writerCount : ℕ := 2 ^ 62 - 1

/-- A word is its count field above its two flags. -/
theorem toNat_eq (s : Word) : s.toNat = 4 * count s + 2 * (wp s).toNat + (rp s).toNat := by
  have h0 : (rp s).toNat = s.toNat % 2 := by
    rw [rp, Nat.toNat_testBit, pow_zero, Nat.div_one]
  have h1 : (wp s).toNat = s.toNat / 2 % 2 := by
    rw [wp, Nat.toNat_testBit, pow_one]
  unfold count
  omega

/-- The three readings determine the word. -/
theorem ext_fields {s s' : Word} (hc : count s = count s') (hw : wp s = wp s')
    (hr : rp s = rp s') : s = s' := by
  apply BitVec.eq_of_toNat_eq
  rw [toNat_eq s, toNat_eq s', hc, hw, hr]

/-- No word counts past the writer pattern. -/
theorem count_le (s : Word) : count s ≤ writerCount := by
  have := s.isLt
  unfold count writerCount
  omega

theorem oneWriter_toNat : oneWriter.toNat = 4 * writerCount := by decide

/-- Masking with `oneWriter` keeps the count field and clears the flags. -/
theorem toNat_and_oneWriter (s : Word) : (s &&& oneWriter).toNat = 4 * count s := by
  have hmask : oneWriter.toNat = (2 ^ 62 - 1) <<< 2 := by decide
  have hcount : 4 * count s = (s.toNat >>> 2) <<< 2 := by
    rw [Nat.shiftLeft_eq, Nat.shiftRight_eq_div_pow]
    unfold count
    omega
  rw [BitVec.toNat_and, hmask, hcount]
  apply Nat.eq_of_testBit_eq
  intro i
  rw [Nat.testBit_and, Nat.testBit_shiftLeft, Nat.testBit_shiftLeft, Nat.testBit_two_pow_sub_one,
    Nat.testBit_shiftRight]
  by_cases hi : 2 ≤ i
  · by_cases hb : i < 64
    · have : 2 + (i - 2) = i := by omega
      simp [hi, this, show i - 2 < 62 by omega]
    · have hz : s.toNat.testBit i = false :=
        Nat.testBit_lt_two_pow (s.isLt.trans_le (Nat.pow_le_pow_right (by omega) (by omega)))
      have : 2 + (i - 2) = i := by omega
      simp [hz, this]
  · simp [hi]

/-- `state & ONE_WRITER == 0`: nobody holds the lock. -/
theorem and_oneWriter_eq_zero_iff {s : Word} : s &&& oneWriter = 0 ↔ count s = 0 := by
  rw [← BitVec.toNat_inj, toNat_and_oneWriter]
  simp

/-- `state & ONE_WRITER == ONE_WRITER`: a writer holds the lock. -/
theorem and_oneWriter_eq_oneWriter_iff {s : Word} :
    s &&& oneWriter = oneWriter ↔ count s = writerCount := by
  rw [← BitVec.toNat_inj, toNat_and_oneWriter, oneWriter_toNat]
  omega

/-- The code's own test for a writer, read off the count field. -/
theorem isWriterLocked_iff {s : Word} : isWriterLocked s = true ↔ count s = writerCount := by
  simp [isWriterLocked, and_oneWriter_eq_oneWriter_iff]

/-- Off the writer pattern the reader count is the count field. -/
theorem readersCount_eq {s : Word} (h : count s ≠ writerCount) : readersCount s = count s := by
  have hw : ¬ isWriterLocked s = true := fun hw ↦ h (isWriterLocked_iff.1 hw)
  rw [readersCount, if_neg hw, BitVec.toNat_ushiftRight, toNat_and_oneWriter,
    Nat.shiftRight_eq_div_pow]
  omega

/-- Under a writer the code reports no readers. -/
theorem readersCount_eq_zero_of_writer {s : Word} (h : count s = writerCount) :
    readersCount s = 0 := by
  rw [readersCount, if_pos (isWriterLocked_iff.2 h)]

/-- `state & READERS_PARKED == 0`: no reader has announced that it parks. -/
theorem and_readersParked_eq_zero_iff {s : Word} : s &&& readersParked = 0 ↔ rp s = false := by
  have h := Nat.and_two_pow s.toNat 0
  rw [← BitVec.toNat_inj, BitVec.toNat_and, show readersParked.toNat = 2 ^ 0 from rfl, h]
  cases hb : s.toNat.testBit 0 <;> simp [rp, hb]

/-- `state & WRITERS_PARKED == 0`: no writer has announced that it parks. -/
theorem and_writersParked_eq_zero_iff {s : Word} : s &&& writersParked = 0 ↔ wp s = false := by
  have h := Nat.and_two_pow s.toNat 1
  rw [← BitVec.toNat_inj, BitVec.toNat_and, show writersParked.toNat = 2 ^ 1 from rfl, h]
  cases hb : s.toNat.testBit 1 <;> simp [wp, hb]

/-! ### Readings of the words the code builds

Each expression of the source that is stored, with its three readings as simp lemmas. -/

@[simp] theorem count_unlocked : count unlocked = 0 := rfl
@[simp] theorem rp_unlocked : rp unlocked = false := rfl
@[simp] theorem wp_unlocked : wp unlocked = false := rfl
@[simp] theorem count_oneWriter : count oneWriter = writerCount := by decide
@[simp] theorem rp_oneWriter : rp oneWriter = false := by decide
@[simp] theorem wp_oneWriter : wp oneWriter = false := by decide

/-- The rest state is the word whose three readings are all zero. -/
theorem eq_unlocked_iff {s : Word} :
    s = unlocked ↔ count s = 0 ∧ wp s = false ∧ rp s = false := by
  constructor
  · rintro rfl
    exact ⟨rfl, rfl, rfl⟩
  · rintro ⟨hc, hw, hr⟩
    exact ext_fields hc hw hr

@[simp] theorem rp_or (s s' : Word) : rp (s ||| s') = (rp s || rp s') := by
  simp [rp, BitVec.toNat_or]

@[simp] theorem wp_or (s s' : Word) : wp (s ||| s') = (wp s || wp s') := by
  simp [wp, BitVec.toNat_or, Nat.testBit_or]

@[simp] theorem rp_and (s s' : Word) : rp (s &&& s') = (rp s && rp s') := by
  simp [rp, BitVec.toNat_and]

@[simp] theorem wp_and (s s' : Word) : wp (s &&& s') = (wp s && wp s') := by
  simp [wp, BitVec.toNat_and, Nat.testBit_and]

/-- The count field as the shift the code writes. -/
theorem count_eq_shift (s : Word) : count s = s.toNat >>> 2 := by
  rw [count, Nat.shiftRight_eq_div_pow]

/-- An or acts on the count field alone, whatever it does to the flags. -/
theorem count_or (s s' : Word) : count (s ||| s') = count s ||| count s' := by
  simp only [count_eq_shift, BitVec.toNat_or, Nat.shiftRight_or_distrib]

/-- An and acts on the count field alone, whatever it does to the flags. -/
theorem count_and (s s' : Word) : count (s &&& s') = count s &&& count s' := by
  simp only [count_eq_shift, BitVec.toNat_and, Nat.shiftRight_and_distrib]

@[simp] theorem rp_readersParked : rp readersParked = true := rfl
@[simp] theorem wp_readersParked : wp readersParked = false := rfl
@[simp] theorem count_readersParked : count readersParked = 0 := rfl
@[simp] theorem rp_writersParked : rp writersParked = false := rfl
@[simp] theorem wp_writersParked : wp writersParked = true := rfl
@[simp] theorem count_writersParked : count writersParked = 0 := rfl

/-- Setting the readers-parked flag leaves the count alone. -/
@[simp] theorem count_or_readersParked (s : Word) : count (s ||| readersParked) = count s := by
  simp [count_or]

/-- Setting the writers-parked flag leaves the count alone. -/
@[simp] theorem count_or_writersParked (s : Word) : count (s ||| writersParked) = count s := by
  simp [count_or]

/-- The word of a slow exclusive acquisition: the writer pattern and the readers-parked flag. -/
@[simp] theorem count_and_readersParked_or_oneWriter (s : Word) :
    count ((s &&& readersParked) ||| oneWriter) = writerCount := by
  simp [count_or, count_and]

/-- The parked flags alone. -/
@[simp] theorem count_and_parked (s : Word) :
    count (s &&& (readersParked ||| writersParked)) = 0 := by
  simp [count_and, count_or]

/-- One more reader: the count field goes up by one and no carry reaches anything else. -/
theorem count_add_oneReader {s : Word} (h : count s < writerCount) :
    count (s + oneReader) = count s + 1 ∧ wp (s + oneReader) = wp s ∧
      rp (s + oneReader) = rp s := by
  have hlt := s.isLt
  have hn : (s + oneReader).toNat = s.toNat + 4 := by
    rw [BitVec.toNat_add, show oneReader.toNat = 4 from rfl]
    unfold count writerCount at h
    omega
  refine ⟨by unfold count; omega, ?_, ?_⟩
  · simp only [wp, hn, Nat.testBit_eq_decide_div_mod_eq]
    congr 2
    omega
  · simp only [rp, hn, Nat.testBit_eq_decide_div_mod_eq]
    congr 2
    omega

/-- One reader less: the count field goes down by one and no borrow reaches the flags. -/
theorem count_sub_oneReader {s : Word} (h : 0 < count s) :
    count (s - oneReader) + 1 = count s ∧ wp (s - oneReader) = wp s ∧
      rp (s - oneReader) = rp s := by
  have hlt := s.isLt
  have hn : (s - oneReader).toNat + 4 = s.toNat := by
    rw [BitVec.toNat_sub, show oneReader.toNat = 4 from rfl]
    unfold count at h
    omega
  refine ⟨by unfold count; omega, ?_, ?_⟩
  · simp only [wp, ← hn, Nat.testBit_eq_decide_div_mod_eq]
    congr 2
    omega
  · simp only [rp, ← hn, Nat.testBit_eq_decide_div_mod_eq]
    congr 2
    omega

/-- Removing every counted reader at once keeps the flags. -/
theorem count_sub_readers (s : Word) :
    count (s - oneReader * BitVec.ofNat 64 (count s)) = 0 ∧
      wp (s - oneReader * BitVec.ofNat 64 (count s)) = wp s ∧
      rp (s - oneReader * BitVec.ofNat 64 (count s)) = rp s := by
  have hlt := s.isLt
  have hn : (s - oneReader * BitVec.ofNat 64 (count s)).toNat + 4 * count s = s.toNat := by
    rw [BitVec.toNat_sub, BitVec.toNat_mul, BitVec.toNat_ofNat, show oneReader.toNat = 4 from rfl]
    unfold count
    omega
  refine ⟨?_, ?_, ?_⟩
  · unfold count at hn ⊢
    omega
  · simp only [wp, ← hn, Nat.testBit_eq_decide_div_mod_eq]
    congr 2
    omega
  · simp only [rp, ← hn, Nat.testBit_eq_decide_div_mod_eq]
    congr 2
    omega

/-- The word of a downgrade: one reader and the flags. -/
theorem count_downgrade (s : Word) :
    count ((s &&& ~~~oneWriter) + oneReader) = 1 ∧
      wp ((s &&& ~~~oneWriter) + oneReader) = wp s ∧
      rp ((s &&& ~~~oneWriter) + oneReader) = rp s := by
  have hc : count (s &&& ~~~oneWriter) = 0 := by
    rw [count_and, show count (~~~oneWriter) = 0 by decide, Nat.and_zero]
  obtain ⟨h1, h2, h3⟩ := count_add_oneReader (s := s &&& ~~~oneWriter)
    (by rw [hc]; decide)
  rw [h1, h2, h3, hc, wp_and, rp_and, show wp (~~~oneWriter) = true by decide,
    show rp (~~~oneWriter) = true by decide]
  simp

/-- The reader admission test shared by every shared-acquisition path: the addition does not
overflow, the result is not the writer pattern, and no writer is parked. -/
def admitShared (state : Word) : Option Word :=
  match checkedAdd state oneReader with
  | some newState =>
    if newState &&& oneWriter = oneWriter ∨ state &&& writersParked ≠ 0 then none
    else some newState
  | none => none

/-- **An admitted reader never reaches the writer pattern**: the test passes exactly when one more
reader still decodes as a reader, and no writer is parked. -/
theorem admitShared_eq_some_iff {s s' : Word} :
    admitShared s = some s' ↔
      count s + 1 < writerCount ∧ wp s = false ∧ s' = s + oneReader := by
  have hle := count_le s
  have hone : oneReader.toNat = 4 := rfl
  unfold admitShared checkedAdd
  by_cases hov : s.toNat + oneReader.toNat < 2 ^ 64
  · have hc : count s < writerCount := by
      unfold count writerCount
      omega
    simp only [if_pos hov, and_oneWriter_eq_oneWriter_iff, (count_add_oneReader hc).1, ne_eq,
      and_writersParked_eq_zero_iff]
    split_ifs with h
    · constructor
      · intro h'
        cases h'
      · rintro ⟨hlt, hw, -⟩
        rcases h with h | h
        · omega
        · exact absurd hw h
    · rw [not_or, not_not] at h
      constructor
      · intro h'
        cases h'
        exact ⟨by omega, h.2, rfl⟩
      · rintro ⟨-, -, rfl⟩
        rfl
  · have hc : ¬ count s + 1 < writerCount := by
      unfold count writerCount
      omega
    rw [if_neg hov]
    simp [hc]

/-- A reader is refused at the reader limit, under a writer, and behind a queued writer. -/
theorem admitShared_eq_none_iff {s : Word} :
    admitShared s = none ↔ writerCount ≤ count s + 1 ∨ wp s = true := by
  rw [Option.eq_none_iff_forall_ne_some]
  constructor
  · intro h
    by_contra hn
    rw [not_or, Nat.not_le, Bool.not_eq_true] at hn
    exact h _ (admitShared_eq_some_iff.2 ⟨hn.1, hn.2, rfl⟩)
  · intro h s' hs
    obtain ⟨h1, h2, -⟩ := admitShared_eq_some_iff.1 hs
    rcases h with h | h
    · omega
    · rw [h2] at h
      cases h

end Word

end Crossync
