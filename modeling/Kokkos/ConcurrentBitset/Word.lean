import Mathlib

/-!
# Words of the concurrent bitset buffer

The buffer of `Kokkos::Impl::concurrent_bitset` is an array of `uint32_t`. Word `0`
packs the state header (bits `26..30`) with the used count (bits `0..25`); the
remaining words hold the bitmap, 32 bits per word. This module fixes the constants of
the `struct`, the two sizing functions, the one-bit masks the atomics apply, and the
bit-counting helper the search loop uses to skip over claimed bits.

Bit indices and bounds are `Nat`: every value the source forms from them
(`bit >> 5`, `(word + 1) << 5`, ...) stays far below `2^32` for the bounds the
argument checks admit, so no `uint32_t` wrap-around is lost. The words themselves are
`BitVec 32`, whose addition wraps as `uint32_t` does.
-/

namespace Kokkos.ConcurrentBitset

open BitVec

/-- A `uint32_t` cell of the buffer. -/
abbrev Word := BitVec 32

/-! ## Constants of the `struct` -/

def bitsPerIntLg2 : Nat := 5

def bitsPerIntMask : Nat := (1 <<< bitsPerIntLg2) - 1

def maxBitCountLg2 : Nat := 25

def maxBitCount : Nat := 1 <<< maxBitCountLg2

def stateShift : Nat := 26

def stateUsedMask : Word := BitVec.ofNat 32 ((1 <<< stateShift) - 1)

def stateHeaderMask : Word := BitVec.ofNat 32 0x1f <<< stateShift

theorem bitsPerIntMask_eq : bitsPerIntMask = 31 := rfl

theorem maxBitCount_eq : maxBitCount = 2 ^ 25 := rfl

/-- `bit & bits_per_int_mask` is the position of a bit inside its word. -/
@[simp]
theorem and_bitsPerIntMask (bit : Nat) : bit &&& bitsPerIntMask = bit % 32 :=
  Nat.and_pow_two_sub_one_eq_mod bit 5

@[simp]
theorem shiftRight_bitsPerIntLg2 (bit : Nat) : bit >>> bitsPerIntLg2 = bit / 32 :=
  Nat.shiftRight_eq_div_pow bit 5

@[simp]
theorem shiftLeft_bitsPerIntLg2 (word : Nat) : word <<< bitsPerIntLg2 = word * 32 :=
  Nat.shiftLeft_eq word 5

/-- `(word << 5) | j` for an in-word position `j` is the bit index `word * 32 + j`. -/
theorem shiftLeft_or_eq_add (word j : Nat) (hj : j < 32) :
    word <<< bitsPerIntLg2 ||| j = word * 32 + j := by
  apply Nat.eq_of_testBit_eq
  intro i
  rw [bitsPerIntLg2, Nat.mul_comm, show 32 = 2 ^ 5 from rfl, Nat.testBit_mul_pow_two_add word hj,
    Nat.testBit_or, Nat.testBit_shiftLeft]
  by_cases h : i < 5
  · simp [h]
  · have hj' : j < 2 ^ i := Nat.lt_of_lt_of_le hj
      (show 2 ^ 5 ≤ 2 ^ i from Nat.pow_le_pow_right (by decide) (by omega))
    simp [h, Nat.testBit_lt_two_pow hj', Nat.le_of_not_lt h]

/-! ## Sizing -/

/-- `buffer_bound_lg2`: words needed for `2^bit_bound_lg2` bits, `0` past the maximum. -/
def bufferBoundLg2 (bitBoundLg2 : Nat) : Nat :=
  if bitBoundLg2 ≤ maxBitCountLg2 then
    1 + (1 <<< (if bitBoundLg2 > bitsPerIntLg2 then bitBoundLg2 - bitsPerIntLg2 else 0))
  else 0

/-- `buffer_bound`: the header word, the full bitmap words and a partial last word. -/
def bufferBound (bitBound : Nat) : Nat :=
  if bitBound ≤ maxBitCount then
    1 + (bitBound >>> bitsPerIntLg2) + (if bitBound &&& bitsPerIntMask ≠ 0 then 1 else 0)
  else 0

theorem bufferBound_eq {bitBound : Nat} (h : bitBound ≤ maxBitCount) :
    bufferBound bitBound = 1 + (bitBound + 31) / 32 := by
  simp only [bufferBound, h, if_true, and_bitsPerIntMask, shiftRight_bitsPerIntLg2]
  split <;> omega

/-- Both sizing functions agree on power-of-two bounds. -/
theorem bufferBoundLg2_eq_bufferBound {bitBoundLg2 : Nat} (h : bitBoundLg2 ≤ maxBitCountLg2) :
    bufferBoundLg2 bitBoundLg2 = bufferBound (2 ^ bitBoundLg2) := by
  have hle : 2 ^ bitBoundLg2 ≤ maxBitCount := Nat.pow_le_pow_right (by decide) h
  rw [bufferBound_eq hle, bufferBoundLg2, if_pos h, Nat.shiftLeft_eq, Nat.one_mul]
  split
  · obtain ⟨k, rfl⟩ : ∃ k, bitBoundLg2 = k + 5 := ⟨bitBoundLg2 - 5, by
      simp only [bitsPerIntLg2] at *; omega⟩
    simp only [bitsPerIntLg2, Nat.add_sub_cancel, Nat.pow_add]
    omega
  · have : 2 ^ bitBoundLg2 ≤ 2 ^ 5 :=
      Nat.pow_le_pow_right (by decide) (by simp only [bitsPerIntLg2] at *; omega)
    have : 0 < 2 ^ bitBoundLg2 := Nat.two_pow_pos _
    simp only [Nat.pow_zero]
    omega

/-! ## One-bit masks -/

/-- `1u << (bit & bits_per_int_mask)`: the mask of `bit` inside its word. -/
def bitMask (bit : Nat) : Word := 1#32 <<< (bit &&& bitsPerIntMask)

@[simp]
theorem getLsbD_bitMask (bit i : Nat) : (bitMask bit).getLsbD i = decide (i = bit % 32) := by
  simp only [bitMask, getLsbD_shiftLeft, getLsbD_one, and_bitsPerIntMask]
  by_cases h : i = bit % 32
  · simp [h]; omega
  · simp [h]; omega

/-- The test `prev & mask` reads the bit of `bit` in `prev`. -/
theorem and_bitMask_eq_zero_iff (prev : Word) (bit : Nat) :
    prev &&& bitMask bit = 0#32 ↔ prev.getLsbD (bit % 32) = false := by
  constructor
  · intro h
    simpa using congrArg (fun x : Word => x.getLsbD (bit % 32)) h
  · intro h
    ext i
    by_cases hi : i.val = bit % 32
    · simp [hi, h]
    · simp [hi]

/-! ## Counting trailing ones -/

/-- Scan of at most `n` bits from position `i` for the first zero bit. -/
def countrOneFrom (x : Word) : Nat → Nat → Nat
  | 0, i => i
  | n + 1, i => if x.getLsbD i then countrOneFrom x n (i + 1) else i

/-- Modelled from the spec: `Kokkos::countr_one` (declared in a header that is not among
the sources) is the spec's countTrailingOnes, the number of consecutive one bits from
the least significant bit of a word. -/
def countrOne (x : Word) : Nat := countrOneFrom x 32 0

theorem countrOneFrom_spec (x : Word) (n i : Nat) :
    i ≤ countrOneFrom x n i ∧ countrOneFrom x n i ≤ i + n ∧
      (∀ j, i ≤ j → j < countrOneFrom x n i → x.getLsbD j) ∧
      (countrOneFrom x n i < i + n → x.getLsbD (countrOneFrom x n i) = false) := by
  induction n generalizing i with
  | zero =>
    simp only [countrOneFrom]
    exact ⟨le_rfl, le_rfl, fun j _ _ => by omega, fun _ => by omega⟩
  | succ n ih =>
    obtain ⟨lo, hi, ones, zero⟩ := ih (i + 1)
    cases hb : x.getLsbD i with
    | false =>
      simp only [countrOneFrom, hb, Bool.false_eq_true, if_false]
      exact ⟨le_rfl, by omega, fun j _ _ => by omega, fun _ => trivial⟩
    | true =>
      simp only [countrOneFrom, hb, if_true]
      refine ⟨by omega, by omega, fun j low high => ?_, fun h => zero (by omega)⟩
      rcases Nat.eq_or_lt_of_le low with rfl | low
      · exact hb
      · exact ones j low high

theorem countrOne_le (x : Word) : countrOne x ≤ 32 := by
  simpa using (countrOneFrom_spec x 32 0).2.1

theorem getLsbD_of_lt_countrOne {x : Word} {j : Nat} (h : j < countrOne x) : x.getLsbD j :=
  (countrOneFrom_spec x 32 0).2.2.1 j (Nat.zero_le j) h

theorem getLsbD_countrOne {x : Word} (h : countrOne x < 32) :
    x.getLsbD (countrOne x) = false :=
  (countrOneFrom_spec x 32 0).2.2.2 h

/-- The count stops at the first zero bit. -/
theorem countrOne_le_of_getLsbD_false {x : Word} {i : Nat} (h : x.getLsbD i = false) :
    countrOne x ≤ i :=
  Nat.le_of_not_lt fun hlt => by simp [getLsbD_of_lt_countrOne hlt] at h

theorem countrOne_lt_of_ne_allOnes {x : Word} (h : x ≠ allOnes 32) : countrOne x < 32 := by
  refine Nat.lt_of_le_of_ne (countrOne_le x) fun heq => h ?_
  ext i
  rw [getLsbD_allOnes, getLsbD_of_lt_countrOne (show i.val < countrOne x by omega)]
  simp

theorem countrOne_allOnes : countrOne (allOnes 32) = 32 := by
  refine le_antisymm (countrOne_le _) (Nat.le_of_not_lt fun h => ?_)
  have hzero := getLsbD_countrOne h
  rw [getLsbD_allOnes, decide_eq_false_iff_not] at hzero
  exact hzero h

example : countrOne 0b1011#32 = 2 := by decide

/-! ## The packed header word -/

/-- `state & state_used_mask`: the used count of a header word. -/
def usedCount (state : Word) : Nat := (state &&& stateUsedMask).toNat

/-- A state header the argument checks accept: no bit outside `state_header_mask`. -/
def ValidHeader (stateHeader : Word) : Prop := stateHeader &&& ~~~stateHeaderMask = 0#32

instance (stateHeader : Word) : Decidable (ValidHeader stateHeader) :=
  inferInstanceAs (Decidable (_ = _))

theorem usedCount_eq (state : Word) : usedCount state = state.toNat % 2 ^ 26 := by
  rw [usedCount, toNat_and]
  exact Nat.and_pow_two_sub_one_eq_mod _ 26

theorem toNat_and_stateHeaderMask (state : Word) :
    (state &&& stateHeaderMask).toNat = state.toNat / 2 ^ 26 % 2 ^ 5 * 2 ^ 26 := by
  apply Nat.eq_of_testBit_eq
  intro i
  have hm : stateHeaderMask.toNat = 2 ^ 26 * (2 ^ 5 - 1) := by decide
  rw [toNat_and, hm, Nat.mul_comm _ (2 ^ 26), Nat.testBit_and, Nat.testBit_mul_pow_two,
    Nat.testBit_mul_pow_two, Nat.testBit_mod_two_pow, Nat.testBit_two_pow_sub_one,
    ← Nat.shiftRight_eq_div_pow, Nat.testBit_shiftRight]
  by_cases h : 26 ≤ i
  · simp only [h, Nat.add_sub_cancel' h]
    cases state.toNat.testBit i <;> simp
  · simp [h]

/-- A valid header is its own header bits. -/
theorem and_stateHeaderMask_of_valid {stateHeader : Word} (h : ValidHeader stateHeader) :
    stateHeader &&& stateHeaderMask = stateHeader := by
  ext i
  have bit := congrArg (fun x : Word => x.getLsbD i) h
  simp only [getLsbD_and, getLsbD_not, getLsbD_zero] at bit ⊢
  cases h1 : stateHeader.getLsbD i <;> cases h2 : stateHeaderMask.getLsbD i <;> simp_all

/-- The header word as a number: header bits above a count below `2^26`. -/
theorem toNat_of_valid {stateHeader : Word} (h : ValidHeader stateHeader) :
    stateHeader.toNat = stateHeader.toNat / 2 ^ 26 % 2 ^ 5 * 2 ^ 26 := by
  have bits := toNat_and_stateHeaderMask stateHeader
  rwa [and_stateHeaderMask_of_valid h] at bits

theorem toNat_valid_le {stateHeader : Word} (h : ValidHeader stateHeader) :
    stateHeader.toNat ≤ 31 * 2 ^ 26 := by
  rw [toNat_of_valid h]
  omega

/-- `atomic_fetch_add(buffer, 1)` on a header word that does not wrap. -/
theorem toNat_add_one {state : Word} (h : state.toNat + 1 < 2 ^ 32) :
    (state + 1#32).toNat = state.toNat + 1 := by
  rw [toNat_add, toNat_ofNat]
  omega

/-- `atomic_fetch_sub(buffer, 1)` on a header word that does not wrap. -/
theorem toNat_sub_one {state : Word} (h : 0 < state.toNat) :
    (state - 1#32).toNat = state.toNat - 1 := by
  rw [toNat_sub, toNat_ofNat]
  have := state.isLt
  omega

/-- A header word holding `stateHeader` and an in-flight count `n < 2^31` shows the header
exactly when the count has not reached bit `26`, and shows the count modulo `2^26`. -/
theorem header_add_count {stateHeader : Word} (h : ValidHeader stateHeader) {n : Nat}
    (hn : n < 2 ^ 31) (state : Word) (hs : state.toNat = stateHeader.toNat + n) :
    (stateHeader = state &&& stateHeaderMask ↔ n < 2 ^ 26) ∧ usedCount state = n % 2 ^ 26 := by
  have hv := toNat_of_valid h
  refine ⟨?_, by rw [usedCount_eq, hs]; omega⟩
  rw [BitVec.toNat_eq, toNat_and_stateHeaderMask, hs]
  omega

end Kokkos.ConcurrentBitset
