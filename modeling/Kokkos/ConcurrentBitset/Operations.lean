import Kokkos.ConcurrentBitset.Buffer

/-!
# The operations of `concurrent_bitset`

`acquire_bounded_lg2`, `acquire_bounded`, `release` and `set`, each as the function it
computes on the buffer when it runs alone. The two acquires share their reservation
(`reserve`) and the body of their `while (1)` loop (`claimStep`); they differ only in
how the next bit to try is chosen after a lost race (`nextBitLg2`, `nextBitBounded`).
The concurrent model in `Kokkos.ConcurrentBitset.Machine` steps through the same pieces
one atomic at a time.

The search loop has no exit other than a successful claim, so it takes a `fuel` bound
on its iterations and returns `none` when the bound is exhausted; a theorem that a call
returns states the fuel it needs.
-/

namespace Kokkos.ConcurrentBitset

open BitVec

/-! ## Reservation -/

/-- What the reserving `atomic_fetch_add(buffer, 1)` decides: a failure, remembering
`state_error`, or a reservation, remembering `state_bit_used`. -/
inductive Reservation
  | failed (stateError : Bool)
  | reserved (stateBitUsed : Nat)
  deriving DecidableEq, Repr

/-- The header checks on the word `state` returned by the reserving fetch-add. -/
def reserve (bitBound : Nat) (stateHeader state : Word) : Reservation :=
  let stateError := stateHeader != (state &&& stateHeaderMask)
  let stateBitUsed := usedCount state
  if stateError || decide (bitBound ≤ stateBitUsed) then .failed stateError
  else .reserved stateBitUsed

/-- `state_error ? type(-2, -2) : type(-1, -1)`. -/
def failedResult (stateError : Bool) : Int × Int := if stateError then (-2, -2) else (-1, -1)

/-- A reservation succeeds exactly when the header matches and the count is below the
bound. -/
theorem reserve_eq_reserved_iff {bitBound : Nat} {stateHeader state : Word} {used : Nat} :
    reserve bitBound stateHeader state = .reserved used ↔
      stateHeader = state &&& stateHeaderMask ∧ usedCount state < bitBound ∧
        used = usedCount state := by
  simp only [reserve]
  by_cases hh : stateHeader = state &&& stateHeaderMask <;>
    by_cases hu : bitBound ≤ usedCount state <;> simp [hh, hu]
  omega

/-! ## The search loop -/

/-- `j` of the loop: `-1` when the word read is all ones, else `countr_one(prev)`. -/
def firstZero (prev : Word) : Int := if prev = allOnes 32 then -1 else countrOne prev

/-- `((word + 1) < word_count ? ((word + 1) << bits_per_int_lg2) : 0)`: the first bit of
the next full word, wrapping to bit `0` after the last full word. -/
def nextWordStart (wordCount word : Nat) : Nat :=
  if word + 1 < wordCount then (word + 1) <<< bitsPerIntLg2 else 0

/-- The bit `acquire_bounded_lg2` tries after losing `bit`, whose word read `prev`. -/
def nextBitLg2 (wordCount bit : Nat) (prev : Word) : Nat :=
  let word := bit >>> bitsPerIntLg2
  let j := firstZero prev
  if 0 ≤ j then word <<< bitsPerIntLg2 ||| j.toNat
  else nextWordStart wordCount word ||| (bit &&& bitsPerIntMask)

/-- The bit `acquire_bounded` tries after losing `bit`: as `nextBitLg2`, but a first zero
at or past `bit_bound` also moves on to the next word. -/
def nextBitBounded (bitBound wordCount bit : Nat) (prev : Word) : Nat :=
  let word := bit >>> bitsPerIntLg2
  let j := firstZero prev
  let bit := if 0 ≤ j then word <<< bitsPerIntLg2 ||| j.toNat else bit
  if j < 0 ∨ bitBound ≤ bit then nextWordStart wordCount word ||| (bit &&& bitsPerIntMask)
  else bit

/-- Outcome of one pass of the loop body. -/
inductive Claim
  | claimed
  | retry (bit : Nat)
  deriving DecidableEq, Repr

/-- One pass of `while (1)`: `atomic_fetch_or` of the mask of `bit` into its word; the
bit is claimed when it was clear, and otherwise `next` picks the bit to try. -/
def claimStep (next : Nat → Word → Nat) (mem : Memory) (bit : Nat) : Claim × Memory :=
  let word := bit >>> bitsPerIntLg2
  let mask := bitMask bit
  let (prev, mem) := fetchOr mem (word + 1) mask
  if prev &&& mask = 0#32 then (.claimed, mem) else (.retry (next bit prev), mem)

/-- The `while (1)` loop, for at most `fuel` passes. -/
def searchLoop (next : Nat → Word → Nat) : Nat → Memory → Nat → Option (Nat × Memory)
  | 0, _, _ => none
  | fuel + 1, mem, bit =>
    match claimStep next mem bit with
    | (.claimed, mem) => some (bit, mem)
    | (.retry bit, mem) => searchLoop next fuel mem bit

/-- A pass on a clear bit claims it; a pass on a set bit changes nothing and moves on. -/
theorem claimStep_eq (next : Nat → Word → Nat) (mem : Memory) (bit : Nat) :
    claimStep next mem bit =
      if bitSet mem bit then (.retry (next bit (mem (bit / 32 + 1))), mem)
      else (.claimed, (fetchOr mem (bit / 32 + 1) (bitMask bit)).2) := by
  simp only [claimStep, shiftRight_bitsPerIntLg2, and_bitMask_eq_zero_iff]
  cases h : bitSet mem bit <;> simp only [bitSet] at h
  · simp [h, fetchOr]
  · simp [h, fetchOr, or_bitMask_of_getLsbD h]

@[simp]
theorem searchLoop_zero (next : Nat → Word → Nat) (mem : Memory) (bit : Nat) :
    searchLoop next 0 mem bit = none :=
  rfl

theorem searchLoop_succ (next : Nat → Word → Nat) (fuel : Nat) (mem : Memory) (bit : Nat) :
    searchLoop next (fuel + 1) mem bit =
      if bitSet mem bit then searchLoop next fuel mem (next bit (mem (bit / 32 + 1)))
      else some (bit, (fetchOr mem (bit / 32 + 1) (bitMask bit)).2) := by
  rw [searchLoop, claimStep_eq]
  by_cases h : bitSet mem bit <;> simp [h]

/-! ## Acquire -/

/-- `type(bit, state_bit_used + 1)` for the bit the loop claimed, with the buffer. -/
def claimedResult (stateBitUsed : Nat) (claimed : Nat × Memory) : (Int × Int) × Memory :=
  ((claimed.1, stateBitUsed + 1), claimed.2)

/-- The argument check of `acquire_bounded_lg2`. -/
def acquireBoundedLg2Rejects (bitBoundLg2 bit : Nat) (stateHeader : Word) : Bool :=
  maxBitCountLg2 < bitBoundLg2 || stateHeader &&& ~~~stateHeaderMask != 0#32 ||
    1 <<< bitBoundLg2 < bit

/-- The argument check of `acquire_bounded`. -/
def acquireBoundedRejects (bitBound bit : Nat) (stateHeader : Word) : Bool :=
  maxBitCount < bitBound || stateHeader &&& ~~~stateHeaderMask != 0#32 || bitBound ≤ bit

theorem acquireBoundedRejects_eq_false {bitBound bit : Nat} {stateHeader : Word}
    (hB : bitBound ≤ maxBitCount) (hH : ValidHeader stateHeader) (hbit : bit < bitBound) :
    acquireBoundedRejects bitBound bit stateHeader = false := by
  simp only [ValidHeader] at hH
  simp [acquireBoundedRejects, hH, Nat.not_lt.mpr hB, Nat.not_le.mpr hbit]

/-- The check of `acquire_bounded_lg2` lets a hint through up to `2^lg2` itself. -/
theorem acquireBoundedLg2Rejects_eq_false {bitBoundLg2 bit : Nat} {stateHeader : Word}
    (hlg2 : bitBoundLg2 ≤ maxBitCountLg2) (hH : ValidHeader stateHeader)
    (hbit : bit ≤ 2 ^ bitBoundLg2) :
    acquireBoundedLg2Rejects bitBoundLg2 bit stateHeader = false := by
  simp only [ValidHeader] at hH
  simp [acquireBoundedLg2Rejects, Nat.shiftLeft_eq, hH, Nat.not_lt.mpr hlg2, Nat.not_lt.mpr hbit]

/-- `acquire_bounded_lg2(buffer, bit_bound_lg2, bit, state_header)`, with at most `fuel`
passes of its search loop. -/
def acquireBoundedLg2 (fuel : Nat) (mem : Memory) (bitBoundLg2 bit : Nat) (stateHeader : Word) :
    Option ((Int × Int) × Memory) :=
  let bitBound := 1 <<< bitBoundLg2
  let wordCount := bitBound >>> bitsPerIntLg2
  if acquireBoundedLg2Rejects bitBoundLg2 bit stateHeader then some ((-3, -3), mem) else
  let (state, mem) := fetchAdd mem 0 1#32
  match reserve bitBound stateHeader state with
  | .failed stateError => some (failedResult stateError, (fetchSub mem 0 1#32).2)
  | .reserved stateBitUsed =>
    (searchLoop (nextBitLg2 wordCount) fuel mem bit).map (claimedResult stateBitUsed)

/-- `acquire_bounded(buffer, bit_bound, bit, state_header)`, with at most `fuel` passes of
its search loop. -/
def acquireBounded (fuel : Nat) (mem : Memory) (bitBound bit : Nat) (stateHeader : Word) :
    Option ((Int × Int) × Memory) :=
  if acquireBoundedRejects bitBound bit stateHeader then some ((-3, -3), mem) else
  let wordCount := bitBound >>> bitsPerIntLg2
  let (state, mem) := fetchAdd mem 0 1#32
  match reserve bitBound stateHeader state with
  | .failed stateError => some (failedResult stateError, (fetchSub mem 0 1#32).2)
  | .reserved stateBitUsed =>
    (searchLoop (nextBitBounded bitBound wordCount) fuel mem bit).map (claimedResult stateBitUsed)

theorem acquireBoundedLg2_eq (fuel : Nat) (mem : Memory) (bitBoundLg2 bit : Nat)
    (stateHeader : Word) :
    acquireBoundedLg2 fuel mem bitBoundLg2 bit stateHeader =
      if acquireBoundedLg2Rejects bitBoundLg2 bit stateHeader then some ((-3, -3), mem) else
      match reserve (2 ^ bitBoundLg2) stateHeader (mem 0) with
      | .failed stateError => some (failedResult stateError, mem)
      | .reserved stateBitUsed =>
        (searchLoop (nextBitLg2 (2 ^ bitBoundLg2 / 32)) fuel (mem.write 0 (mem 0 + 1#32)) bit).map
          (claimedResult stateBitUsed) := by
  rw [acquireBoundedLg2, Nat.shiftLeft_eq, Nat.one_mul, shiftRight_bitsPerIntLg2]
  split
  · rfl
  · simp only [fetchSub_fetchAdd]
    rfl

theorem acquireBounded_eq (fuel : Nat) (mem : Memory) (bitBound bit : Nat) (stateHeader : Word) :
    acquireBounded fuel mem bitBound bit stateHeader =
      if acquireBoundedRejects bitBound bit stateHeader then some ((-3, -3), mem) else
      match reserve bitBound stateHeader (mem 0) with
      | .failed stateError => some (failedResult stateError, mem)
      | .reserved stateBitUsed =>
        (searchLoop (nextBitBounded bitBound (bitBound / 32)) fuel (mem.write 0 (mem 0 + 1#32))
          bit).map (claimedResult stateBitUsed) := by
  rw [acquireBounded, shiftRight_bitsPerIntLg2]
  split
  · rfl
  · simp only [fetchSub_fetchAdd]
    rfl

/-! ## Release and set -/

/-- `release(buffer, bit, state_header)`. -/
def release (mem : Memory) (bit : Nat) (stateHeader : Word) : Int × Memory :=
  if stateHeader ≠ stateHeaderMask &&& mem 0 then (-2, mem) else
  let mask := bitMask bit
  let (prev, mem) := fetchAnd mem ((bit >>> bitsPerIntLg2) + 1) (~~~mask)
  if prev &&& mask = 0#32 then (-1, mem) else
  let (count, mem) := fetchSub mem 0 1#32
  ((usedCount count : Int) - 1, mem)

/-- `set(buffer, bit, state_header)`. -/
def set (mem : Memory) (bit : Nat) (stateHeader : Word) : Int × Memory :=
  if stateHeader ≠ stateHeaderMask &&& mem 0 then (-2, mem) else
  let mask := bitMask bit
  let (prev, mem) := fetchOr mem ((bit >>> bitsPerIntLg2) + 1) mask
  if prev &&& mask = 0#32 then (-1, mem) else
  let (count, mem) := fetchSub mem 0 1#32
  ((usedCount count : Int) - 1, mem)

theorem release_eq (mem : Memory) (bit : Nat) (stateHeader : Word) :
    release mem bit stateHeader =
      if stateHeader ≠ stateHeaderMask &&& mem 0 then (-2, mem)
      else if bitSet mem bit then
        ((usedCount (mem 0) : Int) - 1,
          ((fetchAnd mem (bit / 32 + 1) (~~~bitMask bit)).2).write 0 (mem 0 - 1#32))
      else (-1, mem) := by
  simp only [release, shiftRight_bitsPerIntLg2, and_bitMask_eq_zero_iff]
  split
  · rfl
  · cases h : bitSet mem bit <;> simp only [bitSet] at h
    · simp [h, fetchAnd, and_not_bitMask_of_getLsbD h]
    · have h0 : bit / 32 + 1 ≠ 0 := Nat.succ_ne_zero _
      simp [h, fetchAnd, fetchSub, Memory.write_other _ _ (Ne.symm h0)]

theorem set_eq (mem : Memory) (bit : Nat) (stateHeader : Word) :
    set mem bit stateHeader =
      if stateHeader ≠ stateHeaderMask &&& mem 0 then (-2, mem)
      else if bitSet mem bit then ((usedCount (mem 0) : Int) - 1, mem.write 0 (mem 0 - 1#32))
      else (-1, (fetchOr mem (bit / 32 + 1) (bitMask bit)).2) := by
  simp only [set, shiftRight_bitsPerIntLg2, and_bitMask_eq_zero_iff]
  split
  · rfl
  · cases h : bitSet mem bit <;> simp only [bitSet] at h
    · simp [h, fetchOr]
    · have h0 : bit / 32 + 1 ≠ 0 := Nat.succ_ne_zero _
      simp [h, fetchOr, fetchSub, or_bitMask_of_getLsbD h, Memory.write_other _ _ (Ne.symm h0)]

end Kokkos.ConcurrentBitset
