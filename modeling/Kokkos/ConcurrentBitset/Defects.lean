import Kokkos.ConcurrentBitset.Sequential

/-!
# Where the operations miss their contracts

Three behaviours of the source that its own comments and sibling code say otherwise:

* `acquire_bounded` moves on from a full word with `(word + 1) < word_count`, where
  `word_count = bit_bound >> 5` counts only the full words. From a full word it never
  reaches a partial last word, so once the full words are held an acquire whose hint lies
  in them spins forever, although the reservation promised a clear bit.
* `acquire_bounded_lg2` rejects a hint only when `bit_bound < bit`, while its doc comment
  (and `acquire_bounded`'s check `bit_bound <= bit`) reject `bit_bound <= bit`. The hint
  `2^lg2` gets through and is claimed.
* `set` reuses the body of `release`: it returns `-1` when the bit *was clear* (after
  setting it, without counting it) and decrements the count when the bit was already set.
  The count it leaves behind is one short: a later acquire can pass its reservation with
  no bit free (`acquireBounded_after_set`), and a later `release` of the bit on an empty
  buffer takes the count below zero, into the header bits (`Quiescent.release_after_set`).
-/

namespace Kokkos.ConcurrentBitset

open BitVec

/-- The bit at position `j` of the word `word` of the bitmap. -/
theorem bitSet_word (mem : Memory) {word j : Nat} (hj : j < 32) :
    bitSet mem (word * 32 + j) = (mem (word + 1)).getLsbD j := by
  rw [bitSet, show (word * 32 + j) / 32 = word by omega, show (word * 32 + j) % 32 = j by omega]

/-- A word whose 32 bits are all held is all ones. -/
theorem eq_allOnes_of_bitSet {mem : Memory} {word : Nat}
    (h : ∀ j < 32, bitSet mem (word * 32 + j) = true) : mem (word + 1) = allOnes 32 := by
  ext j
  rw [getLsbD_allOnes, ← bitSet_word mem j.isLt, h j j.isLt]
  simp

/-! ## `acquire_bounded` and a partial last word -/

/-- From a hint in the full words of a bitmap whose full words are all set, the search
loop of `acquire_bounded` only visits the full words: from a full word it moves to the
next full word or wraps to word `0`, and never claims. -/
theorem searchLoop_trapped_in_full_words {bitBound : Nat} {mem : Memory} (w : Word)
    (hset : ∀ c < bitBound / 32 * 32, bitSet mem c = true) {hint : Nat}
    (hhint : hint < bitBound / 32 * 32) (fuel : Nat) :
    searchLoop (nextBitBounded bitBound (bitBound / 32)) fuel (mem.write 0 w) hint = none := by
  refine searchLoop_eq_none_of_trapped (· < bitBound / 32 * 32) hhint (fun c hc => ?_) fuel
  have hfull : (mem.write 0 w) (c / 32 + 1) = allOnes 32 := by
    rw [Memory.write_other _ _ (by omega)]
    exact eq_allOnes_of_bitSet fun j hj => hset _ (by omega)
  refine ⟨by rw [bitSet_write_zero]; exact hset c hc, ?_⟩
  rw [hfull, nextBitBounded_allOnes]
  split <;> omega

/-- With a partial last word, a sequential run can hold every bit of the full words and
leave the partial word clear; from there `acquire_bounded` with any hint in the full words
passes its reservation and never leaves its loop, whatever the number of passes. -/
theorem acquireBounded_spins_of_partial_word {bitBound : Nat} (hB : bitBound ≤ maxBitCount)
    (hrem : bitBound % 32 ≠ 0) {stateHeader : Word} (hH : ValidHeader stateHeader) :
    ∃ mem, SequentialRun bitBound stateHeader mem ∧
      heldBits mem bitBound = Finset.range (bitBound / 32 * 32) ∧
      ∀ hint < bitBound / 32 * 32, ∀ fuel,
        acquireBounded fuel mem bitBound hint stateHeader = none := by
  obtain ⟨mem, hrun, hheld⟩ := sequentialRun_fill hH hB (bitBound / 32 * 32) (by omega)
  have hq := hrun.quiescent hH hB
  refine ⟨mem, hrun, hheld, fun hint hhint fuel => ?_⟩
  have hset : ∀ c < bitBound / 32 * 32, bitSet mem c = true := fun c hc => by
    have : c ∈ heldBits mem bitBound := by rw [hheld]; exact Finset.mem_range.mpr hc
    exact (mem_heldBits.mp this).2
  rw [acquireBounded_eq, if_neg (Bool.eq_false_iff.mp
    (acquireBoundedRejects_eq_false hB hH (by omega))), hq.reserve_eq hH hB, hheld,
    Finset.card_range, if_neg (by omega)]
  simp only
  rw [searchLoop_trapped_in_full_words _ hset hhint]
  rfl

/-- The smallest case: a bound of 33 bits, after 32 acquires with hints `0, ..., 31`,
holds bits `0..31` with bit `32` clear, and `acquire_bounded(buffer, 33, 0, 0)` spins. -/
theorem acquireBounded_spins_at_33 :
    ∃ mem, SequentialRun 33 0#32 mem ∧ bitSet mem 32 = false ∧
      ∀ fuel, acquireBounded fuel mem 33 0 0#32 = none := by
  obtain ⟨mem, hrun, hheld, hspin⟩ :=
    @acquireBounded_spins_of_partial_word 33 (by decide) (by decide) 0#32 (by decide)
  refine ⟨mem, hrun, ?_, hspin 0 (by decide)⟩
  have : 32 ∉ heldBits mem 33 := by rw [hheld]; simp
  simpa using this

/-! ## The hint `2^lg2` of `acquire_bounded_lg2` -/

/-- `acquire_bounded_lg2` accepts the hint `2^lg2` for every `lg2 ≤ 25` and, on the owner's
buffer, claims bit `2^lg2` itself: it sets bit `0` of word `2^lg2 / 32 + 1` and returns
`(2^lg2, 1)`. -/
theorem acquireBoundedLg2_claims_bound {bitBoundLg2 : Nat} (hlg2 : bitBoundLg2 ≤ maxBitCountLg2)
    {stateHeader : Word} (hH : ValidHeader stateHeader) :
    acquireBoundedLg2Rejects bitBoundLg2 (2 ^ bitBoundLg2) stateHeader = false ∧
      acquireBoundedLg2 1 (zeroMemory stateHeader) bitBoundLg2 (2 ^ bitBoundLg2) stateHeader =
        some ((((2 ^ bitBoundLg2 : Nat) : Int), 1),
          (fetchOr ((zeroMemory stateHeader).write 0 (stateHeader + 1#32))
            (2 ^ bitBoundLg2 / 32 + 1) (bitMask (2 ^ bitBoundLg2))).2) := by
  have hB : 2 ^ bitBoundLg2 ≤ maxBitCount := Nat.pow_le_pow_right (by decide) hlg2
  have hq := quiescent_initial hB (initial_zeroMemory (2 ^ bitBoundLg2) stateHeader)
  have hcheck := acquireBoundedLg2Rejects_eq_false hlg2 hH (le_refl (2 ^ bitBoundLg2))
  have hcard : (heldBits (zeroMemory stateHeader) (2 ^ bitBoundLg2)).card = 0 := by
    have := hq.count
    rw [show zeroMemory stateHeader 0 = stateHeader from rfl] at this
    omega
  have hclear : bitSet ((zeroMemory stateHeader).write 0 (stateHeader + 1#32)) (2 ^ bitBoundLg2) =
      false := by
    simp [bitSet, zeroMemory]
  refine ⟨hcheck, ?_⟩
  rw [acquireBoundedLg2_eq, if_neg (Bool.eq_false_iff.mp hcheck), hq.reserve_eq hH hB, hcard,
    if_neg (by simp [Nat.two_pow_pos])]
  simp [searchLoop_succ, hclear, claimedResult, zeroMemory]

/-- With `lg2 = 5` the claimed bit is `32`, outside the bound, and the write lands in
word `2`, the first word past the `buffer_bound_lg2(5) = 2` words of the buffer. -/
theorem acquireBoundedLg2_writes_past_buffer :
    bufferBoundLg2 5 = 2 ∧
      ∃ mem', acquireBoundedLg2 1 (zeroMemory 0#32) 5 32 0#32 = some ((32, 1), mem') ∧
        mem' 2 = 1#32 := by
  refine ⟨by decide, _, (@acquireBoundedLg2_claims_bound 5 (by decide) 0#32
    (by decide)).2, ?_⟩
  decide

/-! ## `set` -/

/-- `set` on a clear bit of a quiescent buffer sets the bit but returns `-1` and leaves
the header word alone, so the count falls one short of the held bits. -/
theorem Quiescent.set_clear {bitBound : Nat} {stateHeader : Word} {mem : Memory}
    (hH : ValidHeader stateHeader) (hB : bitBound ≤ maxBitCount)
    (hq : Quiescent bitBound stateHeader mem) {bit : Nat} (hbit : bit < bitBound)
    (hclear : bitSet mem bit = false) :
    set mem bit stateHeader = (-1, (fetchOr mem (bit / 32 + 1) (bitMask bit)).2) ∧
      usedCount ((fetchOr mem (bit / 32 + 1) (bitMask bit)).2 0) + 1 =
        (heldBits (fetchOr mem (bit / 32 + 1) (bitMask bit)).2 bitBound).card := by
  refine ⟨?_, ?_⟩
  · rw [set_eq, if_neg (by rw [hq.header_eq hH hB]; exact not_not.mpr rfl), hclear]
    rfl
  · rw [heldBits_fetchOr mem hbit, Finset.card_insert_of_not_mem (by simp [hclear])]
    simp only [fetchOr, Memory.write_other _ _ (show 0 ≠ bit / 32 + 1 by omega)]
    rw [hq.usedCount_eq hH hB]

/-- `set(buffer, 0, 0)` on the owner's buffer of a bound of one bit: bit `0` becomes set,
the call returns `-1`, and the count stays `0`. -/
theorem set_clear_bit_of_zero_buffer :
    (set (zeroMemory 0#32) 0 0#32).1 = -1 ∧ bitSet (set (zeroMemory 0#32) 0 0#32).2 0 = true ∧
      usedCount ((set (zeroMemory 0#32) 0 0#32).2 0) = 0 := by
  decide

/-- Taking one from a header word with a zero count borrows from the header bits. -/
theorem and_stateHeaderMask_sub_one {stateHeader : Word} (hH : ValidHeader stateHeader) :
    stateHeaderMask &&& (stateHeader - 1#32) ≠ stateHeader := fun heq => by
  have hv := toNat_of_valid hH
  have hle := toNat_valid_le hH
  have hsub : (stateHeader - 1#32).toNat = (stateHeader.toNat + 2 ^ 32 - 1) % 2 ^ 32 := by
    rw [BitVec.toNat_sub]
    simp only [BitVec.toNat_ofNat]
    omega
  have htoNat := congrArg BitVec.toNat heq
  rw [BitVec.and_comm, toNat_and_stateHeaderMask, hsub] at htoNat
  omega

/-- `set` then `release` of one bit, on a buffer between the calls of a sequential run with
no bit held: `set` sets the bit without counting it, so `release` finds the count `0`,
returns `-1` ("already released") although it clears the bit, and its fetch-sub borrows
from the header bits. From then on the buffer's own header is refused: every
`acquire_bounded` returns `(-2, -2)`, and every `release` and `set` returns `-2`. -/
theorem Quiescent.release_after_set {bitBound : Nat} {stateHeader : Word} {mem : Memory}
    (hH : ValidHeader stateHeader) (hB : bitBound ≤ maxBitCount)
    (hq : Quiescent bitBound stateHeader mem) (hempty : heldBits mem bitBound = ∅)
    {bit : Nat} (hbit : bit < bitBound) :
    ∃ mem₁ mem₂, set mem bit stateHeader = (-1, mem₁) ∧ bitSet mem₁ bit = true ∧
      ConcurrentBitset.release mem₁ bit stateHeader = (-1, mem₂) ∧
      stateHeaderMask &&& mem₂ 0 ≠ stateHeader ∧
      (∀ fuel hint, hint < bitBound →
        acquireBounded fuel mem₂ bitBound hint stateHeader = some ((-2, -2), mem₂)) ∧
      ∀ b, ConcurrentBitset.release mem₂ b stateHeader = (-2, mem₂) ∧
        set mem₂ b stateHeader = (-2, mem₂) := by
  have hclear : bitSet mem bit = false := by
    simpa [hempty, hbit] using (@mem_heldBits mem bitBound bit).not
  have hzero : mem 0 = stateHeader := BitVec.eq_of_toNat_eq (by
    rw [hq.count, hempty, Finset.card_empty, Nat.add_zero])
  have hheader : stateHeaderMask &&& stateHeader = stateHeader := by
    rw [BitVec.and_comm]
    exact and_stateHeaderMask_of_valid hH
  set mem₁ := (fetchOr mem (bit / 32 + 1) (bitMask bit)).2 with hmem₁
  have h₁ : mem₁ 0 = stateHeader := by
    simp only [hmem₁, fetchOr, Memory.write_other _ _ (show 0 ≠ bit / 32 + 1 by omega), hzero]
  have hmarked : bitSet mem₁ bit = true := by
    rw [hmem₁, bitSet_fetchOr]
    simp
  -- `release` finds the bit set and the count `0`
  have hrel : ConcurrentBitset.release mem₁ bit stateHeader =
      (-1, ((fetchAnd mem₁ (bit / 32 + 1) (~~~bitMask bit)).2).write 0 (stateHeader - 1#32)) := by
    have hcount : usedCount stateHeader = 0 := by
      rw [ConcurrentBitset.usedCount_eq, toNat_of_valid hH]
      omega
    rw [release_eq, if_neg (by rw [h₁, hheader]; exact not_not.mpr rfl), if_pos hmarked, h₁,
      hcount]
    rfl
  set mem₂ := ((fetchAnd mem₁ (bit / 32 + 1) (~~~bitMask bit)).2).write 0 (stateHeader - 1#32)
    with hmem₂
  have hne : stateHeader ≠ stateHeaderMask &&& mem₂ 0 := fun heq => by
    rw [hmem₂, Memory.write_same] at heq
    exact and_stateHeaderMask_sub_one hH heq.symm
  refine ⟨mem₁, mem₂, (hq.set_clear hH hB hbit hclear).1, hmarked, hrel, fun heq => hne heq.symm,
    fun fuel hint hhint => ?_,
    fun b => ⟨by rw [release_eq, if_pos hne], by rw [set_eq, if_pos hne]⟩⟩
  have hfail : reserve bitBound stateHeader (mem₂ 0) = .failed true := by
    have hne' : stateHeader ≠ mem₂ 0 &&& stateHeaderMask := by
      rw [BitVec.and_comm]
      exact hne
    simp [reserve, hne']
  rw [acquireBounded_eq, if_neg (Bool.eq_false_iff.mp
    (acquireBoundedRejects_eq_false hB hH hhint)), hfail]
  rfl

/-- The owner's buffer of one bit with header `0`: after `set` and `release` of bit `0`,
the header word reads `0xFFFFFFFF`, and the buffer refuses its own header. -/
theorem release_after_set_zero_buffer :
    ∃ mem₁ mem₂, set (zeroMemory 0#32) 0 0#32 = (-1, mem₁) ∧ bitSet mem₁ 0 = true ∧
      ConcurrentBitset.release mem₁ 0 0#32 = (-1, mem₂) ∧
      stateHeaderMask &&& mem₂ 0 ≠ 0#32 ∧
      (∀ fuel hint, hint < 1 → acquireBounded fuel mem₂ 1 hint 0#32 = some ((-2, -2), mem₂)) ∧
      ∀ b, ConcurrentBitset.release mem₂ b 0#32 = (-2, mem₂) ∧ set mem₂ b 0#32 = (-2, mem₂) :=
  Quiescent.release_after_set (by decide) (by decide)
    (quiescent_initial (by decide) (initial_zeroMemory 1 0#32)) (by decide) (by decide)

end Kokkos.ConcurrentBitset
