import Kokkos.ConcurrentBitset.Sequential

/-!
# What a caller sees between calls

Three facts of the interface, on a buffer between two calls of a sequential run.

A call made with a valid header other than the buffer's fails on the header and leaves no
trace: both acquires return `(-2, -2)` (their reserving fetch-add reads the header bits,
and the undoing fetch-sub puts the count back), and `release` and `set` return `-2`
before touching the buffer (`Quiescent.header_mismatch`).

A bit released twice is released once: the first `release` returns the new count, the
second finds the bit clear and returns `-1` without touching the count
(`Quiescent.release_twice`).

A release undoes the acquire that claimed its bit: the buffer is back word for word, and
`release` returns the count before the acquire (`Quiescent.release_after_acquire`).
-/

namespace Kokkos.ConcurrentBitset

open BitVec

section Contract

variable {bitBound : Nat} {stateHeader : Word} {mem : Memory} (hH : ValidHeader stateHeader)
  (hB : bitBound ≤ maxBitCount)

include hH hB in
/-- A reservation with another header sets `state_error`, whatever the bound. -/
theorem Quiescent.reserve_of_ne (hq : Quiescent bitBound stateHeader mem) {stateHeader' : Word}
    (hne : stateHeader' ≠ stateHeader) (bitBound' : Nat) :
    reserve bitBound' stateHeader' (mem 0) = .failed true := by
  have hheader : mem 0 &&& stateHeaderMask = stateHeader := by
    rw [BitVec.and_comm]
    exact hq.header_eq hH hB
  simp [reserve, hheader, hne]

include hH hB in
/-- Every call with a valid header other than the buffer's returns `-2` and leaves the
buffer unchanged. -/
theorem Quiescent.header_mismatch (hq : Quiescent bitBound stateHeader mem) {stateHeader' : Word}
    (hvalid : ValidHeader stateHeader') (hne : stateHeader' ≠ stateHeader) :
    (∀ fuel hint, hint < bitBound →
      acquireBounded fuel mem bitBound hint stateHeader' = some ((-2, -2), mem)) ∧
    (∀ fuel bitBoundLg2 hint, 2 ^ bitBoundLg2 = bitBound → hint < bitBound →
      acquireBoundedLg2 fuel mem bitBoundLg2 hint stateHeader' = some ((-2, -2), mem)) ∧
    ∀ bit, ConcurrentBitset.release mem bit stateHeader' = (-2, mem) ∧
      set mem bit stateHeader' = (-2, mem) := by
  have hother : stateHeader' ≠ stateHeaderMask &&& mem 0 := by
    rw [hq.header_eq hH hB]
    exact hne
  refine ⟨fun fuel hint hhint => ?_, fun fuel bitBoundLg2 hint hpow hhint => ?_,
    fun bit => ⟨by rw [release_eq, if_pos hother], by rw [set_eq, if_pos hother]⟩⟩
  · rw [acquireBounded_eq, if_neg (Bool.eq_false_iff.mp
      (acquireBoundedRejects_eq_false hB hvalid hhint)), hq.reserve_of_ne hH hB hne]
    rfl
  · have hlg2 : bitBoundLg2 ≤ maxBitCountLg2 := by
      rw [maxBitCount_eq, ← hpow] at hB
      exact (Nat.pow_le_pow_iff_right (by decide)).mp hB
    rw [acquireBoundedLg2_eq, if_neg (Bool.eq_false_iff.mp
      (acquireBoundedLg2Rejects_eq_false hlg2 hvalid (by omega))), hq.reserve_of_ne hH hB hne]
    rfl

/-- The owner's buffer of eight bits with header bits `5`, acquired with header bits `3`:
`(-2, -2)`, and the buffer as it was. -/
theorem header_mismatch_tag_five :
    acquireBounded 6 (zeroMemory (BitVec.ofNat 32 (5 * 2 ^ 26))) 8 0
        (BitVec.ofNat 32 (3 * 2 ^ 26)) =
      some ((-2, -2), zeroMemory (BitVec.ofNat 32 (5 * 2 ^ 26))) :=
  (Quiescent.header_mismatch (by decide) (by decide)
    (quiescent_initial (by decide) (initial_zeroMemory 8 _)) (by decide) (by decide)).1 6 0
    (by decide)

include hH hB in
/-- Releasing a held bit twice: the first `release` returns the new count, the second
returns `-1` and leaves the buffer, its count included, as the first left it. -/
theorem Quiescent.release_twice (hq : Quiescent bitBound stateHeader mem) {bit : Nat}
    (hbit : bit < bitBound) (hset : bitSet mem bit = true) :
    (ConcurrentBitset.release mem bit stateHeader).1 = ((heldBits mem bitBound).card : Int) - 1 ∧
      ConcurrentBitset.release (ConcurrentBitset.release mem bit stateHeader).2 bit stateHeader =
        (-1, (ConcurrentBitset.release mem bit stateHeader).2) := by
  have hheader := hq.header_eq hH hB
  have hfirst : ConcurrentBitset.release mem bit stateHeader = ((usedCount (mem 0) : Int) - 1,
      ((fetchAnd mem (bit / 32 + 1) (~~~bitMask bit)).2).write 0 (mem 0 - 1#32)) := by
    rw [release_eq, if_neg (not_not.mpr hheader.symm), if_pos hset]
  obtain ⟨hq', hheld'⟩ := hq.release hset hbit
  have hclear : bitSet (((fetchAnd mem (bit / 32 + 1) (~~~bitMask bit)).2).write 0
      (mem 0 - 1#32)) bit = false := by
    have hgone : bit ∉ (heldBits mem bitBound).erase bit := Finset.not_mem_erase bit _
    rw [← hheld', mem_heldBits] at hgone
    simpa [hbit] using hgone
  rw [hfirst, hq.usedCount_eq hH hB]
  refine ⟨rfl, ?_⟩
  rw [release_eq, if_neg (not_not.mpr (hq'.header_eq hH hB).symm), if_neg (by simp [hclear])]

/-- Bit `0` of a one-bit bound, claimed on the owner's buffer and then released twice. -/
theorem release_twice_first_bit :
    ∃ mem, Quiescent 1 0#32 mem ∧ bitSet mem 0 = true ∧
      (ConcurrentBitset.release mem 0 0#32).1 = ((heldBits mem 1).card : Int) - 1 ∧
      ConcurrentBitset.release (ConcurrentBitset.release mem 0 0#32).2 0 0#32 =
        (-1, (ConcurrentBitset.release mem 0 0#32).2) := by
  obtain ⟨hq, -⟩ := (quiescent_initial (by decide) (initial_zeroMemory 1 0#32)).claim
    (by decide) (by decide) (show 0 < 1 by decide) (by decide)
  exact ⟨_, hq, by decide,
    Quiescent.release_twice (by decide) (by decide) hq (by decide) (by decide)⟩

include hH hB in
/-- Releasing the bit a claim has just set on a quiescent buffer: `release` returns the
number of bits held before the claim and restores the buffer word for word. -/
theorem Quiescent.release_claim (hq : Quiescent bitBound stateHeader mem) {bit : Nat}
    (hbit : bit < bitBound) (hclear : bitSet mem bit = false) :
    ConcurrentBitset.release
        (fetchOr (mem.write 0 (mem 0 + 1#32)) (bit / 32 + 1) (bitMask bit)).2 bit stateHeader =
      (((heldBits mem bitBound).card : Int), mem) := by
  obtain ⟨hq', hheld'⟩ := hq.claim hH hB hbit hclear
  have hset : bitSet (fetchOr (mem.write 0 (mem 0 + 1#32)) (bit / 32 + 1) (bitMask bit)).2 bit =
      true := by
    rw [bitSet_fetchOr]
    simp
  rw [release_eq, if_neg (not_not.mpr (hq'.header_eq hH hB).symm), if_pos hset,
    hq'.usedCount_eq hH hB, hheld', Finset.card_insert_of_not_mem (by simp [hclear]),
    fetchAnd_fetchOr _ (by rwa [bitSet_write_zero])]
  simp [fetchOr, Memory.write_other _ _ (show 0 ≠ bit / 32 + 1 by omega)]

include hH hB in
/-- An acquire of either kind that claims a bit, then the release of that bit, on a buffer
between two calls of a sequential run: `release` returns one less than the count the
acquire returned, and the buffer is back word for word, its count included, whatever
number of passes the acquire's search took. -/
theorem Quiescent.release_after_acquire (hq : Quiescent bitBound stateHeader mem)
    {fuel hint claimed : Nat} {count : Int} {mem' : Memory} (hhint : hint < bitBound)
    (hacq : acquireBounded fuel mem bitBound hint stateHeader =
        some (((claimed : Int), count), mem') ∨
      ∃ bitBoundLg2, 2 ^ bitBoundLg2 = bitBound ∧
        acquireBoundedLg2 fuel mem bitBoundLg2 hint stateHeader =
          some (((claimed : Int), count), mem')) :
    ConcurrentBitset.release mem' claimed stateHeader = (count - 1, mem) := by
  -- both acquires pass their argument check and run the shared search
  obtain ⟨next, hnext, h⟩ : ∃ next, RetriesBelow bitBound next ∧
      (match reserve bitBound stateHeader (mem 0) with
        | .failed stateError => some (failedResult stateError, mem)
        | .reserved stateBitUsed =>
          (searchLoop next fuel (mem.write 0 (mem 0 + 1#32)) hint).map
            (claimedResult stateBitUsed)) = some (((claimed : Int), count), mem') := by
    rcases hacq with h | ⟨bitBoundLg2, rfl, h⟩
    · rw [acquireBounded_eq] at h
      split at h
      · cases h
      · exact ⟨_, retriesBelow_nextBitBounded _, h⟩
    · rw [acquireBoundedLg2_eq] at h
      split at h
      · cases h
      · exact ⟨_, retriesBelow_nextBitLg2 bitBoundLg2, h⟩
  obtain ⟨-, hout⟩ := hq.acquire hH hB hnext hhint h
  obtain ⟨hlt, hclear⟩ : claimed < bitBound ∧ bitSet mem claimed = false := by
    rcases hout with ⟨hres, -⟩ | ⟨c, hres, hlt, hclear, -⟩
    · cases hres
    · cases hres
      exact ⟨hlt, hclear⟩
  rw [hq.reserve_eq hH hB] at h
  by_cases hfull : bitBound ≤ (heldBits mem bitBound).card
  · rw [if_pos hfull] at h
    cases h
  · rw [if_neg hfull] at h
    obtain ⟨⟨c, found⟩, hloop, hres⟩ := Option.map_eq_some'.mp h
    cases hres
    rw [(searchLoop_eq_some hloop).2, hq.release_claim hH hB hlt hclear]
    simp

/-- On a 64-bit bound whose bits `0` to `39` a sequential run has claimed, the acquire from
hint `0` leaves the full first word and claims a bit; its release returns one less than the
acquire's count and gives the filled buffer back. -/
theorem release_after_acquire_filled :
    ∃ mem, SequentialRun 64 0#32 mem ∧ heldBits mem 64 = Finset.range 40 ∧
      ∃ (claimed : Nat) (count : Int) (mem' : Memory),
        acquireBounded 4 mem 64 0 0#32 = some (((claimed : Int), count), mem') ∧
        ConcurrentBitset.release mem' claimed 0#32 = (count - 1, mem) := by
  obtain ⟨mem, hrun, hheld⟩ := @sequentialRun_fill 64 0#32 (by decide) (by decide) 40 (by decide)
  have hq := hrun.quiescent (by decide) (by decide)
  obtain ⟨result, mem', h, hout⟩ := hq.acquireBounded_outcome (by decide) (by decide) (by decide)
    (show 0 < 64 by decide) (show (64 + 31) / 32 + 1 ≤ 4 by decide)
  rcases hout with ⟨-, -, hfull⟩ | ⟨claimed, rfl, -, -, -⟩
  · rw [hheld, Finset.card_range] at hfull
    omega
  · exact ⟨mem, hrun, hheld, claimed, _, mem', h,
      Quiescent.release_after_acquire (by decide) (by decide) hq (by decide) (.inl h)⟩

end Contract

end Kokkos.ConcurrentBitset
