import Kokkos.ConcurrentBitset.Search

/-!
# Runs of one call at a time

A sequential run starts from the owner's buffer (the state header with a zero count,
a zero bitmap) and performs one call after another with the buffer's header: acquires
of either kind with hints below the bound, and releases of held bits. Between calls the
buffer is `Quiescent`: the count in the header word is the number of set bits, and no
bit at or past the bound is set. Every call keeps that (`SequentialRun.quiescent`). The
acquires with hints `0` to `k - 1` fill the bits below `k` (`sequentialRun_fill`), which
gives the buffers with bits held that the particular runs of this and later modules start
from.

On a quiescent buffer `acquire_bounded_lg2` always returns within
`2 * ceil(2^lg2 / 32) + 2` passes of its loop, with `(-1, -1)` exactly when every bit
is held and otherwise a bit that was clear, together with the new count
(`acquireBoundedLg2_sequential`). `acquire_bounded` does the same for bounds that fill
whole words or stay below one (`acquireBounded_sequential_of_whole_words`).
-/

namespace Kokkos.ConcurrentBitset

open BitVec

/-- The owner's buffer before the first call: the header word holds the state header
and a zero count, and every bitmap word of the `buffer_bound` words is zero. Words past
the buffer are left arbitrary. -/
def Initial (bitBound : Nat) (stateHeader : Word) (mem : Memory) : Prop :=
  mem 0 = stateHeader ∧ ∀ word, 1 ≤ word → word < bufferBound bitBound → mem word = 0#32

/-- The owner's buffer with every word past it zero as well. -/
def zeroMemory (stateHeader : Word) : Memory := fun word => if word = 0 then stateHeader else 0#32

theorem initial_zeroMemory (bitBound : Nat) (stateHeader : Word) :
    Initial bitBound stateHeader (zeroMemory stateHeader) :=
  ⟨rfl, fun word hw _ => by simp [zeroMemory]; omega⟩

/-- The buffer between two calls of a sequential run. -/
structure Quiescent (bitBound : Nat) (stateHeader : Word) (mem : Memory) : Prop where
  count : (mem 0).toNat = stateHeader.toNat + (heldBits mem bitBound).card
  beyond : ∀ i, bitBound ≤ i → i < 32 * ((bitBound + 31) / 32) → bitSet mem i = false

section Quiescent

variable {bitBound : Nat} {stateHeader : Word} {mem : Memory}

/-- The owner's buffer has every bitmap bit clear. -/
theorem Initial.bitSet_eq_false (hB : bitBound ≤ maxBitCount)
    (h : Initial bitBound stateHeader mem) {i : Nat} (hi : i < 32 * ((bitBound + 31) / 32)) :
    bitSet mem i = false := by
  rw [bitSet, h.2 (i / 32 + 1) (by omega) (by rw [bufferBound_eq hB]; omega)]
  simp

theorem quiescent_initial (hB : bitBound ≤ maxBitCount) (h : Initial bitBound stateHeader mem) :
    Quiescent bitBound stateHeader mem := by
  have hzero := fun i (hi : i < 32 * ((bitBound + 31) / 32)) => h.bitSet_eq_false hB hi
  refine ⟨?_, fun i _ hi => hzero i hi⟩
  have : heldBits mem bitBound = ∅ := by
    ext i
    simp only [mem_heldBits, Finset.not_mem_empty, iff_false, not_and]
    intro hi
    simp [hzero i (by omega)]
  simp [this, h.1]

/-- Releasing a held bit: its bit cleared, then the count decremented. -/
theorem Quiescent.release (hq : Quiescent bitBound stateHeader mem) {bit : Nat}
    (hset : bitSet mem bit = true) (hbit : bit < bitBound) :
    Quiescent bitBound stateHeader
      (((fetchAnd mem (bit / 32 + 1) (~~~bitMask bit)).2).write 0 (mem 0 - 1#32)) ∧
      heldBits (((fetchAnd mem (bit / 32 + 1) (~~~bitMask bit)).2).write 0 (mem 0 - 1#32))
        bitBound = (heldBits mem bitBound).erase bit := by
  have hheld : bit ∈ heldBits mem bitBound := by simp [hset, hbit]
  have hpos := Finset.card_pos.mpr ⟨bit, hheld⟩
  refine ⟨⟨?_, fun i hi hi' => ?_⟩, by rw [heldBits_write_zero, heldBits_fetchAnd]⟩
  · rw [heldBits_write_zero, heldBits_fetchAnd, Finset.card_erase_of_mem hheld,
      Memory.write_same, toNat_sub_one (by rw [hq.count]; omega), hq.count]
    omega
  · rw [bitSet_write_zero, bitSet_fetchAnd, hq.beyond i hi hi']
    simp

variable (hH : ValidHeader stateHeader) (hB : bitBound ≤ maxBitCount)
include hH hB

theorem Quiescent.count_lt (hq : Quiescent bitBound stateHeader mem) :
    (mem 0).toNat + 1 < 2 ^ 32 := by
  have := toNat_valid_le hH
  have := card_heldBits_le mem bitBound
  have := hq.count
  rw [maxBitCount_eq] at hB
  omega

/-- The header checks see the buffer's header and the number of held bits. -/
theorem Quiescent.reserve_eq (hq : Quiescent bitBound stateHeader mem) :
    reserve bitBound stateHeader (mem 0) =
      if bitBound ≤ (heldBits mem bitBound).card then .failed false
      else .reserved (heldBits mem bitBound).card := by
  have hcard := card_heldBits_le mem bitBound
  rw [maxBitCount_eq] at hB
  obtain ⟨hheader, hused⟩ := header_add_count hH (n := (heldBits mem bitBound).card)
    (by omega) (mem 0) hq.count
  rw [Nat.mod_eq_of_lt (by omega)] at hused
  have herr : stateHeader = mem 0 &&& stateHeaderMask := hheader.mpr (by omega)
  simp only [reserve, hused, ← herr, bne_self_eq_false, Bool.false_or, decide_eq_true_eq]

theorem Quiescent.usedCount_eq (hq : Quiescent bitBound stateHeader mem) :
    usedCount (mem 0) = (heldBits mem bitBound).card := by
  have hcard := card_heldBits_le mem bitBound
  rw [maxBitCount_eq] at hB
  obtain ⟨-, hused⟩ := header_add_count hH (n := (heldBits mem bitBound).card)
    (by omega) (mem 0) hq.count
  rw [hused, Nat.mod_eq_of_lt (by omega)]

theorem Quiescent.header_eq (hq : Quiescent bitBound stateHeader mem) :
    stateHeaderMask &&& mem 0 = stateHeader := by
  have hcard := card_heldBits_le mem bitBound
  rw [maxBitCount_eq] at hB
  obtain ⟨hheader, -⟩ := header_add_count hH (n := (heldBits mem bitBound).card)
    (by omega) (mem 0) hq.count
  rw [BitVec.and_comm]
  exact (hheader.mpr (by omega)).symm

/-- Claiming a clear bit below the bound after the reserving fetch-add. -/
theorem Quiescent.claim (hq : Quiescent bitBound stateHeader mem) {bit : Nat}
    (hbit : bit < bitBound) (hclear : bitSet mem bit = false) :
    Quiescent bitBound stateHeader
        (fetchOr (mem.write 0 (mem 0 + 1#32)) (bit / 32 + 1) (bitMask bit)).2 ∧
      heldBits (fetchOr (mem.write 0 (mem 0 + 1#32)) (bit / 32 + 1) (bitMask bit)).2 bitBound =
        insert bit (heldBits mem bitBound) := by
  have hheld := heldBits_fetchOr (mem.write 0 (mem 0 + 1#32)) hbit
  rw [heldBits_write_zero] at hheld
  have hnot : bit ∉ heldBits mem bitBound := by simp [hclear]
  refine ⟨⟨?_, fun i hi hi' => ?_⟩, hheld⟩
  · rw [hheld, Finset.card_insert_of_not_mem hnot]
    simp only [fetchOr, Memory.write_other _ _ (show 0 ≠ bit / 32 + 1 by omega),
      Memory.write_same]
    rw [toNat_add_one (hq.count_lt hH hB), hq.count]
    omega
  · rw [bitSet_fetchOr, bitSet_write_zero, hq.beyond i hi hi', Bool.false_or,
      decide_eq_false_iff_not]
    omega

/-- What one acquire does to a quiescent buffer: `(-1, -1)` on a full bitmap, leaving
the buffer as it was, or a clear bit below the bound, now held, with the new number of
held bits. -/
def AcquireOutcome (bitBound : Nat) (mem : Memory) (result : Int × Int) (mem' : Memory) :
    Prop :=
  (result = (-1, -1) ∧ mem' = mem ∧ (heldBits mem bitBound).card = bitBound) ∨
  ∃ claimed : Nat, result = ((claimed : Int), ((heldBits mem' bitBound).card : Int)) ∧
    claimed < bitBound ∧
    bitSet mem claimed = false ∧ heldBits mem' bitBound = insert claimed (heldBits mem bitBound)

/-- An acquire after its argument check, on a quiescent buffer: whatever its search loop
returns keeps the buffer quiescent and is an `AcquireOutcome`. -/
theorem Quiescent.acquire (hq : Quiescent bitBound stateHeader mem)
    {next : Nat → Word → Nat} (hnext : RetriesBelow bitBound next) {fuel hint : Nat}
    (hhint : hint < bitBound) {result : Int × Int} {mem' : Memory}
    (h : (match reserve bitBound stateHeader (mem 0) with
      | .failed stateError => some (failedResult stateError, mem)
      | .reserved stateBitUsed =>
        (searchLoop next fuel (mem.write 0 (mem 0 + 1#32)) hint).map
          (claimedResult stateBitUsed)) = some (result, mem')) :
    Quiescent bitBound stateHeader mem' ∧ AcquireOutcome bitBound mem result mem' := by
  rw [hq.reserve_eq hH hB] at h
  have hcard := card_heldBits_le mem bitBound
  by_cases hfull : bitBound ≤ (heldBits mem bitBound).card
  · rw [if_pos hfull] at h
    obtain ⟨rfl, rfl⟩ : failedResult false = result ∧ mem = mem' := by simpa using h
    exact ⟨hq, .inl ⟨rfl, rfl, by omega⟩⟩
  · rw [if_neg hfull] at h
    obtain ⟨⟨claimed, found⟩, hloop, hresult⟩ := Option.map_eq_some'.mp h
    obtain ⟨rfl, rfl⟩ : ((claimed : Int), ((heldBits mem bitBound).card + 1 : Int)) = result ∧
        found = mem' := by simpa [claimedResult] using hresult
    obtain ⟨hclear, rfl⟩ := searchLoop_eq_some hloop
    rw [bitSet_write_zero] at hclear
    obtain ⟨i, hi, hfree⟩ := exists_clear_of_card_lt (Nat.lt_of_not_le hfull)
    have hlt : claimed < bitBound := searchLoop_claimed_of_retry (· < bitBound) hhint
      (fun c hc _ => hnext c _ hc fun hsmall => by
        rw [show c / 32 + 1 = 1 by omega]
        exact countrOne_lt_of_clear hsmall hi (by rwa [bitSet_write_zero])) hloop
    obtain ⟨hq', hheld⟩ := hq.claim hH hB hlt hclear
    refine ⟨hq', .inr ⟨claimed, ?_, hlt, hclear, hheld⟩⟩
    rw [hheld, Finset.card_insert_of_not_mem (by simp [hclear])]
    simp

omit hH hB in
/-- The result pair tells a full bitmap apart. -/
theorem AcquireOutcome.eq_full_iff {result : Int × Int} {mem' : Memory}
    (h : AcquireOutcome bitBound mem result mem') :
    result = (-1, -1) ↔ ∀ i < bitBound, bitSet mem i = true := by
  rcases h with ⟨rfl, -, hfull⟩ | ⟨claimed, rfl, hlt, hclear, -⟩
  · exact ⟨fun _ => (heldBits_card_eq_iff mem bitBound).mp hfull, fun _ => rfl⟩
  · refine ⟨fun h => absurd (congrArg Prod.fst h) (by simp), fun hall => ?_⟩
    simp [hall claimed hlt] at hclear

/-- On a quiescent buffer a search that `Scans` returns within one pass per word plus one,
from any hint below the bound. -/
theorem Quiescent.acquire_returns (hq : Quiescent bitBound stateHeader mem)
    {next : Nat → Word → Nat} (hscan : Scans bitBound next)
    (hshape : bitBound % 32 = 0 ∨ bitBound < 32) {fuel hint : Nat} (hhint : hint < bitBound)
    (hfuel : (bitBound + 31) / 32 + 1 ≤ fuel) :
    ∃ result mem', (match reserve bitBound stateHeader (mem 0) with
      | .failed stateError => some (failedResult stateError, mem)
      | .reserved stateBitUsed =>
        (searchLoop next fuel (mem.write 0 (mem 0 + 1#32)) hint).map
          (claimedResult stateBitUsed)) = some (result, mem') := by
  rw [hq.reserve_eq hH hB]
  by_cases hfull : bitBound ≤ (heldBits mem bitBound).card
  · rw [if_pos hfull]
    exact ⟨_, _, rfl⟩
  · rw [if_neg hfull]
    obtain ⟨i, hi, hclear⟩ := exists_clear_of_card_lt (Nat.lt_of_not_le hfull)
    have hfree : ∃ j < bitBound, bitSet (mem.write 0 (mem 0 + 1#32)) j = false :=
      ⟨i, hi, by rwa [bitSet_write_zero]⟩
    obtain ⟨claimed, hloop, -⟩ := searchLoop_claims hscan hshape hfree hhint hfuel
    exact ⟨_, _, by rw [hloop]; rfl⟩

end Quiescent

/-! ## Sequential runs -/

/-- One call of a sequential run, with the buffer's header: an acquire of either kind
with a hint below the bound (returning after any number of passes), or a release of a
held bit. -/
inductive SequentialCall (bitBound : Nat) (stateHeader : Word) : Memory → Memory → Prop
  | acquireLg2 {mem mem' : Memory} (fuel bitBoundLg2 hint : Nat) (result : Int × Int) :
      2 ^ bitBoundLg2 = bitBound → hint < bitBound →
      acquireBoundedLg2 fuel mem bitBoundLg2 hint stateHeader = some (result, mem') →
      SequentialCall bitBound stateHeader mem mem'
  | acquire {mem mem' : Memory} (fuel hint : Nat) (result : Int × Int) :
      hint < bitBound →
      acquireBounded fuel mem bitBound hint stateHeader = some (result, mem') →
      SequentialCall bitBound stateHeader mem mem'
  | release {mem mem' : Memory} (bit : Nat) (result : Int) :
      bit < bitBound → bitSet mem bit = true → release mem bit stateHeader = (result, mem') →
      SequentialCall bitBound stateHeader mem mem'

/-- The buffers a sequential run reaches from the owner's buffer. -/
inductive SequentialRun (bitBound : Nat) (stateHeader : Word) : Memory → Prop
  | initial {mem : Memory} : Initial bitBound stateHeader mem →
      SequentialRun bitBound stateHeader mem
  | call {mem mem' : Memory} : SequentialRun bitBound stateHeader mem →
      SequentialCall bitBound stateHeader mem mem' → SequentialRun bitBound stateHeader mem'

section Runs

variable {bitBound : Nat} {stateHeader : Word} (hH : ValidHeader stateHeader)
  (hB : bitBound ≤ maxBitCount)
include hH hB

theorem Quiescent.call {mem mem' : Memory} (hq : Quiescent bitBound stateHeader mem)
    (hcall : SequentialCall bitBound stateHeader mem mem') :
    Quiescent bitBound stateHeader mem' := by
  cases hcall with
  | acquireLg2 fuel bitBoundLg2 hint result hpow hhint h =>
    subst hpow
    rw [acquireBoundedLg2_eq] at h
    split at h
    · cases h
      exact hq
    · exact (hq.acquire hH hB (retriesBelow_nextBitLg2 bitBoundLg2) hhint h).1
  | acquire fuel hint result hhint h =>
    rw [acquireBounded_eq] at h
    split at h
    · cases h
      exact hq
    · exact (hq.acquire hH hB (retriesBelow_nextBitBounded bitBound) hhint h).1
  | release bit result hbit hset h =>
    rw [release_eq, if_neg (by rw [hq.header_eq hH hB]; exact not_not.mpr rfl), if_pos hset] at h
    cases h
    exact (hq.release hset hbit).1

/-- Every buffer a sequential run reaches is quiescent. -/
theorem SequentialRun.quiescent {mem : Memory} (hrun : SequentialRun bitBound stateHeader mem) :
    Quiescent bitBound stateHeader mem := by
  induction hrun with
  | initial h => exact quiescent_initial hB h
  | call _ hcall ih => exact ih.call hH hB hcall

end Runs

/-! ## Filling a buffer -/

section Fill

variable {bitBound : Nat} {stateHeader : Word} (hH : ValidHeader stateHeader)
  (hB : bitBound ≤ maxBitCount)
include hH hB

/-- A sequential run of `acquire_bounded` calls with hints `0, 1, ..., k - 1` holds exactly
the bits below `k`. -/
theorem sequentialRun_fill (k : Nat) (hk : k ≤ bitBound) :
    ∃ mem, SequentialRun bitBound stateHeader mem ∧ heldBits mem bitBound = Finset.range k := by
  induction k with
  | zero =>
    have hinit := initial_zeroMemory bitBound stateHeader
    refine ⟨_, .initial hinit, ?_⟩
    have := (quiescent_initial hB hinit).count
    rw [show zeroMemory stateHeader 0 = stateHeader from rfl] at this
    exact Finset.card_eq_zero.mp (by omega)
  | succ k ih =>
    obtain ⟨mem, hrun, hheld⟩ := ih (by omega)
    have hq := hrun.quiescent hH hB
    have hclear : bitSet mem k = false := by
      simpa [hheld, show k < bitBound by omega] using
        (@mem_heldBits mem bitBound k).not
    obtain ⟨hq', hheld'⟩ := hq.claim hH hB (show k < bitBound by omega) hclear
    refine ⟨(fetchOr (mem.write 0 (mem 0 + 1#32)) (k / 32 + 1) (bitMask k)).2,
      .call hrun (.acquire 1 k ((k : Int), (k + 1 : Int)) (by omega) ?_), ?_⟩
    · rw [acquireBounded_eq, if_neg (Bool.eq_false_iff.mp
        (acquireBoundedRejects_eq_false hB hH (by omega))), hq.reserve_eq hH hB, hheld,
        Finset.card_range, if_neg (by omega)]
      simp [searchLoop_succ, hclear, claimedResult]
    · rw [hheld', hheld, Finset.range_succ]

end Fill

/-- Below the bound, the bits a filled buffer holds are those below `k`. -/
theorem bitSet_iff_of_heldBits_eq_range {mem : Memory} {bitBound k i : Nat}
    (h : heldBits mem bitBound = Finset.range k) (hi : i < bitBound) :
    bitSet mem i = true ↔ i < k := by
  rw [← Finset.mem_range, ← h, mem_heldBits]
  exact (and_iff_right hi).symm

/-! ## Acquire in a sequential run -/

/-- `acquire_bounded_lg2` in a sequential run on a power-of-two bound of at most `2^25`
bits: it leaves its loop within `2 * ceil(2^lg2 / 32) + 2` passes, returns `(-1, -1)`
exactly when every bit below the bound is held, and otherwise returns a bit below the
bound that was clear and is held afterwards, with the new number of held bits. -/
theorem acquireBoundedLg2_sequential {bitBoundLg2 : Nat} (hlg2 : bitBoundLg2 ≤ maxBitCountLg2)
    {stateHeader : Word} (hH : ValidHeader stateHeader) {mem : Memory}
    (hrun : SequentialRun (2 ^ bitBoundLg2) stateHeader mem) {hint : Nat}
    (hhint : hint < 2 ^ bitBoundLg2) :
    ∃ result mem', acquireBoundedLg2 (2 * ((2 ^ bitBoundLg2 + 31) / 32) + 2) mem bitBoundLg2 hint
        stateHeader = some (result, mem') ∧
      (result = (-1, -1) ↔ ∀ i < 2 ^ bitBoundLg2, bitSet mem i = true) ∧
      AcquireOutcome (2 ^ bitBoundLg2) mem result mem' := by
  have hB : 2 ^ bitBoundLg2 ≤ maxBitCount := Nat.pow_le_pow_right (by decide) hlg2
  have hq := hrun.quiescent hH hB
  obtain ⟨result, mem', h⟩ := hq.acquire_returns hH hB (scans_nextBitLg2 _) (pow_shape _) hhint
    (show (2 ^ bitBoundLg2 + 31) / 32 + 1 ≤ 2 * ((2 ^ bitBoundLg2 + 31) / 32) + 2 by omega)
  have hout := (hq.acquire hH hB (retriesBelow_nextBitLg2 bitBoundLg2) hhint h).2
  exact ⟨result, mem', by
    rw [acquireBoundedLg2_eq, if_neg (Bool.eq_false_iff.mp
      (acquireBoundedLg2Rejects_eq_false hlg2 hH hhint.le))]
    exact h,
    hout.eq_full_iff, hout⟩

/-- On a 64-bit bound whose bits a sequential run has all claimed, `acquire_bounded_lg2`
from hint `0` walks both full words and answers `(-1, -1)`. -/
theorem acquireBoundedLg2_sequential_full :
    6 ≤ maxBitCountLg2 ∧ ValidHeader 0#32 ∧ 0 < 2 ^ 6 ∧
      ∃ mem, SequentialRun (2 ^ 6) 0#32 mem ∧ heldBits mem (2 ^ 6) = Finset.range (2 ^ 6) ∧
        ∃ result mem', acquireBoundedLg2 (2 * ((2 ^ 6 + 31) / 32) + 2) mem 6 0 0#32 =
            some (result, mem') ∧ result = (-1, -1) ∧
          (result = (-1, -1) ↔ ∀ i < 2 ^ 6, bitSet mem i = true) ∧
          AcquireOutcome (2 ^ 6) mem result mem' := by
  obtain ⟨mem, hrun, hheld⟩ := @sequentialRun_fill (2 ^ 6) 0#32 (by decide) (by decide) (2 ^ 6) le_rfl
  obtain ⟨result, mem', h, hfull, hout⟩ :=
    acquireBoundedLg2_sequential (by decide) (by decide) hrun (show 0 < 2 ^ 6 by decide)
  exact ⟨by decide, by decide, by decide, mem, hrun, hheld, result, mem', h,
    hfull.mpr fun i hi => (bitSet_iff_of_heldBits_eq_range hheld hi).mpr hi, hfull, hout⟩

/-- On a quiescent buffer of whole words or of less than one, `acquire_bounded` returns
within one pass per word plus one, and what it returns is an `AcquireOutcome`. -/
theorem Quiescent.acquireBounded_outcome {bitBound : Nat} (hB : bitBound ≤ maxBitCount)
    (hshape : bitBound % 32 = 0 ∨ bitBound < 32) {stateHeader : Word}
    (hH : ValidHeader stateHeader) {mem : Memory} (hq : Quiescent bitBound stateHeader mem)
    {fuel hint : Nat} (hhint : hint < bitBound) (hfuel : (bitBound + 31) / 32 + 1 ≤ fuel) :
    ∃ result mem', acquireBounded fuel mem bitBound hint stateHeader = some (result, mem') ∧
      AcquireOutcome bitBound mem result mem' := by
  obtain ⟨result, mem', h⟩ :=
    hq.acquire_returns hH hB (scans_nextBitBounded _) hshape hhint hfuel
  refine ⟨result, mem', ?_, (hq.acquire hH hB (retriesBelow_nextBitBounded bitBound) hhint h).2⟩
  rw [acquireBounded_eq,
    if_neg (Bool.eq_false_iff.mp (acquireBoundedRejects_eq_false hB hH hhint))]
  exact h

/-- `acquire_bounded` in a sequential run behaves as `acquire_bounded_lg2` does, for every
bound of at most `2^25` bits that fills whole words or stays below one word. -/
theorem acquireBounded_sequential_of_whole_words {bitBound : Nat} (hB : bitBound ≤ maxBitCount)
    (hshape : bitBound % 32 = 0 ∨ bitBound < 32) {stateHeader : Word}
    (hH : ValidHeader stateHeader) {mem : Memory} (hrun : SequentialRun bitBound stateHeader mem)
    {hint : Nat} (hhint : hint < bitBound) :
    ∃ result mem', acquireBounded (2 * ((bitBound + 31) / 32) + 2) mem bitBound hint
        stateHeader = some (result, mem') ∧
      (result = (-1, -1) ↔ ∀ i < bitBound, bitSet mem i = true) ∧
      AcquireOutcome bitBound mem result mem' := by
  obtain ⟨result, mem', h, hout⟩ :=
    (hrun.quiescent hH hB).acquireBounded_outcome hB hshape hH hhint
      (show (bitBound + 31) / 32 + 1 ≤ 2 * ((bitBound + 31) / 32) + 2 by omega)
  exact ⟨result, mem', h, hout.eq_full_iff, hout⟩

/-- On a 64-bit bound whose bits `0` to `39` a sequential run has claimed, `acquire_bounded`
from hint `0` leaves the full first word and claims a bit. -/
theorem acquireBounded_sequential_forty_held :
    64 ≤ maxBitCount ∧ (64 % 32 = 0 ∨ 64 < 32) ∧ ValidHeader 0#32 ∧ 0 < 64 ∧
      ∃ mem, SequentialRun 64 0#32 mem ∧ heldBits mem 64 = Finset.range 40 ∧
        ∃ result mem', acquireBounded (2 * ((64 + 31) / 32) + 2) mem 64 0 0#32 =
            some (result, mem') ∧ result ≠ (-1, -1) ∧
          (result = (-1, -1) ↔ ∀ i < 64, bitSet mem i = true) ∧
          AcquireOutcome 64 mem result mem' := by
  obtain ⟨mem, hrun, hheld⟩ := @sequentialRun_fill 64 0#32 (by decide) (by decide) 40 (by decide)
  obtain ⟨result, mem', h, hfull, hout⟩ :=
    acquireBounded_sequential_of_whole_words (by decide) (by decide) (by decide) hrun
      (show 0 < 64 by decide)
  refine ⟨by decide, by decide, by decide, by decide, mem, hrun, hheld, result, mem', h,
    fun hres => ?_, hfull, hout⟩
  have h40 := (bitSet_iff_of_heldBits_eq_range hheld (show 40 < 64 by decide)).mp
    (hfull.mp hres 40 (by decide))
  omega

end Kokkos.ConcurrentBitset
