import Kokkos.ConcurrentBitset.Operations

/-!
# The search loop

After a lost race both acquires move on from the word they read: to its first zero bit
when the word has one, otherwise to the same position in the next word. `Scans` states
that movement once, over the `(bit_bound + 31) / 32` words of the bitmap taken
cyclically; `nextBitLg2` has it for every power-of-two bound, `nextBitBounded` for bounds
that are a multiple of `32` or below `32`. For bounds with a partial last word
`nextBitBounded` wraps after the last *full* word, and `Scans` fails: that is the defect
shown in `Kokkos.ConcurrentBitset.Sequential`.

Two facts about the loop follow. Whatever it claims was clear and is reached from the
start by retries, so any property kept by retries holds of it
(`searchLoop_claimed_of_retry`). And from a bitmap with a clear bit below the bound,
`Scans` makes it claim one within one pass per word plus one (`searchLoop_claims`).

On a bound of whole words the two acquires are one function: the first zero of a word
below the bound is below the bound, so `acquire_bounded`'s extra check never fires, and
its argument check agrees with `acquire_bounded_lg2`'s below the bound
(`acquireBoundedLg2_eq_acquireBounded`).
-/

namespace Kokkos.ConcurrentBitset

open BitVec

/-! ## Where a lost race moves the search -/

theorem firstZero_allOnes : firstZero (allOnes 32) = -1 := if_pos rfl

theorem firstZero_of_ne {prev : Word} (h : prev ≠ allOnes 32) :
    firstZero prev = countrOne prev :=
  if_neg h

theorem nextWordStart_or (wordCount word offset : Nat) (h : offset < 32) :
    nextWordStart wordCount word ||| offset =
      (if word + 1 < wordCount then (word + 1) * 32 else 0) + offset := by
  unfold nextWordStart
  split
  · exact shiftLeft_or_eq_add _ _ h
  · simp

theorem nextBitLg2_allOnes (wordCount bit : Nat) :
    nextBitLg2 wordCount bit (allOnes 32) =
      (if bit / 32 + 1 < wordCount then (bit / 32 + 1) * 32 else 0) + bit % 32 := by
  simp only [nextBitLg2, firstZero_allOnes, and_bitsPerIntMask, shiftRight_bitsPerIntLg2]
  exact nextWordStart_or _ _ _ (Nat.mod_lt _ (by decide))

theorem nextBitLg2_of_ne {prev : Word} (h : prev ≠ allOnes 32) (wordCount bit : Nat) :
    nextBitLg2 wordCount bit prev = bit / 32 * 32 + countrOne prev := by
  simp only [nextBitLg2, firstZero_of_ne h, shiftRight_bitsPerIntLg2, Int.toNat_ofNat,
    Int.ofNat_nonneg, if_true]
  exact shiftLeft_or_eq_add _ _ (countrOne_lt_of_ne_allOnes h)

theorem nextBitBounded_allOnes (bitBound wordCount bit : Nat) :
    nextBitBounded bitBound wordCount bit (allOnes 32) =
      (if bit / 32 + 1 < wordCount then (bit / 32 + 1) * 32 else 0) + bit % 32 := by
  simp only [nextBitBounded, firstZero_allOnes, and_bitsPerIntMask, shiftRight_bitsPerIntLg2]
  simp only [Int.reduceNeg, Int.reduceLT, true_or, if_true]
  have : ¬((0 : Int) ≤ -1) := by decide
  rw [if_neg this]
  exact nextWordStart_or _ _ _ (Nat.mod_lt _ (by decide))

theorem nextBitBounded_of_ne {prev : Word} (h : prev ≠ allOnes 32)
    (bitBound wordCount bit : Nat) :
    nextBitBounded bitBound wordCount bit prev =
      if bit / 32 * 32 + countrOne prev < bitBound then bit / 32 * 32 + countrOne prev
      else (if bit / 32 + 1 < wordCount then (bit / 32 + 1) * 32 else 0) + countrOne prev := by
  have hc := countrOne_lt_of_ne_allOnes h
  simp only [nextBitBounded, firstZero_of_ne h, shiftRight_bitsPerIntLg2, Int.toNat_ofNat,
    Int.ofNat_nonneg, if_true, shiftLeft_or_eq_add _ _ hc, and_bitsPerIntMask]
  have hnn : ¬((countrOne prev : Int) < 0) := by omega
  by_cases hb : bitBound ≤ bit / 32 * 32 + countrOne prev
  · rw [if_pos (Or.inr hb), if_neg (Nat.not_lt.mpr hb), nextWordStart_or _ _ _ (by omega)]
    congr 1
    omega
  · rw [if_neg (by simp [hnn, hb]), if_pos (Nat.lt_of_not_le hb)]

/-- What a retry does, for a bound of `bitBound` bits laid out in
`(bitBound + 31) / 32` words: on a word with a zero bit it goes to the first zero bit
(when that bit is below the bound), on a full word to the same position of the next
word, cyclically. -/
structure Scans (bitBound : Nat) (next : Nat → Word → Nat) : Prop where
  inWord : ∀ bit prev, bit < bitBound → prev ≠ allOnes 32 →
    bit / 32 * 32 + countrOne prev < bitBound → next bit prev = bit / 32 * 32 + countrOne prev
  nextWord : ∀ bit, bit < bitBound → bitBound % 32 = 0 →
    next bit (allOnes 32) = (bit / 32 + 1) % (bitBound / 32) * 32 + bit % 32

theorem next_word_eq {bitBound bit : Nat} (hbit : bit < bitBound) (hmul : bitBound % 32 = 0) :
    (if bit / 32 + 1 < bitBound / 32 then (bit / 32 + 1) * 32 else 0) =
      (bit / 32 + 1) % (bitBound / 32) * 32 := by
  split
  · rw [Nat.mod_eq_of_lt ‹_›]
  · rw [show bit / 32 + 1 = bitBound / 32 by omega, Nat.mod_self, Nat.zero_mul]

/-- `acquire_bounded_lg2` scans for every bound. -/
theorem scans_nextBitLg2 (bitBound : Nat) : Scans bitBound (nextBitLg2 (bitBound / 32)) where
  inWord bit prev _ hne _ := nextBitLg2_of_ne hne _ bit
  nextWord bit hbit hmul := by
    rw [nextBitLg2_allOnes, next_word_eq hbit hmul]

/-- `acquire_bounded` scans for every bound, too; its extra check only matters where a
first zero bit lies past the bound, which `Scans` leaves open. -/
theorem scans_nextBitBounded (bitBound : Nat) :
    Scans bitBound (nextBitBounded bitBound (bitBound / 32)) where
  inWord bit prev _ hne hlt := by rw [nextBitBounded_of_ne hne, if_pos hlt]
  nextWord bit hbit hmul := by
    rw [nextBitBounded_allOnes, next_word_eq hbit hmul]

/-! ## Retries stay below the bound -/

/-- A retry of `acquire_bounded` stays below the bound whenever, for a bound below one
word, the word read has a zero bit below the bound. -/
theorem nextBitBounded_lt {bitBound bit : Nat} {prev : Word} (hbit : bit < bitBound)
    (hsmall : bitBound < 32 → countrOne prev < bitBound) :
    nextBitBounded bitBound (bitBound / 32) bit prev < bitBound := by
  by_cases hne : prev = allOnes 32
  · subst hne
    rw [nextBitBounded_allOnes]
    have : ¬ bitBound < 32 := fun h => by
      have := hsmall h
      rw [countrOne_allOnes] at this
      omega
    split <;> omega
  · have hc := countrOne_lt_of_ne_allOnes hne
    rw [nextBitBounded_of_ne hne]
    split
    · assumption
    · split
      · omega
      · by_cases h : bitBound < 32
        · have := hsmall h
          omega
        · omega

/-- A retry of `acquire_bounded_lg2` stays below a power-of-two bound under the same
condition; here the bound being a multiple of `32` past one word is what is used. -/
theorem nextBitLg2_lt {bitBound bit : Nat} {prev : Word} (hbit : bit < bitBound)
    (hshape : bitBound % 32 = 0 ∨ bitBound < 32)
    (hsmall : bitBound < 32 → countrOne prev < bitBound) :
    nextBitLg2 (bitBound / 32) bit prev < bitBound := by
  by_cases hne : prev = allOnes 32
  · subst hne
    rw [nextBitLg2_allOnes]
    have : ¬ bitBound < 32 := fun h => by
      have := hsmall h
      rw [countrOne_allOnes] at this
      omega
    split <;> omega
  · have hc := countrOne_lt_of_ne_allOnes hne
    rw [nextBitLg2_of_ne hne]
    by_cases h : bitBound < 32
    · have := hsmall h
      omega
    · omega

/-- A retry from below the bound stays below it whenever, for a bound below one word,
the word read has a zero bit below the bound. -/
def RetriesBelow (bitBound : Nat) (next : Nat → Word → Nat) : Prop :=
  ∀ bit prev, bit < bitBound → (bitBound < 32 → countrOne prev < bitBound) →
    next bit prev < bitBound

theorem retriesBelow_nextBitBounded (bitBound : Nat) :
    RetriesBelow bitBound (nextBitBounded bitBound (bitBound / 32)) :=
  fun _ _ hbit hsmall => nextBitBounded_lt hbit hsmall

/-- Power-of-two bounds fill whole words or stay below one. -/
theorem pow_shape (bitBoundLg2 : Nat) : 2 ^ bitBoundLg2 % 32 = 0 ∨ 2 ^ bitBoundLg2 < 32 := by
  by_cases h : 5 ≤ bitBoundLg2
  · left
    obtain ⟨k, rfl⟩ : ∃ k, bitBoundLg2 = k + 5 := ⟨bitBoundLg2 - 5, by omega⟩
    rw [Nat.pow_add]
    exact Nat.mul_mod_left _ _
  · right
    exact Nat.lt_of_le_of_lt (Nat.pow_le_pow_right (by decide) (by omega : bitBoundLg2 ≤ 4))
      (by decide)

theorem retriesBelow_nextBitLg2 (bitBoundLg2 : Nat) :
    RetriesBelow (2 ^ bitBoundLg2) (nextBitLg2 (2 ^ bitBoundLg2 / 32)) :=
  fun _ _ hbit hsmall => nextBitLg2_lt hbit (pow_shape bitBoundLg2) hsmall

/-! ## What the loop claims -/

/-- The loop only ever claims a clear bit, and leaves the buffer as the one fetch-or on
that bit leaves it. -/
theorem searchLoop_eq_some {next : Nat → Word → Nat} {fuel : Nat} {mem mem' : Memory}
    {bit claimed : Nat} (h : searchLoop next fuel mem bit = some (claimed, mem')) :
    bitSet mem claimed = false ∧ mem' = (fetchOr mem (claimed / 32 + 1) (bitMask claimed)).2 := by
  induction fuel generalizing bit with
  | zero => simp at h
  | succ fuel ih =>
    rw [searchLoop_succ] at h
    split at h
    · exact ih h
    · cases h
      exact ⟨by simpa using ‹¬bitSet mem claimed = true›, rfl⟩

/-- Any property of bits that every retry keeps holds of the bit the loop claims. -/
theorem searchLoop_claimed_of_retry (P : Nat → Prop) {next : Nat → Word → Nat} {fuel : Nat}
    {mem mem' : Memory} {bit claimed : Nat} (hstart : P bit)
    (hretry : ∀ c, P c → bitSet mem c = true → P (next c (mem (c / 32 + 1))))
    (h : searchLoop next fuel mem bit = some (claimed, mem')) : P claimed := by
  induction fuel generalizing bit with
  | zero => simp at h
  | succ fuel ih =>
    rw [searchLoop_succ] at h
    split at h
    · exact ih (hretry bit hstart ‹_›) h
    · cases h
      exact hstart

/-- More passes than needed change nothing. -/
theorem searchLoop_add {next : Nat → Word → Nat} {fuel : Nat} {mem : Memory} {bit : Nat}
    {result : Nat × Memory} (h : searchLoop next fuel mem bit = some result) (extra : Nat) :
    searchLoop next (fuel + extra) mem bit = some result := by
  induction fuel generalizing bit with
  | zero => simp at h
  | succ fuel ih =>
    rw [Nat.add_right_comm, searchLoop_succ]
    rw [searchLoop_succ] at h
    split
    · exact ih (by simpa [*] using h)
    · simpa [*] using h

/-- A set of bits that are all set and that every retry stays in traps the loop: it
never returns. -/
theorem searchLoop_eq_none_of_trapped (P : Nat → Prop) {next : Nat → Word → Nat}
    {mem : Memory} {bit : Nat} (hstart : P bit)
    (htrap : ∀ c, P c → bitSet mem c = true ∧ P (next c (mem (c / 32 + 1)))) (fuel : Nat) :
    searchLoop next fuel mem bit = none := by
  induction fuel generalizing bit with
  | zero => rfl
  | succ fuel ih =>
    rw [searchLoop_succ, if_pos (htrap bit hstart).1]
    exact ih (htrap bit hstart).2

theorem bitSet_of_allOnes {mem : Memory} {bit : Nat} (h : mem (bit / 32 + 1) = allOnes 32) :
    bitSet mem bit = true := by
  rw [bitSet, h, getLsbD_allOnes]
  simp [Nat.mod_lt bit (by decide : 32 > 0)]

/-- For a bound below one word, a clear bit below the bound stops the count of trailing
ones of word `0` before the bound. -/
theorem countrOne_lt_of_clear {mem : Memory} {bitBound i : Nat} (hsmall : bitBound < 32)
    (hi : i < bitBound) (hclear : bitSet mem i = false) : countrOne (mem 1) < bitBound := by
  have : (mem 1).getLsbD i = false := by
    simpa [bitSet, show i / 32 = 0 by omega, show i % 32 = i by omega] using hclear
  exact Nat.lt_of_le_of_lt (countrOne_le_of_getLsbD_false this) hi

section Termination

variable {bitBound : Nat} {next : Nat → Word → Nat} {mem : Memory}

/-- The claim a terminating search makes. -/
def ClaimsWithin (next : Nat → Word → Nat) (fuel : Nat) (mem : Memory) (bitBound bit : Nat) :
    Prop :=
  ∃ claimed, searchLoop next fuel mem bit =
      some (claimed, (fetchOr mem (claimed / 32 + 1) (bitMask claimed)).2) ∧
    claimed < bitBound ∧ bitSet mem claimed = false

/-- From a bit whose word has a zero bit, the loop claims a bit within two passes: the bit
itself, or the word's first zero bit. -/
theorem claimsWithin_of_free_word (hscan : Scans bitBound next)
    (hshape : bitBound % 32 = 0 ∨ bitBound < 32)
    (hsmall : bitBound < 32 → countrOne (mem 1) < bitBound) {bit : Nat} (hbit : bit < bitBound)
    (hfree : mem (bit / 32 + 1) ≠ allOnes 32) (fuel : Nat) :
    ClaimsWithin next (fuel + 2) mem bitBound bit := by
  rw [ClaimsWithin, searchLoop_succ]
  cases hset : bitSet mem bit
  · exact ⟨bit, by simp [hset], hbit, hset⟩
  · have hc := countrOne_lt_of_ne_allOnes hfree
    have hlt : bit / 32 * 32 + countrOne (mem (bit / 32 + 1)) < bitBound := by
      rcases hshape with hmul | hsmall'
      · omega
      · have hw : bit / 32 = 0 := by omega
        simpa [hw] using hsmall hsmall'
    rw [if_pos rfl, hscan.inWord bit _ hbit hfree hlt, searchLoop_succ]
    have hclear : bitSet mem (bit / 32 * 32 + countrOne (mem (bit / 32 + 1))) = false := by
      simp only [bitSet, show (bit / 32 * 32 + countrOne (mem (bit / 32 + 1))) / 32 = bit / 32 by
          omega, show (bit / 32 * 32 + countrOne (mem (bit / 32 + 1))) % 32 =
            countrOne (mem (bit / 32 + 1)) by omega]
      exact getLsbD_countrOne hc
    exact ⟨_, by rw [if_neg (by simp [hclear])], hlt, hclear⟩

/-- From a bit whose word is followed, cyclically, by `full` full words and then a word
with a zero bit, the loop claims a bit within `full + 2` passes. -/
theorem claimsWithin_of_full_words (hscan : Scans bitBound next)
    (hshape : bitBound % 32 = 0 ∨ bitBound < 32)
    (hsmall : bitBound < 32 → countrOne (mem 1) < bitBound) (full : Nat) :
    ∀ bit < bitBound,
      (∀ k < full, mem ((bit / 32 + k) % ((bitBound + 31) / 32) + 1) = allOnes 32) →
      mem ((bit / 32 + full) % ((bitBound + 31) / 32) + 1) ≠ allOnes 32 →
      ∀ fuel, full + 2 ≤ fuel → ClaimsWithin next fuel mem bitBound bit := by
  induction full with
  | zero =>
    intro bit hbit _ hfree fuel hfuel
    obtain ⟨fuel, rfl⟩ : ∃ f, fuel = f + 2 := ⟨fuel - 2, by omega⟩
    simp only [Nat.add_zero] at hfree
    rw [Nat.mod_eq_of_lt (show bit / 32 < (bitBound + 31) / 32 by omega)] at hfree
    exact claimsWithin_of_free_word hscan hshape hsmall hbit hfree fuel
  | succ full ih =>
    intro bit hbit hfull hfree fuel hfuel
    have hword : mem (bit / 32 + 1) = allOnes 32 := by
      simpa [Nat.mod_eq_of_lt (show bit / 32 < (bitBound + 31) / 32 by omega)] using
        hfull 0 (Nat.succ_pos _)
    have hmul : bitBound % 32 = 0 := by
      rcases hshape with hmul | hsmall'
      · exact hmul
      · have := hsmall hsmall'
        rw [show bit / 32 + 1 = 1 by omega] at hword
        rw [hword, countrOne_allOnes] at this
        omega
    have hwords : (bitBound + 31) / 32 = bitBound / 32 := by omega
    obtain ⟨fuel, rfl⟩ : ∃ f, fuel = f + 1 := ⟨fuel - 1, by omega⟩
    rw [ClaimsWithin, searchLoop_succ, if_pos (bitSet_of_allOnes hword), hword,
      hscan.nextWord bit hbit hmul]
    have hnext : (bit / 32 + 1) % (bitBound / 32) * 32 + bit % 32 < bitBound := by
      have := Nat.mod_lt (bit / 32 + 1) (show bitBound / 32 > 0 by omega)
      omega
    have hdiv : ((bit / 32 + 1) % (bitBound / 32) * 32 + bit % 32) / 32 =
        (bit / 32 + 1) % (bitBound / 32) := by omega
    have hcycle : ∀ k, ((bit / 32 + 1) % (bitBound / 32) + k) % ((bitBound + 31) / 32) =
        (bit / 32 + (k + 1)) % ((bitBound + 31) / 32) := by
      intro k
      rw [hwords, Nat.mod_add_mod, Nat.add_assoc, Nat.add_comm 1 k]
    refine ih _ hnext (fun k hk => ?_) ?_ fuel (by omega)
    · rw [hdiv, hcycle]
      exact hfull (k + 1) (by omega)
    · rw [hdiv, hcycle]
      exact hfree

/-- From a bitmap with a clear bit below the bound, the loop claims a clear bit below the
bound within one pass per word of the bitmap plus one, from any start below the bound. -/
theorem searchLoop_claims (hscan : Scans bitBound next)
    (hshape : bitBound % 32 = 0 ∨ bitBound < 32)
    (hfree : ∃ i < bitBound, bitSet mem i = false) {bit : Nat} (hbit : bit < bitBound)
    {fuel : Nat} (hfuel : (bitBound + 31) / 32 + 1 ≤ fuel) :
    ClaimsWithin next fuel mem bitBound bit := by
  obtain ⟨i, hi, hclear⟩ := hfree
  have hsmall : bitBound < 32 → countrOne (mem 1) < bitBound := fun h =>
    countrOne_lt_of_clear h hi hclear
  have hword : mem (i / 32 + 1) ≠ allOnes 32 := fun h => by
    simp [bitSet_of_allOnes h] at hclear
  have hfound : ∃ d, mem ((bit / 32 + d) % ((bitBound + 31) / 32) + 1) ≠ allOnes 32 ∧
      d < (bitBound + 31) / 32 := by
    by_cases hle : bit / 32 ≤ i / 32
    · refine ⟨i / 32 - bit / 32, ?_, by omega⟩
      rwa [show bit / 32 + (i / 32 - bit / 32) = i / 32 by omega, Nat.mod_eq_of_lt (by omega)]
    · refine ⟨(bitBound + 31) / 32 - bit / 32 + i / 32, ?_, by omega⟩
      rwa [show bit / 32 + ((bitBound + 31) / 32 - bit / 32 + i / 32) =
          i / 32 + (bitBound + 31) / 32 by omega, Nat.add_mod_right, Nat.mod_eq_of_lt (by omega)]
  classical
  have hex : ∃ d, mem ((bit / 32 + d) % ((bitBound + 31) / 32) + 1) ≠ allOnes 32 :=
    hfound.imp fun _ h => h.1
  obtain ⟨d0, hd0, hlt⟩ := hfound
  exact claimsWithin_of_full_words hscan hshape hsmall (Nat.find hex) bit hbit
    (fun k hk => not_not.mp (Nat.find_min hex hk)) (Nat.find_spec hex) fuel
    (by have := Nat.find_min' hex hd0; omega)

end Termination

/-! ## The two acquires on whole words -/

/-- Two retry functions that agree below the bound, one of which stays below it, run the
same loop from any start below the bound. -/
theorem searchLoop_congr {next next' : Nat → Word → Nat} {bitBound : Nat}
    (hagree : ∀ bit prev, bit < bitBound → next bit prev = next' bit prev)
    (hbelow : ∀ bit prev, bit < bitBound → next bit prev < bitBound) :
    ∀ fuel mem bit, bit < bitBound → searchLoop next fuel mem bit = searchLoop next' fuel mem bit
  | 0, _, _, _ => rfl
  | fuel + 1, mem, bit, hbit => by
    rw [searchLoop_succ, searchLoop_succ, ← hagree bit _ hbit,
      searchLoop_congr hagree hbelow fuel _ _ (hbelow bit _ hbit)]

/-- On a bound of whole words a first zero below the bound stays below it, and the bounded
retry is the `lg2` one. -/
theorem nextBitBounded_eq_nextBitLg2 {bitBound bit : Nat} (hwhole : bitBound % 32 = 0)
    (hbit : bit < bitBound) (prev : Word) :
    nextBitBounded bitBound (bitBound / 32) bit prev = nextBitLg2 (bitBound / 32) bit prev := by
  by_cases hne : prev = allOnes 32
  · rw [hne, nextBitBounded_allOnes, nextBitLg2_allOnes]
  · have := countrOne_lt_of_ne_allOnes hne
    rw [nextBitBounded_of_ne hne, nextBitLg2_of_ne hne, if_pos (by omega)]

/-- Below the bound the two argument checks agree: both reject an invalid header or a bound
past `max_bit_count`. -/
theorem acquireBoundedLg2Rejects_eq {bitBoundLg2 bit : Nat} (hbit : bit < 2 ^ bitBoundLg2)
    (stateHeader : Word) :
    acquireBoundedLg2Rejects bitBoundLg2 bit stateHeader =
      acquireBoundedRejects (2 ^ bitBoundLg2) bit stateHeader := by
  have hmax : maxBitCountLg2 < bitBoundLg2 ↔ maxBitCount < 2 ^ bitBoundLg2 := by
    rw [maxBitCount_eq]
    exact (Nat.pow_lt_pow_iff_right (by decide : 1 < 2)).symm
  simp only [acquireBoundedLg2Rejects, acquireBoundedRejects, Nat.shiftLeft_eq, Nat.one_mul,
    decide_eq_decide.mpr hmax, Nat.not_lt.mpr hbit.le, Nat.not_le.mpr hbit, decide_False]

/-- For a bound of whole words, `acquire_bounded_lg2(buffer, lg2, hint, state_header)` and
`acquire_bounded(buffer, 1 << lg2, hint, state_header)` are the same function of the
buffer for every hint below the bound: the same result and the same buffer, on any buffer,
with any header, whatever the number of passes. -/
theorem acquireBoundedLg2_eq_acquireBounded {bitBoundLg2 : Nat} (hlg2 : 5 ≤ bitBoundLg2)
    (fuel : Nat) (mem : Memory) {hint : Nat} (hhint : hint < 2 ^ bitBoundLg2)
    (stateHeader : Word) :
    acquireBoundedLg2 fuel mem bitBoundLg2 hint stateHeader =
      acquireBounded fuel mem (2 ^ bitBoundLg2) hint stateHeader := by
  have hwhole : 2 ^ bitBoundLg2 % 32 = 0 := (pow_shape bitBoundLg2).resolve_right fun h =>
    absurd (Nat.pow_le_pow_right (by decide : 0 < 2) hlg2) (by omega)
  rw [acquireBoundedLg2_eq, acquireBounded_eq, acquireBoundedLg2Rejects_eq hhint,
    searchLoop_congr (fun bit prev hbit => (nextBitBounded_eq_nextBitLg2 hwhole hbit prev).symm)
      (fun bit prev hbit => retriesBelow_nextBitLg2 bitBoundLg2 bit prev hbit fun h =>
        absurd h (by omega)) fuel _ _ hhint]

/-- Bound `64`: the two acquires agree on a zero buffer from hint `40`. -/
theorem acquireBoundedLg2_eq_acquireBounded_64 :
    acquireBoundedLg2 3 (fun _ => 0#32) 6 40 0#32 = acquireBounded 3 (fun _ => 0#32) 64 40 0#32 :=
  acquireBoundedLg2_eq_acquireBounded (by decide) 3 _ (by decide) _

end Kokkos.ConcurrentBitset
