import Kokkos.ConcurrentBitset.Invariant

/-!
# Mutual exclusion, the count, and particular runs

From the invariant of `Kokkos.ConcurrentBitset.Invariant`, while fewer than `2^25` acquires
are in progress at once: the bits held are distinct, below the bound and exactly the set
bits of the bitmap, and every access stays inside the buffer (`reachable_safe`); the count
field is the number of reservations held plus the failed acquires not yet undone, and with
no call in progress the buffer is `Quiescent` (`reachable_count`).

Runs built step by step show what these say in states with calls in progress and what the
bound excludes. The count field counts failed acquires until they undo their reservation,
so it exceeds the bound while one is pending (`reachable_pending_failures`). A release
between its clearing fetch-and and its decrementing fetch-sub still counts its bit, so an
acquire in that window fails as full while no bit is held (`reachable_full_with_free_bit`):
the benign failure the design accepts.

Without the bound on acquires in progress the count overflows. Take a bound of one bit and
header `0`, and let one acquire hold bit `0`. Each further acquire makes its reserving
fetch-add, fails, and may be preempted before its undoing fetch-sub. After `2^26 - 1` of
them the count field reads `0` while `2^26` calls hold a unit of it, and the header bits
read `1` (`reachable_count_overflows`). After `2^31 - 1` of them the header bits are `0`
again (bit 31 of the word belongs to neither field) and the count field reads `0`, so the
next acquire passes its reservation, loses bit `0`, and claims bit `1`, past the bound
(`reachable_claims_past_bound`). The source's header comment accepts this: "Accept at
least 33 million concurrent calls to 'acquire' before risking an overflow race condition
on a full bitset".

Within the bound, a release by the holder of a bit always finds the bit set, so it never
returns `-1` (`reachable_clear_reads_set`).
-/

namespace Kokkos.ConcurrentBitset

open BitVec

/-! ## Building runs -/

section Runs

variable {bitBound : Nat} {stateHeader : Word} {tag : Word → Prop} {limit : Nat}
  {mem mem' : Memory} {addr : Nat}

/-- A call starts: its first access appends it to the calls in progress. -/
theorem Reachable.start {calls : List Call} {call' : Call}
    (hs : Reachable bitBound stateHeader tag limit ⟨mem, calls⟩)
    (h : CallStep bitBound tag mem none addr mem' (some call'))
    (hlim : acquiresInProgress (calls ++ [call']) < limit) :
    Reachable bitBound stateHeader tag limit ⟨mem', calls ++ [call']⟩ := by
  have hs' : Reachable bitBound stateHeader tag limit ⟨mem, calls ++ none.toList ++ []⟩ := by
    simpa using hs
  simpa using hs'.step (Step.call h) (by simpa using hlim)

/-- The last call of the list takes a step and stays in progress. -/
theorem Reachable.stepLast {calls : List Call} {call call' : Call}
    (hs : Reachable bitBound stateHeader tag limit ⟨mem, calls ++ [call]⟩)
    (h : CallStep bitBound tag mem (some call) addr mem' (some call'))
    (hlim : acquiresInProgress (calls ++ [call']) < limit) :
    Reachable bitBound stateHeader tag limit ⟨mem', calls ++ [call']⟩ := by
  have hs' : Reachable bitBound stateHeader tag limit
      ⟨mem, calls ++ (some call).toList ++ []⟩ := by
    simpa using hs
  simpa using hs'.step (Step.call h) (by simpa using hlim)

end Runs

/-! ## Calls in progress -/

@[simp]
theorem acquiresInProgress_map_undoing (errs : List Bool) :
    acquiresInProgress (errs.map .undoing) = errs.length := by
  simp [acquiresInProgress, List.countP_map, Function.comp_def, Call.acquiring]

/-- With a one-bit bound and header `0`, a word whose value lies in `[1, 2^31)` fails the
reservation: either its count is at least `1` or its header bits are not `0`. -/
theorem reserve_one_failed {n : Nat} (h1 : 1 ≤ n) (h2 : n < 2 ^ 31) :
    ∃ stateError, reserve 1 0#32 (BitVec.ofNat 32 n) = .failed stateError := by
  cases hr : reserve 1 0#32 (BitVec.ofNat 32 n) with
  | failed stateError => exact ⟨stateError, rfl⟩
  | reserved used =>
    obtain ⟨hheader, hused, -⟩ := reserve_eq_reserved_iff.mp hr
    have hbits := congrArg BitVec.toNat hheader
    rw [toNat_and_stateHeaderMask, toNat_ofNat] at hbits
    rw [usedCount_eq, toNat_ofNat] at hused
    simp only [toNat_ofNat, Nat.zero_mod] at hbits
    omega

/-- One acquire holds bit `0` of a one-bit bound, with header `0`, and `k` more acquires
have failed their reservation without undoing it. -/
theorem reachable_pending_failures {limit : Nat} (hlimit : 1 < limit) (k : Nat)
    (hk : k < 2 ^ 31) (hlim : k < limit) :
    ∃ (mem : Memory) (errs : List Bool), errs.length = k ∧ mem 0 = BitVec.ofNat 32 (k + 1) ∧
      mem 1 = 1#32 ∧
        Reachable 1 0#32 (· = 0#32) limit ⟨mem, .holding 0 :: errs.map .undoing⟩ := by
  induction k with
  | zero =>
    have hstart := (@Reachable.initial 1 0#32 (· = 0#32) limit _ (initial_zeroMemory 1 0#32)).start
      (CallStep.reserveBounded 0 0#32 rfl (by decide) (by decide)) (by simpa using hlimit)
    have hreserve : reserve 1 0#32 (fetchAdd (zeroMemory 0#32) 0 1#32).1 = .reserved 0 := by decide
    have hclaimed : (claimStep (Variant.bounded.next 1) (fetchAdd (zeroMemory 0#32) 0 1#32).2 0).1 =
        .claimed := by decide
    rw [hreserve] at hstart
    have hclaim := @Reachable.stepLast _ _ _ _ _ _ _ [] _ _ hstart
      (CallStep.search .bounded 0 0) (by simp [hclaimed, Call.ofClaim, Call.acquiring]; omega)
    rw [hclaimed] at hclaim
    exact ⟨(claimStep (Variant.bounded.next 1) (fetchAdd (zeroMemory 0#32) 0 1#32).2 0).2, [],
      rfl, by decide, by decide, by simpa [Call.ofClaim] using hclaim⟩
  | succ k ih =>
    obtain ⟨mem, errs, hlen, h0, h1, hs⟩ := ih (by omega) (by omega)
    obtain ⟨stateError, hfail⟩ := reserve_one_failed (n := k + 1) (by omega) (by omega)
    have hstep := hs.start (CallStep.reserveBounded 0 0#32 rfl (by decide) (by decide))
      (by simp [hlen]; simp [Call.acquiring]; omega)
    refine ⟨(fetchAdd mem 0 1#32).2, errs ++ [stateError], by simp [hlen], ?_, ?_, ?_⟩
    · simp [fetchAdd, h0, BitVec.ofNat_add_ofNat]
    · simp [fetchAdd, h1]
    · simpa [fetchAdd, h0, hfail, Call.ofReservation] using hstep

/-- With a one-bit bound and header `0`, an acquire holds bit `0` and its release has read
the header: the call is about to clear the bit. -/
theorem reachable_clearing_zero :
    ∃ mem : Memory, mem 0 = 1#32 ∧ mem 1 = 1#32 ∧
      Reachable 1 0#32 (· = 0#32) (2 ^ 25) ⟨mem, [.clearing 0]⟩ := by
  obtain ⟨mem, errs, hlen, h0, h1, hs⟩ :=
    @reachable_pending_failures (2 ^ 25) (by decide) 0 (by decide) (by decide)
  rw [List.length_eq_zero] at hlen
  subst hlen
  have h0' : mem 0 = 1#32 := h0
  have hstep := @CallStep.readHeader 1 (· = 0#32) mem 0 0#32 rfl
  rw [if_neg (by rw [h0']; decide)] at hstep
  exact ⟨mem, h0', h1,
    @Reachable.stepLast _ _ _ _ _ _ _ [] _ _ hs hstep (by simp [Call.acquiring])⟩

/-- A free bit reported full: the holder of bit `0` of a one-bit bound clears it, and
before its decrementing fetch-sub another acquire reserves, reads a count of `1` and fails
as full (`state_error` unset), while no call holds a bit and every bit below the bound is
clear. The count field reads `2`. -/
theorem reachable_full_with_free_bit :
    ∃ s, Reachable 1 0#32 (· = 0#32) (2 ^ 25) s ∧ Call.undoing false ∈ s.calls ∧
      ownedBits s.calls = [] ∧ heldBits s.mem 1 = ∅ ∧ usedCount (s.mem 0) = 2 := by
  obtain ⟨mem, h0, h1, hs⟩ := reachable_clearing_zero
  have hstep := @CallStep.clear 1 (· = 0#32) mem 0
  rw [if_neg (by simp only [fetchAnd, h1]; decide)] at hstep
  have hclear := @Reachable.stepLast _ _ _ _ _ _ _ [] _ _ hs hstep (by simp [Call.acquiring])
  have hcount : (fetchAnd mem (0 / 32 + 1) (~~~bitMask 0)).2 0 = 1#32 := by
    simp only [fetchAnd, Memory.write_other _ _ (show (0 : Nat) ≠ 0 / 32 + 1 by decide), h0]
  have hfull : reserve 1 0#32 (fetchAdd (fetchAnd mem (0 / 32 + 1) (~~~bitMask 0)).2 0 1#32).1 =
      .failed false := by
    rw [show ∀ m : Memory, (fetchAdd m 0 1#32).1 = m 0 from fun _ => rfl, hcount]
    decide
  have hreserve := @CallStep.reserveBounded 1 (· = 0#32)
    (fetchAnd mem (0 / 32 + 1) (~~~bitMask 0)).2 0 0#32 rfl (by decide) (by decide)
  rw [hfull] at hreserve
  have hstart := hclear.start hreserve (by simp [Call.ofReservation, Call.acquiring])
  refine ⟨_, hstart, by simp [Call.ofReservation], by simp [Call.owned, Call.ofReservation], ?_,
    by simp only [fetchAdd, Memory.write_same, hcount]; decide⟩
  ext i
  simp only [mem_heldBits, Finset.not_mem_empty, iff_false, not_and]
  intro hi
  have hi0 : i = 0 := by omega
  subst hi0
  simp [bitSet, fetchAdd, fetchAnd, h1]

/-! ## Mutual exclusion -/

/-- While fewer than `2^25` acquires are in progress at once, whatever the interleaving and
the headers the calls pass: the bits held are distinct and below the bound, they are
exactly the set bits of the bitmap, and every step reads or writes a word of the buffer. -/
theorem reachable_safe {bitBound : Nat} (hB : bitBound ≤ maxBitCount) {stateHeader : Word}
    (hH : ValidHeader stateHeader) {tag : Word → Prop} {s : System}
    (hs : Reachable bitBound stateHeader tag (2 ^ 25) s) :
    (ownedBits s.calls).Nodup ∧ (∀ bit ∈ ownedBits s.calls, bit < bitBound) ∧
      (∀ i < 32 * ((bitBound + 31) / 32), bitSet s.mem i = true ↔ i ∈ ownedBits s.calls) ∧
      ∀ addr s', Step bitBound tag s addr s' → addr < bufferBound bitBound := by
  have hinv := hs.inv hH hB
  refine ⟨hinv.nodup, hinv.owned_lt, hinv.bitmap, fun addr s' h => ?_⟩
  obtain ⟨hcall⟩ := h
  exact (hinv.perm (perm_middle_front _ _ _)).addr_lt hB hcall

/-- One acquire holds bit `0` of a one-bit bound and another has failed its reservation
without undoing it: bit `0` is the one set bit, and every next step stays in the buffer's
two words. -/
theorem reachable_safe_pending_failure :
    1 ≤ maxBitCount ∧ ValidHeader 0#32 ∧
      ∃ s, Reachable 1 0#32 (· = 0#32) (2 ^ 25) s ∧ ownedBits s.calls = [0] ∧
        failedCount s.calls = 1 ∧
        ((ownedBits s.calls).Nodup ∧ (∀ bit ∈ ownedBits s.calls, bit < 1) ∧
          (∀ i < 32 * ((1 + 31) / 32), bitSet s.mem i = true ↔ i ∈ ownedBits s.calls) ∧
          ∀ addr s', Step 1 (· = 0#32) s addr s' → addr < bufferBound 1) := by
  obtain ⟨mem, errs, hlen, -, -, hs⟩ :=
    @reachable_pending_failures (2 ^ 25) (by decide) 1 (by decide) (by decide)
  refine ⟨by decide, by decide, _, hs, ?_, ?_, reachable_safe (by decide) (by decide) hs⟩
  · simp [ownedBits, List.filterMap_map, Function.comp_def, Call.owned]
  · simp [failedCount, List.countP_map, Function.comp_def, Call.reserved, hlen]

/-- With `2^31 - 1` failed acquires pending on top of one held bit, the count word reads
`2^31`: the header bits and the count field both read `0`. The next acquire passes its
reservation, finds bit `0` held, moves to bit `1` and claims it, past the bound of one
bit. -/
theorem reachable_claims_past_bound :
    ∃ s, Reachable 1 0#32 (· = 0#32) (2 ^ 32) s ∧
      ∃ bit ∈ ownedBits s.calls, ¬ bit < 1 := by
  obtain ⟨mem, errs, hlen, h0, h1, hs⟩ :=
    @reachable_pending_failures (2 ^ 32) (by decide) (2 ^ 31 - 1) (by decide) (by decide)
  have hreserve : reserve 1 0#32 (fetchAdd mem 0 1#32).1 = .reserved 0 := by
    rw [show (fetchAdd mem 0 1#32).1 = mem 0 from rfl, h0]
    decide
  have hstart := hs.start (CallStep.reserveBounded 0 0#32 rfl (by decide) (by decide))
    (by simp [hlen]; simp [Call.acquiring])
  rw [hreserve] at hstart
  have hword : (fetchAdd mem 0 1#32).2 1 = 1#32 := by simp [fetchAdd, h1]
  have hretry : claimStep (Variant.bounded.next 1) (fetchAdd mem 0 1#32).2 0 =
      (.retry 1, (fetchAdd mem 0 1#32).2) := by
    have hnext : Variant.bounded.next 1 0 1#32 = 1 := by decide
    rw [claimStep_eq, if_pos (by simp [bitSet, hword]), hword, hnext]
  have hclaim : claimStep (Variant.bounded.next 1) (fetchAdd mem 0 1#32).2 1 =
      (.claimed, (fetchOr (fetchAdd mem 0 1#32).2 1 (bitMask 1)).2) := by
    rw [claimStep_eq, if_neg (by simp [bitSet, hword])]
  have hsearch := hstart.stepLast (CallStep.search .bounded 0 0)
    (by simp [hlen, hretry, Call.ofClaim, Call.acquiring])
  simp only [hretry, Call.ofClaim] at hsearch
  have hclaimed := hsearch.stepLast (CallStep.search .bounded 1 0)
    (by simp [hlen, hclaim, Call.ofClaim, Call.acquiring])
  simp only [hclaim, Call.ofClaim] at hclaimed
  exact ⟨_, hclaimed, 1, by simp [Call.owned], by decide⟩

/-! ## The count -/

/-- While fewer than `2^25` acquires are in progress at once: the count field is the number
of reservations held plus the failed acquires not yet undone, the reservations are at most
the bound, the count stays below `2^26` and the header bits keep the buffer's header. With
no call in progress the buffer is `Quiescent`: its count is the number of held bits, which
is at most the bound, and no failed call left a trace. -/
theorem reachable_count {bitBound : Nat} (hB : bitBound ≤ maxBitCount) {stateHeader : Word}
    (hH : ValidHeader stateHeader) {tag : Word → Prop} {s : System}
    (hs : Reachable bitBound stateHeader tag (2 ^ 25) s) :
    usedCount (s.mem 0) = reservedCount s.calls + failedCount s.calls ∧
      reservedCount s.calls ≤ bitBound ∧ usedCount (s.mem 0) ≤ 2 ^ 26 - 1 ∧
      s.mem 0 &&& stateHeaderMask = stateHeader ∧
      (Idle s.calls → Quiescent bitBound stateHeader s.mem ∧
        usedCount (s.mem 0) = (heldBits s.mem bitBound).card ∧
        (heldBits s.mem bitBound).card ≤ bitBound) := by
  have hinv := hs.inv hH hB
  obtain ⟨hheader, hused⟩ := hinv.header_eq hH
  have hlen := hinv.length_lt
  refine ⟨by rw [hused, reservedCount_add_failedCount], hinv.reserved_le, by omega, hheader,
    fun hidle => ?_⟩
  obtain ⟨hq, hcard⟩ := hinv.quiescent hidle
  exact ⟨hq, by rw [hused, hcard, hidle.length_ownedBits],
    hcard ▸ (length_ownedBits_le _).trans hinv.reserved_le⟩

/-- The free bit reported full: the count field reads `2`, past the bound of one bit, with
one unit for the release that has not yet decremented it and one for the failed acquire,
while no bit is held. -/
theorem reachable_count_free_bit :
    1 ≤ maxBitCount ∧ ValidHeader 0#32 ∧
      ∃ s, Reachable 1 0#32 (· = 0#32) (2 ^ 25) s ∧ Call.undoing false ∈ s.calls ∧
        heldBits s.mem 1 = ∅ ∧ usedCount (s.mem 0) = 2 ∧
        (usedCount (s.mem 0) = reservedCount s.calls + failedCount s.calls ∧
          reservedCount s.calls ≤ 1 ∧ usedCount (s.mem 0) ≤ 2 ^ 26 - 1 ∧
          s.mem 0 &&& stateHeaderMask = 0#32 ∧
          (Idle s.calls → Quiescent 1 0#32 s.mem ∧
            usedCount (s.mem 0) = (heldBits s.mem 1).card ∧ (heldBits s.mem 1).card ≤ 1)) := by
  obtain ⟨s, hs, hundo, -, hheld, hcount⟩ := reachable_full_with_free_bit
  exact ⟨by decide, by decide, s, hs, hundo, hheld, hcount,
    reachable_count (by decide) (by decide) hs⟩

/-- With `2^26 - 1` failed acquires pending on top of one held bit, fewer than `2^26`
acquires in progress, the count field reads `0` though `2^26` calls hold a unit of it,
and the header bits no longer read the buffer's header. -/
theorem reachable_count_overflows :
    ∃ s, Reachable 1 0#32 (· = 0#32) (2 ^ 26) s ∧
      usedCount (s.mem 0) ≠ reservedCount s.calls + failedCount s.calls ∧
      s.mem 0 &&& stateHeaderMask ≠ 0#32 := by
  obtain ⟨mem, errs, hlen, h0, -, hs⟩ :=
    @reachable_pending_failures (2 ^ 26) (by decide) (2 ^ 26 - 1) (by decide) (by decide)
  refine ⟨_, hs, ?_, by dsimp only; rw [h0]; decide⟩
  dsimp only
  rw [reservedCount_add_failedCount, h0]
  simp only [List.length_cons, List.length_map, hlen]
  decide

/-! ## Releases -/

/-- A release by the holder of a bit never finds the bit clear: in every state reachable
within the bound on acquires in progress, the `atomic_fetch_and` of a call clearing its bit
reads the bit set, so the release goes on to decrement the count and does not return
`-1`. -/
theorem reachable_clear_reads_set {bitBound : Nat} (hB : bitBound ≤ maxBitCount)
    {stateHeader : Word} (hH : ValidHeader stateHeader) {tag : Word → Prop} {s : System}
    (hs : Reachable bitBound stateHeader tag (2 ^ 25) s) {bit : Nat}
    (hclearing : Call.clearing bit ∈ s.calls) :
    (fetchAnd s.mem (bit / 32 + 1) (~~~bitMask bit)).1 &&& bitMask bit ≠ 0#32 := by
  have hinv := hs.inv hH hB
  have howned : bit ∈ ownedBits s.calls := List.mem_filterMap.mpr ⟨_, hclearing, rfl⟩
  have hlt := hinv.owned_lt bit howned
  have hset := (hinv.bitmap bit (by omega)).mpr howned
  rw [Ne, and_bitMask_eq_zero_iff]
  simpa [fetchAnd, bitSet] using hset

/-- The release of bit `0` of `reachable_clearing_zero`, about to clear it, reads it set. -/
theorem reachable_clear_reads_set_zero :
    ∃ s, Reachable 1 0#32 (· = 0#32) (2 ^ 25) s ∧ Call.clearing 0 ∈ s.calls ∧
      (fetchAnd s.mem (0 / 32 + 1) (~~~bitMask 0)).1 &&& bitMask 0 ≠ 0#32 := by
  obtain ⟨mem, -, -, hs⟩ := reachable_clearing_zero
  exact ⟨_, hs, List.mem_singleton_self _,
    reachable_clear_reads_set (by decide) (by decide) hs (List.mem_singleton_self _)⟩

end Kokkos.ConcurrentBitset
