import Kokkos.ConcurrentBitset.Machine

/-!
# The invariant of the concurrent bitset

While fewer than `2^25` acquires are in progress at once, every reachable state of the
machine of `Kokkos.ConcurrentBitset.Machine` satisfies `Inv`:

* the header word is the buffer's header plus one for every call in progress: each call
  holds exactly one unit of the count, from its reserving fetch-add to the fetch-sub that
  undoes it or ends its release;
* the calls that passed their reservation are at most the bound, so a search in progress
  always has a clear bit below the bound to find;
* the bits the calls hold are distinct and below the bound, and they are exactly the set
  bits of the bitmap's words;
* every search in progress tries a bit below the bound, and its retries stay there.

The count stays below `2^26`, so it never carries into the header bits: this is where the
bound on acquires in progress is used. From the invariant follow mutual exclusion, that
every access stays inside the buffer, and that a state with no call in progress but the
held bits is `Quiescent`, the invariant of sequential runs: these are stated, with runs
that show what they say, in `Kokkos.ConcurrentBitset.Runs`.
-/

namespace Kokkos.ConcurrentBitset

open BitVec

/-- The invariant of the concurrent bitset with bound `bitBound` and header `stateHeader`,
on the buffer `mem` with the calls `calls` in progress. -/
structure Inv (bitBound : Nat) (stateHeader : Word) (mem : Memory) (calls : List Call) : Prop where
  count : (mem 0).toNat = stateHeader.toNat + calls.length
  length_lt : calls.length < 2 ^ 26
  reserved_le : reservedCount calls ≤ bitBound
  nodup : (ownedBits calls).Nodup
  owned_lt : ∀ bit ∈ ownedBits calls, bit < bitBound
  bitmap : ∀ i < 32 * ((bitBound + 31) / 32), bitSet mem i = true ↔ i ∈ ownedBits calls
  searches : ∀ variant bit stateBitUsed, Call.searching variant bit stateBitUsed ∈ calls →
    bit < bitBound ∧ RetriesBelow bitBound (variant.next bitBound)

section Inv

variable {bitBound : Nat} {stateHeader : Word} {mem : Memory} {rest : List Call}

@[simp]
theorem Call.owned_ofReservation (variant : Variant) (bit : Nat) (r : Reservation) :
    (Call.ofReservation variant bit r).owned = none := by
  cases r <;> rfl

theorem retriesBelow_next_bounded (bitBound : Nat) :
    RetriesBelow bitBound (Variant.bounded.next bitBound) := by
  simpa [Variant.next] using retriesBelow_nextBitBounded bitBound

theorem retriesBelow_next_lg2 (bitBoundLg2 : Nat) :
    RetriesBelow (2 ^ bitBoundLg2) (Variant.lg2.next (2 ^ bitBoundLg2)) := by
  simpa [Variant.next] using retriesBelow_nextBitLg2 bitBoundLg2

theorem Inv.perm {calls calls' : List Call} (hinv : Inv bitBound stateHeader mem calls)
    (h : calls.Perm calls') : Inv bitBound stateHeader mem calls' where
  count := h.length_eq ▸ hinv.count
  length_lt := h.length_eq ▸ hinv.length_lt
  reserved_le := reservedCount_perm h ▸ hinv.reserved_le
  nodup := (ownedBits_perm h).nodup_iff.mp hinv.nodup
  owned_lt bit hbit := hinv.owned_lt bit ((ownedBits_perm h).mem_iff.mpr hbit)
  bitmap i hi := (hinv.bitmap i hi).trans (ownedBits_perm h).mem_iff
  searches variant bit used hmem := hinv.searches variant bit used (h.mem_iff.mpr hmem)

/-- The bitmap's held bits are the bits the calls hold. -/
theorem Inv.heldBits_eq {calls : List Call} (hinv : Inv bitBound stateHeader mem calls) :
    heldBits mem bitBound = (ownedBits calls).toFinset := by
  ext i
  rw [mem_heldBits, List.mem_toFinset]
  constructor
  · rintro ⟨hi, hset⟩
    exact (hinv.bitmap i (by omega)).mp hset
  · intro hi
    have hlt := hinv.owned_lt i hi
    exact ⟨hlt, (hinv.bitmap i (by omega)).mpr hi⟩

/-- A search in progress leaves a clear bit below the bound. -/
theorem Inv.exists_clear {calls : List Call} (hinv : Inv bitBound stateHeader mem calls)
    {variant : Variant} {bit stateBitUsed : Nat}
    (h : Call.searching variant bit stateBitUsed ∈ calls) :
    ∃ i < bitBound, bitSet mem i = false := by
  apply exists_clear_of_card_lt
  calc (heldBits mem bitBound).card
      = (ownedBits calls).toFinset.card := by rw [hinv.heldBits_eq]
    _ ≤ (ownedBits calls).length := List.toFinset_card_le _
    _ < reservedCount calls := length_ownedBits_lt h
    _ ≤ bitBound := hinv.reserved_le

/-- The count never reaches the header bits. -/
theorem Inv.header_eq {calls : List Call} (hinv : Inv bitBound stateHeader mem calls)
    (hH : ValidHeader stateHeader) :
    mem 0 &&& stateHeaderMask = stateHeader ∧ usedCount (mem 0) = calls.length := by
  have hlen := hinv.length_lt
  obtain ⟨hheader, hused⟩ := header_add_count hH (by omega) (mem 0) hinv.count
  exact ⟨(hheader.mpr hlen).symm, hused.trans (Nat.mod_eq_of_lt hlen)⟩

/-! ## One step of one call -/

/-- The reserving fetch-add, of either acquire. -/
theorem Inv.step_reserve (hinv : Inv bitBound stateHeader mem rest) (hH : ValidHeader stateHeader)
    (hB : bitBound ≤ maxBitCount) {variant : Variant}
    {bit : Nat} {tagHeader : Word} (hbit : bit < bitBound)
    (hretries : RetriesBelow bitBound (variant.next bitBound))
    (hlim : acquiresInProgress
      (Call.ofReservation variant bit (reserve bitBound tagHeader (mem 0)) :: rest) < 2 ^ 25) :
    Inv bitBound stateHeader (fetchAdd mem 0 1#32).2
      (Call.ofReservation variant bit (reserve bitBound tagHeader (fetchAdd mem 0 1#32).1) ::
        rest) := by
  simp only [fetchAdd]
  have hused := (hinv.header_eq hH).2
  have hcount := hinv.count
  have hv := toNat_valid_le hH
  have hlen := hinv.length_lt
  have hres : reservedCount
      (Call.ofReservation variant bit (reserve bitBound tagHeader (mem 0)) :: rest) ≤
        bitBound := by
    have hle : reservedCount rest ≤ rest.length := List.countP_le_length _
    cases hr : reserve bitBound tagHeader (mem 0) with
    | failed e => simpa [Call.ofReservation, Call.reserved] using hinv.reserved_le
    | reserved u =>
      have := (reserve_eq_reserved_iff.mp hr).2.1
      simp only [reservedCount_cons, Call.ofReservation, Call.reserved, if_true]
      omega
  have hlen' := length_le_reservedCount_add
    (Call.ofReservation variant bit (reserve bitBound tagHeader (mem 0)) :: rest)
  rw [maxBitCount_eq] at hB
  refine ⟨?_, by omega, hres, by simpa using hinv.nodup, by simpa using hinv.owned_lt,
    by simpa using hinv.bitmap, ?_⟩
  · simp only [Memory.write_same, List.length_cons]
    rw [toNat_add_one (by omega)]
    omega
  · intro variant' bit' used' hmem
    rcases List.mem_cons.mp hmem with h | h
    · cases hr : reserve bitBound tagHeader (mem 0) <;>
        simp [hr, Call.ofReservation] at h
      obtain ⟨rfl, rfl, -⟩ := h
      exact ⟨hbit, hretries⟩
    · exact hinv.searches _ _ _ h

/-- The fetch-sub that ends a failed acquire or a release: the call holds no bit and is not
searching, and its unit of the count goes. -/
theorem Inv.step_remove {call : Call} (hinv : Inv bitBound stateHeader mem (call :: rest))
    (howned : call.owned = none) :
    Inv bitBound stateHeader ((fetchSub mem 0 1#32).2) rest := by
  have hcount := hinv.count
  have hlen := hinv.length_lt
  simp only [List.length_cons] at hcount hlen
  refine ⟨?_, by omega, ?_, by simpa [howned] using hinv.nodup,
    by simpa [howned] using hinv.owned_lt, by simpa [fetchSub, howned] using hinv.bitmap,
    fun v b u h => hinv.searches v b u (List.mem_cons_of_mem _ h)⟩
  · simp only [fetchSub, Memory.write_same]
    rw [toNat_sub_one (by omega)]
    omega
  · have := hinv.reserved_le
    simp only [reservedCount_cons] at this
    omega

/-- The read of the header word by a release: the call keeps its bit and its unit. -/
theorem Inv.step_replace {call call' : Call} (hinv : Inv bitBound stateHeader mem (call :: rest))
    (howned : call'.owned = call.owned) (hreserved : call'.reserved = call.reserved)
    (hsearch : ∀ variant bit used, call' ≠ .searching variant bit used) :
    Inv bitBound stateHeader mem (call' :: rest) := by
  refine ⟨by simpa using hinv.count, by simpa using hinv.length_lt,
    by simpa [hreserved] using hinv.reserved_le, by simpa [howned] using hinv.nodup,
    by simpa [howned] using hinv.owned_lt, by simpa [howned] using hinv.bitmap, ?_⟩
  intro v b u h
  rcases List.mem_cons.mp h with h | h
  · exact absurd h.symm (hsearch v b u)
  · exact hinv.searches v b u (List.mem_cons_of_mem _ h)

/-- A pass of the search loop on a clear bit claims it. -/
theorem Inv.step_claim {variant : Variant} {bit used : Nat}
    (hinv : Inv bitBound stateHeader mem (.searching variant bit used :: rest))
    (hbit : bit < bitBound) (hclear : bitSet mem bit = false) :
    Inv bitBound stateHeader ((fetchOr mem (bit / 32 + 1) (bitMask bit)).2)
      (.holding bit :: rest) := by
  have hfree : bit ∉ ownedBits rest := fun h => by
    have := (hinv.bitmap bit (by omega)).mpr (by simpa [Call.owned] using h)
    simp [hclear] at this
  refine ⟨?_, by simpa using hinv.length_lt, by simpa [Call.reserved] using hinv.reserved_le,
    by simpa [Call.owned, hfree] using hinv.nodup, ?_, ?_, ?_⟩
  · simpa [fetchOr, Memory.write_other _ _ (show 0 ≠ bit / 32 + 1 by omega)] using hinv.count
  · simpa [Call.owned, hbit] using hinv.owned_lt
  · intro i hi
    rw [bitSet_fetchOr, Bool.or_eq_true, hinv.bitmap i hi]
    simp [Call.owned, Or.comm]
  · intro v b u h
    simp only [List.mem_cons, reduceCtorEq, false_or] at h
    exact hinv.searches v b u (List.mem_cons_of_mem _ h)

/-- A pass of the search loop on a set bit moves on, to a bit below the bound. -/
theorem Inv.step_retry {variant : Variant} {bit used : Nat}
    (hinv : Inv bitBound stateHeader mem (.searching variant bit used :: rest)) :
    Inv bitBound stateHeader mem
      (.searching variant (variant.next bitBound bit (mem (bit / 32 + 1))) used :: rest) := by
  obtain ⟨hbit, hretries⟩ := hinv.searches variant bit used (List.mem_cons_self _ _)
  obtain ⟨i, hi, hclear⟩ := hinv.exists_clear (List.mem_cons_self _ _)
  have hsmall : bitBound < 32 → countrOne (mem (bit / 32 + 1)) < bitBound := fun h => by
    rw [show bit / 32 = 0 by omega]
    exact countrOne_lt_of_clear h hi hclear
  refine ⟨by simpa using hinv.count, by simpa using hinv.length_lt,
    by simpa [Call.reserved] using hinv.reserved_le, by simpa [Call.owned] using hinv.nodup,
    by simpa [Call.owned] using hinv.owned_lt, by simpa [Call.owned] using hinv.bitmap, ?_⟩
  intro v b u h
  rcases List.mem_cons.mp h with h | h
  · cases h
    exact ⟨hretries bit _ hbit hsmall, hretries⟩
  · exact hinv.searches v b u (List.mem_cons_of_mem _ h)

/-- The fetch-and of a release clears the bit its call holds. -/
theorem Inv.step_clear {bit : Nat}
    (hinv : Inv bitBound stateHeader mem (.clearing bit :: rest)) :
    bitSet mem bit = true ∧
      Inv bitBound stateHeader ((fetchAnd mem (bit / 32 + 1) (~~~bitMask bit)).2)
        (.counting :: rest) := by
  have howned : bit ∈ ownedBits (.clearing bit :: rest) := by simp [Call.owned]
  have hbit := hinv.owned_lt bit howned
  have hnodup := hinv.nodup
  simp only [ownedBits_cons, Call.owned, Option.toList_some, List.singleton_append,
    List.nodup_cons] at hnodup
  refine ⟨(hinv.bitmap bit (by omega)).mpr howned, ?_, by simpa using hinv.length_lt,
    by simpa [Call.reserved] using hinv.reserved_le, by simpa [Call.owned] using hnodup.2,
    ?_, ?_, ?_⟩
  · simpa [fetchAnd, Memory.write_other _ _ (show 0 ≠ bit / 32 + 1 by omega)] using hinv.count
  · exact fun b hb => hinv.owned_lt b (by simp_all [Call.owned])
  · intro i hi
    rw [bitSet_fetchAnd, Bool.and_eq_true, hinv.bitmap i hi]
    by_cases h : i = bit
    · subst h
      simp [Call.owned, hnodup.1]
    · simp [Call.owned, h]
  · intro v b u h
    simp only [List.mem_cons, reduceCtorEq, false_or] at h
    exact hinv.searches v b u (List.mem_cons_of_mem _ h)

/-- One step of one call, with the calls in progress put in front of the others. -/
theorem Inv.callStep {call call' : Option Call} {mem' : Memory} {addr : Nat} {tag : Word → Prop}
    (hinv : Inv bitBound stateHeader mem (call.toList ++ rest)) (hH : ValidHeader stateHeader)
    (hB : bitBound ≤ maxBitCount) (h : CallStep bitBound tag mem call addr mem' call')
    (hlim : acquiresInProgress (call'.toList ++ rest) < 2 ^ 25) :
    Inv bitBound stateHeader mem' (call'.toList ++ rest) := by
  cases h with
  | reserveLg2 bitBoundLg2 bit _ _ hbound hbit =>
    subst hbound
    exact hinv.step_reserve hH hB hbit (retriesBelow_next_lg2 bitBoundLg2) hlim
  | reserveBounded bit _ _ hbit =>
    exact hinv.step_reserve hH hB hbit (retriesBelow_next_bounded _) hlim
  | undo => exact hinv.step_remove rfl
  | search variant bit used =>
    rw [claimStep_eq]
    cases hset : bitSet mem bit
    · exact hinv.step_claim (hinv.searches variant bit used (by simp)).1 hset
    · exact hinv.step_retry
  | readHeader => split <;> exact hinv.step_replace rfl rfl (by simp)
  | clear bit =>
    obtain ⟨hset, hinv'⟩ := hinv.step_clear
    rwa [if_neg (by simpa [fetchAnd, and_bitMask_eq_zero_iff, bitSet] using hset)]
  | count => exact hinv.step_remove rfl

/-- Every access is to a word of the buffer. -/
theorem Inv.addr_lt {call call' : Option Call} {mem' : Memory} {addr : Nat} {tag : Word → Prop}
    (hinv : Inv bitBound stateHeader mem (call.toList ++ rest)) (hB : bitBound ≤ maxBitCount)
    (h : CallStep bitBound tag mem call addr mem' call') : addr < bufferBound bitBound := by
  rw [bufferBound_eq hB]
  cases h with
  | search variant bit used =>
    have := (hinv.searches variant bit used (by simp)).1
    omega
  | clear bit =>
    have := hinv.owned_lt bit (by simp [Call.owned])
    omega
  | _ => omega

theorem perm_middle_front (pre calls post : List Call) :
    (pre ++ calls ++ post).Perm (calls ++ (pre ++ post)) := by
  simpa only [List.append_assoc] using (@List.perm_append_comm _ pre calls).append_right post

/-- One step of the system keeps the invariant. -/
theorem Inv.step {s s' : System} {addr : Nat} {tag : Word → Prop}
    (hinv : Inv bitBound stateHeader s.mem s.calls) (hH : ValidHeader stateHeader)
    (hB : bitBound ≤ maxBitCount) (h : Step bitBound tag s addr s')
    (hlim : acquiresInProgress s'.calls < 2 ^ 25) : Inv bitBound stateHeader s'.mem s'.calls := by
  obtain ⟨hcall⟩ := h
  rename_i pre post call call'
  have hlim' :=
    ((perm_middle_front pre call'.toList post).countP_eq Call.acquiring).symm.trans_lt hlim
  exact ((hinv.perm (perm_middle_front _ _ _)).callStep hH hB hcall hlim').perm
    (perm_middle_front _ _ _).symm

theorem inv_initial (hB : bitBound ≤ maxBitCount) (h : Initial bitBound stateHeader mem) :
    Inv bitBound stateHeader mem [] where
  count := by simp [h.1]
  length_lt := by simp
  reserved_le := by simp
  nodup := List.nodup_nil
  owned_lt := by simp
  bitmap i hi := by simp [h.bitSet_eq_false hB hi]
  searches := by simp

/-- Every state of a run along which fewer than `2^25` acquires are in progress at once
satisfies the invariant. -/
theorem Reachable.inv {s : System} {tag : Word → Prop} (hH : ValidHeader stateHeader)
    (hB : bitBound ≤ maxBitCount) (hs : Reachable bitBound stateHeader tag (2 ^ 25) s) :
    Inv bitBound stateHeader s.mem s.calls := by
  induction hs with
  | initial h => exact inv_initial hB h
  | step _ hstep hlim ih => exact ih.step hH hB hstep hlim

/-- With no call in progress, the buffer is as a sequential run leaves it. -/
theorem Inv.quiescent {calls : List Call} (hinv : Inv bitBound stateHeader mem calls)
    (hidle : Idle calls) : Quiescent bitBound stateHeader mem ∧
      (heldBits mem bitBound).card = (ownedBits calls).length := by
  have hcard : (heldBits mem bitBound).card = (ownedBits calls).length := by
    rw [hinv.heldBits_eq, List.toFinset_card_of_nodup hinv.nodup]
  refine ⟨⟨by rw [hinv.count, hcard, hidle.length_ownedBits], fun i hi hi' => ?_⟩, hcard⟩
  cases hset : bitSet mem i
  · rfl
  · exact absurd (hinv.owned_lt i ((hinv.bitmap i (by omega)).mp hset)) (by omega)

end Inv

end Kokkos.ConcurrentBitset
