import Kokkos.ConcurrentBitset.Runs

/-!
# A search running alone claims a bit

The search loop of an acquire is lock-free, not wait-free: other calls may take every bit
it tries. Run alone it ends. From any reachable state within the bound on acquires in
progress, a call in its search loop that makes its passes with no other call stepping in
claims a bit below the bound within `ceil(bitBound / 32) + 1` passes, for every bound that
fills whole words or stays below one word (`reachable_search_claims`). The free bit comes
from the call's own reservation (`Inv.exists_clear`); the loop of
`Kokkos.ConcurrentBitset.Search` finds it.

A run of one call alone is `SoloRun`: the accesses of that call, one after the other.
-/

namespace Kokkos.ConcurrentBitset

open BitVec

/-- `n` accesses of one call in a row with no other call stepping in: the call goes from
`call` to `call'` and the buffer from `mem` to `mem'`. -/
inductive SoloRun (bitBound : Nat) (tag : Word → Prop) :
    Nat → Memory → Call → Memory → Call → Prop
  | refl (mem : Memory) (call : Call) : SoloRun bitBound tag 0 mem call mem call
  | step {n addr : Nat} {mem mem' mem'' : Memory} {call call' call'' : Call} :
      CallStep bitBound tag mem (some call) addr mem' (some call') →
      SoloRun bitBound tag n mem' call' mem'' call'' →
      SoloRun bitBound tag (n + 1) mem call mem'' call''

section Solo

variable {bitBound : Nat} {stateHeader : Word} {tag : Word → Prop} {limit : Nat}

/-- Every state but the first of a run has fewer than `limit` acquires in progress. -/
theorem Reachable.lt_limit {s : System} (hs : Reachable bitBound stateHeader tag limit s)
    (hcalls : s.calls ≠ []) : acquiresInProgress s.calls < limit := by
  cases hs with
  | initial => exact absurd rfl hcalls
  | step _ _ hlim => exact hlim

/-- A run of one call alone, at its place among the others, from a reachable state. -/
theorem SoloRun.reachable {n : Nat} {mem mem' : Memory} {call call' : Call}
    (h : SoloRun bitBound tag n mem call mem' call') {pre post : List Call}
    (hs : Reachable bitBound stateHeader tag limit ⟨mem, pre ++ [call] ++ post⟩)
    (hlim : ∀ c : Call, acquiresInProgress (pre ++ [c] ++ post) < limit) :
    Reachable bitBound stateHeader tag limit ⟨mem', pre ++ [call'] ++ post⟩ := by
  induction h with
  | refl => exact hs
  | step hstep _ ih => exact ih (hs.step (Step.call hstep) (hlim _))

end Solo

theorem acquiresInProgress_middle_le (pre post : List Call) (c : Call) (variant : Variant)
    (bit stateBitUsed : Nat) :
    acquiresInProgress (pre ++ [c] ++ post) ≤
      acquiresInProgress (pre ++ [.searching variant bit stateBitUsed] ++ post) := by
  cases c <;> simp [Call.acquiring]

/-- Both choices of the next bit scan the words of the bitmap. -/
theorem scans_next (variant : Variant) (bitBound : Nat) :
    Scans bitBound (variant.next bitBound) := by
  cases variant
  · simpa [Variant.next, shiftRight_bitsPerIntLg2] using scans_nextBitLg2 bitBound
  · simpa [Variant.next, shiftRight_bitsPerIntLg2] using scans_nextBitBounded bitBound

/-- The passes of the search loop, taken one access at a time: a loop that claims within
`fuel` passes is a run of the searching call alone, of at most `fuel` accesses, that ends
holding the bit. -/
theorem soloRun_of_searchLoop {bitBound : Nat} (tag : Word → Prop) (variant : Variant)
    (stateBitUsed : Nat) (fuel : Nat) :
    ∀ {mem mem' : Memory} {bit claimed : Nat},
      searchLoop (variant.next bitBound) fuel mem bit = some (claimed, mem') →
      ∃ n ≤ fuel, SoloRun bitBound tag n mem (.searching variant bit stateBitUsed) mem'
        (.holding claimed) := by
  induction fuel with
  | zero => simp
  | succ fuel ih =>
    intro mem mem' bit claimed h
    have hstep := @CallStep.search bitBound tag mem variant bit stateBitUsed
    rw [searchLoop] at h
    rcases hclaim : claimStep (variant.next bitBound) mem bit with ⟨_ | next, mem₁⟩
    · rw [hclaim] at h hstep
      cases h
      exact ⟨1, by omega, .step hstep (.refl _ _)⟩
    · rw [hclaim] at h hstep
      obtain ⟨n, hn, hrun⟩ := ih h
      exact ⟨n + 1, by omega, .step hstep hrun⟩

/-- Obstruction freedom of the acquires: in every state reachable within the bound on
acquires in progress, a call in its search loop that runs alone claims a bit below the
bound, clear when it started, within `ceil(bitBound / 32) + 1` passes, and the state it
ends in is reachable. -/
theorem reachable_search_claims {bitBound : Nat} (hB : bitBound ≤ maxBitCount)
    (hshape : bitBound % 32 = 0 ∨ bitBound < 32) {stateHeader : Word}
    (hH : ValidHeader stateHeader) {tag : Word → Prop} {mem : Memory} {pre post : List Call}
    {variant : Variant} {bit stateBitUsed : Nat}
    (hs : Reachable bitBound stateHeader tag (2 ^ 25)
      ⟨mem, pre ++ [.searching variant bit stateBitUsed] ++ post⟩) :
    ∃ n ≤ (bitBound + 31) / 32 + 1, ∃ claimed mem', claimed < bitBound ∧
      bitSet mem claimed = false ∧
      SoloRun bitBound tag n mem (.searching variant bit stateBitUsed) mem' (.holding claimed) ∧
      Reachable bitBound stateHeader tag (2 ^ 25)
        ⟨mem', pre ++ [.holding claimed] ++ post⟩ := by
  have hinv := hs.inv hH hB
  have hmem : Call.searching variant bit stateBitUsed ∈
      pre ++ [.searching variant bit stateBitUsed] ++ post := by
    simp
  obtain ⟨hbit, -⟩ := hinv.searches _ _ _ hmem
  obtain ⟨claimed, hloop, hlt, hclear⟩ :=
    searchLoop_claims (scans_next variant bitBound) hshape (hinv.exists_clear hmem) hbit le_rfl
  obtain ⟨n, hn, hrun⟩ := soloRun_of_searchLoop tag variant stateBitUsed _ hloop
  have hstart := hs.lt_limit (by simp)
  exact ⟨n, hn, claimed, _, hlt, hclear, hrun, hrun.reachable hs fun c =>
    (acquiresInProgress_middle_le pre post c variant bit stateBitUsed).trans_lt hstart⟩

/-- The first acquire of a one-bit bound, run alone from its reservation. -/
theorem reachable_search_claims_first :
    ∃ mem, Reachable 1 0#32 (· = 0#32) (2 ^ 25)
        ⟨mem, [] ++ [.searching .bounded 0 0] ++ []⟩ ∧
      ∃ n ≤ (1 + 31) / 32 + 1, ∃ claimed mem', claimed < 1 ∧ bitSet mem claimed = false ∧
        SoloRun 1 (· = 0#32) n mem (.searching .bounded 0 0) mem' (.holding claimed) ∧
        Reachable 1 0#32 (· = 0#32) (2 ^ 25) ⟨mem', [] ++ [.holding claimed] ++ []⟩ := by
  have hreserve := @CallStep.reserveBounded 1 (· = 0#32) (zeroMemory 0#32) 0 0#32 rfl
    (by decide) (by decide)
  rw [show reserve 1 0#32 (fetchAdd (zeroMemory 0#32) 0 1#32).1 = .reserved 0 by decide] at hreserve
  have hs := (@Reachable.initial 1 0#32 (· = 0#32) (2 ^ 25) _ (initial_zeroMemory 1 0#32)).start
    hreserve (by simp [Call.ofReservation, Call.acquiring])
  exact ⟨_, hs, reachable_search_claims (by decide) (by decide) (by decide) hs⟩

end Kokkos.ConcurrentBitset
