import Kokkos.ConcurrentBitset.Sequential

/-!
# Concurrent calls, one atomic step at a time

Any number of threads call `acquire_bounded_lg2`, `acquire_bounded` and `release` on one
buffer. A thread's call is visible to the others only through its accesses to the buffer:
the reserving `atomic_fetch_add`, the undoing `atomic_fetch_sub`, one `atomic_fetch_or` per
pass of the search loop, and, in `release`, the read of the header word, the
`atomic_fetch_and` and the decrementing `atomic_fetch_sub`. All of these are sequentially
consistent, so an interleaving is a sequence of such accesses, each by one call.

The system keeps the buffer and the list of calls in progress. A bit a thread holds is an
entry `holding bit` of that list: it is created by the `atomic_fetch_or` that claims the
bit, and a release of the bit starts from it. The argument checks of the acquires and the
computation of the next bit touch no shared word, so they are folded into the access
after them. A step is labelled with the index of the word it reads or writes.

Which calls may start is a parameter of the step relation: the bound `bitBound` they all
use, and the headers `tag` they may pass. `Reachable` also bounds the number of acquires
in progress at any one time, a restriction the source's header comment names.
-/

namespace Kokkos.ConcurrentBitset

open BitVec

/-- Which of the two acquires a call runs; with one bound for all calls they differ only
in how the next bit is chosen after a lost race. -/
inductive Variant
  | lg2
  | bounded
  deriving DecidableEq, Repr

/-- The bit tried after losing `bit`: `acquire_bounded_lg2` with `bit_bound = 1 << lg2 =
bitBound`, or `acquire_bounded` with `bitBound`; both take `word_count = bit_bound >> 5`. -/
def Variant.next (bitBound : Nat) : Variant → Nat → Word → Nat
  | .lg2 => nextBitLg2 (bitBound >>> bitsPerIntLg2)
  | .bounded => nextBitBounded bitBound (bitBound >>> bitsPerIntLg2)

/-- Where a call is, between two of its accesses to the buffer. -/
inductive Call
  /-- A failed reservation, about to undo itself with `atomic_fetch_sub(buffer, 1)`. -/
  | undoing (stateError : Bool)
  /-- An acquire in its `while (1)` loop, about to `atomic_fetch_or` the mask of `bit`. -/
  | searching (variant : Variant) (bit stateBitUsed : Nat)
  /-- A claimed bit, not yet released; its release starts by reading the header word. -/
  | holding (bit : Nat)
  /-- A release past its header check, about to `atomic_fetch_and` the mask of `bit` out. -/
  | clearing (bit : Nat)
  /-- A release that cleared its bit, about to decrement the count. -/
  | counting
  deriving DecidableEq, Repr

/-- The call after its reserving fetch-add: undoing a failure, or searching from the hint. -/
def Call.ofReservation (variant : Variant) (bit : Nat) : Reservation → Call
  | .failed stateError => .undoing stateError
  | .reserved stateBitUsed => .searching variant bit stateBitUsed

/-- The call after one pass of its search loop. -/
def Call.ofClaim (variant : Variant) (bit stateBitUsed : Nat) : Claim → Call
  | .claimed => .holding bit
  | .retry next => .searching variant next stateBitUsed

/-- The bit a call holds: from the claiming fetch-or until the fetch-and of its release. -/
def Call.owned : Call → Option Nat
  | .holding bit | .clearing bit => some bit
  | _ => none

/-- Whether a call passed its reservation and has not yet given it back. -/
def Call.reserved : Call → Bool
  | .undoing _ => false
  | _ => true

/-- Whether a call is an acquire in progress. -/
def Call.acquiring : Call → Bool
  | .undoing _ | .searching .. => true
  | _ => false

/-- The buffer and the calls in progress. -/
structure System where
  mem : Memory
  calls : List Call

/-- The bits the calls hold. -/
def ownedBits (calls : List Call) : List Nat := calls.filterMap Call.owned

/-- The calls that passed their reservation and have not yet decremented the count. -/
def reservedCount (calls : List Call) : Nat := calls.countP Call.reserved

/-- The acquires between a failed reservation and the fetch-sub that undoes it. -/
def failedCount (calls : List Call) : Nat := calls.countP fun call => !call.reserved

/-- The acquires in progress. -/
def acquiresInProgress (calls : List Call) : Nat := calls.countP Call.acquiring

/-- No call in progress: every entry is a held bit. -/
def Idle (calls : List Call) : Prop := ∀ call ∈ calls, ∃ bit, call = .holding bit

/-! ## Steps -/

/-- One access of one call to the buffer, at word `addr`: the call goes from `call` to
`call'` (`none` before it starts and after it returns) and the buffer from `mem` to
`mem'`. -/
inductive CallStep (bitBound : Nat) (tag : Word → Prop) :
    Memory → Option Call → Nat → Memory → Option Call → Prop
  /-- `acquire_bounded_lg2(buffer, lg2, bit, stateHeader)` with `1 << lg2 = bitBound`, past
  its argument check, makes its reserving fetch-add. -/
  | reserveLg2 {mem : Memory} (bitBoundLg2 bit : Nat) (stateHeader : Word)
      (htag : tag stateHeader) (hbound : 2 ^ bitBoundLg2 = bitBound) (hbit : bit < bitBound)
      (hcheck : acquireBoundedLg2Rejects bitBoundLg2 bit stateHeader = false) :
      CallStep bitBound tag mem none 0 (fetchAdd mem 0 1#32).2
        (some (.ofReservation .lg2 bit (reserve bitBound stateHeader (fetchAdd mem 0 1#32).1)))
  /-- `acquire_bounded(buffer, bitBound, bit, stateHeader)`, past its argument check, makes
  its reserving fetch-add. -/
  | reserveBounded {mem : Memory} (bit : Nat) (stateHeader : Word) (htag : tag stateHeader)
      (hbit : bit < bitBound) (hcheck : acquireBoundedRejects bitBound bit stateHeader = false) :
      CallStep bitBound tag mem none 0 (fetchAdd mem 0 1#32).2
        (some (.ofReservation .bounded bit (reserve bitBound stateHeader (fetchAdd mem 0 1#32).1)))
  /-- A failed reservation gives its count back and returns `failedResult stateError`. -/
  | undo {mem : Memory} (stateError : Bool) :
      CallStep bitBound tag mem (some (.undoing stateError)) 0 (fetchSub mem 0 1#32).2 none
  /-- One pass of the search loop. -/
  | search {mem : Memory} (variant : Variant) (bit stateBitUsed : Nat) :
      CallStep bitBound tag mem (some (.searching variant bit stateBitUsed)) (bit / 32 + 1)
        (claimStep (variant.next bitBound) mem bit).2
        (some (.ofClaim variant bit stateBitUsed (claimStep (variant.next bitBound) mem bit).1))
  /-- The holder of `bit` calls `release(buffer, bit, stateHeader)`, which reads the header
  word; on a mismatch it returns `-2` and the bit stays held. -/
  | readHeader {mem : Memory} (bit : Nat) (stateHeader : Word) (htag : tag stateHeader) :
      CallStep bitBound tag mem (some (.holding bit)) 0 mem
        (some (if stateHeader ≠ stateHeaderMask &&& mem 0 then .holding bit else .clearing bit))
  /-- The release clears its bit; it returns `-1` if the bit was already clear. -/
  | clear {mem : Memory} (bit : Nat) :
      CallStep bitBound tag mem (some (.clearing bit)) (bit / 32 + 1)
        (fetchAnd mem (bit / 32 + 1) (~~~bitMask bit)).2
        (if (fetchAnd mem (bit / 32 + 1) (~~~bitMask bit)).1 &&& bitMask bit = 0#32 then none
          else some .counting)
  /-- The release decrements the count and returns. -/
  | count {mem : Memory} :
      CallStep bitBound tag mem (some .counting) 0 (fetchSub mem 0 1#32).2 none

/-- One call, anywhere in the list, takes one step. -/
inductive Step (bitBound : Nat) (tag : Word → Prop) : System → Nat → System → Prop
  | call {mem mem' : Memory} {pre post : List Call} {call call' : Option Call} {addr : Nat} :
      CallStep bitBound tag mem call addr mem' call' →
      Step bitBound tag ⟨mem, pre ++ call.toList ++ post⟩ addr
        ⟨mem', pre ++ call'.toList ++ post⟩

/-- The states of runs from a buffer as its owner sets it up, with no call in progress,
along which fewer than `limit` acquires are ever in progress at once. -/
inductive Reachable (bitBound : Nat) (stateHeader : Word) (tag : Word → Prop) (limit : Nat) :
    System → Prop
  | initial {mem : Memory} : Initial bitBound stateHeader mem →
      Reachable bitBound stateHeader tag limit ⟨mem, []⟩
  | step {s s' : System} {addr : Nat} : Reachable bitBound stateHeader tag limit s →
      Step bitBound tag s addr s' → acquiresInProgress s'.calls < limit →
      Reachable bitBound stateHeader tag limit s'

/-! ## Counting calls -/

@[simp]
theorem ownedBits_nil : ownedBits [] = [] := rfl

@[simp]
theorem ownedBits_cons (call : Call) (calls : List Call) :
    ownedBits (call :: calls) = call.owned.toList ++ ownedBits calls := by
  cases h : call.owned <;> simp [ownedBits, List.filterMap_cons, h]

@[simp]
theorem ownedBits_append (calls calls' : List Call) :
    ownedBits (calls ++ calls') = ownedBits calls ++ ownedBits calls' :=
  List.filterMap_append _ _ _

@[simp]
theorem reservedCount_nil : reservedCount [] = 0 := rfl

@[simp]
theorem reservedCount_cons (call : Call) (calls : List Call) :
    reservedCount (call :: calls) = reservedCount calls + if call.reserved then 1 else 0 := by
  simp [reservedCount, List.countP_cons]

@[simp]
theorem acquiresInProgress_nil : acquiresInProgress [] = 0 := rfl

@[simp]
theorem acquiresInProgress_cons (call : Call) (calls : List Call) :
    acquiresInProgress (call :: calls) =
      acquiresInProgress calls + if call.acquiring then 1 else 0 := by
  simp [acquiresInProgress, List.countP_cons]

theorem reservedCount_add_failedCount (calls : List Call) :
    reservedCount calls + failedCount calls = calls.length := by
  rw [List.length_eq_countP_add_countP Call.reserved]
  simp [reservedCount, failedCount]

/-- With no call in progress, each call holds one bit. -/
theorem Idle.length_ownedBits {calls : List Call} (h : Idle calls) :
    (ownedBits calls).length = calls.length := by
  induction calls with
  | nil => rfl
  | cons call calls ih =>
    obtain ⟨bit, rfl⟩ := h call (List.mem_cons_self _ _)
    simp [Call.owned, ih fun c hc => h c (List.mem_cons_of_mem _ hc)]

@[simp]
theorem acquiresInProgress_append (calls calls' : List Call) :
    acquiresInProgress (calls ++ calls') = acquiresInProgress calls + acquiresInProgress calls' :=
  List.countP_append _ _ _

@[simp]
theorem Call.acquiring_ofReservation (variant : Variant) (bit : Nat) (r : Reservation) :
    (Call.ofReservation variant bit r).acquiring = true := by
  cases r <;> rfl

theorem ownedBits_perm {calls calls' : List Call} (h : calls.Perm calls') :
    (ownedBits calls).Perm (ownedBits calls') :=
  h.filterMap _

theorem reservedCount_perm {calls calls' : List Call} (h : calls.Perm calls') :
    reservedCount calls = reservedCount calls' :=
  h.countP_eq _

/-- Every call in progress is a reservation or an acquire that failed its own. -/
theorem length_le_reservedCount_add (calls : List Call) :
    calls.length ≤ reservedCount calls + acquiresInProgress calls := by
  induction calls with
  | nil => simp
  | cons call calls ih => cases call <;> simp [Call.reserved, Call.acquiring] <;> omega

/-- A call that holds a bit holds a reservation. -/
theorem length_ownedBits_le (calls : List Call) :
    (ownedBits calls).length ≤ reservedCount calls := by
  induction calls with
  | nil => simp
  | cons call calls ih => cases call <;> simp [Call.owned, Call.reserved] <;> omega

/-- A search in progress holds a reservation but no bit. -/
theorem length_ownedBits_lt {calls : List Call} {variant : Variant} {bit stateBitUsed : Nat}
    (h : Call.searching variant bit stateBitUsed ∈ calls) :
    (ownedBits calls).length < reservedCount calls := by
  induction calls with
  | nil => simp at h
  | cons call calls ih =>
    rcases List.mem_cons.mp h with rfl | hmem
    · simpa [Call.owned, Call.reserved] using Nat.lt_succ_of_le (length_ownedBits_le calls)
    · have := ih hmem
      cases call <;> simp [Call.owned, Call.reserved] <;> omega

end Kokkos.ConcurrentBitset
