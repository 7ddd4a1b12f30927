import Kokkos.ConcurrentBitset.Word

/-!
# The buffer and its atomics

The buffer is modelled as a total map from word indices to words, so that a step
reaching past `buffer_bound` is representable (and can be shown not to happen, or to
happen). The four atomics the source calls are sequentially consistent
read-modify-write operations returning the previous word, and the memory fences are
no-ops under that model.

The bitmap view `bitSet` reads bit `i` of the pool as bit `i % 32` of word
`i / 32 + 1`; the lemmas of this module say how each atomic changes that view.
-/

namespace Kokkos.ConcurrentBitset

open BitVec

/-- Word index to contents; index `0` is the header word. -/
abbrev Memory := Nat → Word

namespace Memory

/-- Overwrite one word. -/
def write (mem : Memory) (addr : Nat) (word : Word) : Memory := Function.update mem addr word

@[simp]
theorem write_same (mem : Memory) (addr : Nat) (word : Word) :
    mem.write addr word addr = word := by
  simp [write]

@[simp]
theorem write_other (mem : Memory) {addr other : Nat} (word : Word) (h : other ≠ addr) :
    mem.write addr word other = mem other := by
  simp [write, h]

@[simp]
theorem write_write (mem : Memory) (addr : Nat) (first second : Word) :
    (mem.write addr first).write addr second = mem.write addr second := by
  simp [write]

@[simp]
theorem write_self (mem : Memory) (addr : Nat) : mem.write addr (mem addr) = mem := by
  simp [write]

end Memory

/-! ## Atomics -/

/-- Modelled from the spec: `Kokkos::atomic_fetch_add`, a sequentially consistent
fetch-add returning the previous word. -/
def fetchAdd (mem : Memory) (addr : Nat) (value : Word) : Word × Memory :=
  (mem addr, mem.write addr (mem addr + value))

/-- Modelled from the spec: `Kokkos::atomic_fetch_sub`. -/
def fetchSub (mem : Memory) (addr : Nat) (value : Word) : Word × Memory :=
  (mem addr, mem.write addr (mem addr - value))

/-- Modelled from the spec: `Kokkos::atomic_fetch_or`. -/
def fetchOr (mem : Memory) (addr : Nat) (value : Word) : Word × Memory :=
  (mem addr, mem.write addr (mem addr ||| value))

/-- Modelled from the spec: `Kokkos::atomic_fetch_and`. -/
def fetchAnd (mem : Memory) (addr : Nat) (value : Word) : Word × Memory :=
  (mem addr, mem.write addr (mem addr &&& value))

/-- A failed reservation undoes itself: the fetch-add of one and the fetch-sub of one on
the same word restore the buffer exactly, whatever the word held. -/
@[simp]
theorem fetchSub_fetchAdd (mem : Memory) (addr : Nat) (value : Word) :
    (fetchSub (fetchAdd mem addr value).2 addr value).2 = mem := by
  simp [fetchAdd, fetchSub, BitVec.add_sub_cancel]

/-! ## The bitmap view -/

/-- Bit `i` of the pool: bit `i & 31` of word `(i >> 5) + 1`. -/
def bitSet (mem : Memory) (i : Nat) : Bool := (mem (i / 32 + 1)).getLsbD (i % 32)

/-- Writing the header word leaves the bitmap alone. -/
@[simp]
theorem bitSet_write_zero (mem : Memory) (word : Word) :
    bitSet (mem.write 0 word) = bitSet mem := by
  funext i
  simp [bitSet]

/-- `atomic_fetch_or` with the mask of `bit` on its word sets exactly that bit. -/
theorem bitSet_fetchOr (mem : Memory) (bit i : Nat) :
    bitSet (fetchOr mem (bit / 32 + 1) (bitMask bit)).2 i = (bitSet mem i || decide (i = bit)) := by
  simp only [bitSet, fetchOr]
  by_cases hw : i / 32 = bit / 32
  · have : (i % 32 = bit % 32) ↔ i = bit := ⟨fun h => by omega, fun h => h ▸ rfl⟩
    simp [hw, this]
  · have : i ≠ bit := fun h => hw (h ▸ rfl)
    simp [Memory.write_other _ _ (show i / 32 + 1 ≠ bit / 32 + 1 by omega), this]

/-- `atomic_fetch_and` with the complement of the mask of `bit` clears exactly that bit. -/
theorem bitSet_fetchAnd (mem : Memory) (bit i : Nat) :
    bitSet (fetchAnd mem (bit / 32 + 1) (~~~bitMask bit)).2 i =
      (bitSet mem i && !decide (i = bit)) := by
  simp only [bitSet, fetchAnd]
  by_cases hw : i / 32 = bit / 32
  · have : (i % 32 = bit % 32) ↔ i = bit := ⟨fun h => by omega, fun h => h ▸ rfl⟩
    simp [hw, this, Nat.mod_lt i (by decide : 32 > 0)]
  · have : i ≠ bit := fun h => hw (h ▸ rfl)
    simp [Memory.write_other _ _ (show i / 32 + 1 ≠ bit / 32 + 1 by omega), this]

/-- Or-ing in the mask of a bit that is already set leaves the word unchanged. -/
theorem or_bitMask_of_getLsbD {prev : Word} {bit : Nat} (h : prev.getLsbD (bit % 32) = true) :
    prev ||| bitMask bit = prev := by
  ext i
  by_cases hi : i.val = bit % 32
  · simp [hi, h]
  · simp [hi]

/-- And-ing out the mask of a bit that is already clear leaves the word unchanged. -/
theorem and_not_bitMask_of_getLsbD {prev : Word} {bit : Nat}
    (h : prev.getLsbD (bit % 32) = false) : prev &&& ~~~bitMask bit = prev := by
  ext i
  by_cases hi : i.val = bit % 32
  · simp [hi, h]
  · simp [hi]

/-- Clearing a bit that `atomic_fetch_or` has just set, on a word where it was clear,
restores the buffer. -/
theorem fetchAnd_fetchOr (mem : Memory) {bit : Nat} (hclear : bitSet mem bit = false) :
    (fetchAnd (fetchOr mem (bit / 32 + 1) (bitMask bit)).2 (bit / 32 + 1) (~~~bitMask bit)).2 =
      mem := by
  rw [bitSet] at hclear
  have hword : (mem (bit / 32 + 1) ||| bitMask bit) &&& ~~~bitMask bit = mem (bit / 32 + 1) := by
    ext i
    by_cases hi : i.val = bit % 32
    · simp [hi, hclear]
    · simp [hi]
  simp only [fetchAnd, fetchOr, Memory.write_same, Memory.write_write, hword, Memory.write_self]

/-! ## Held bits -/

/-- The bits below `bitBound` that the bitmap shows as claimed. -/
def heldBits (mem : Memory) (bitBound : Nat) : Finset Nat :=
  (Finset.range bitBound).filter fun i => bitSet mem i

@[simp]
theorem mem_heldBits {mem : Memory} {bitBound i : Nat} :
    i ∈ heldBits mem bitBound ↔ i < bitBound ∧ bitSet mem i = true := by
  simp [heldBits]

/-- Every bit below the bound is held exactly when the held set is all of `range`. -/
theorem heldBits_card_eq_iff (mem : Memory) (bitBound : Nat) :
    (heldBits mem bitBound).card = bitBound ↔ ∀ i < bitBound, bitSet mem i = true := by
  have h := Finset.card_filter_eq_iff (s := Finset.range bitBound) (p := fun i => bitSet mem i)
  rw [Finset.card_range] at h
  simpa [heldBits] using h

@[simp]
theorem heldBits_write_zero (mem : Memory) (word : Word) (bitBound : Nat) :
    heldBits (mem.write 0 word) bitBound = heldBits mem bitBound := by
  simp [heldBits]

theorem heldBits_fetchOr (mem : Memory) {bitBound bit : Nat} (hbit : bit < bitBound) :
    heldBits (fetchOr mem (bit / 32 + 1) (bitMask bit)).2 bitBound =
      insert bit (heldBits mem bitBound) := by
  ext i
  by_cases h : i = bit <;> simp [bitSet_fetchOr, h, hbit]

theorem heldBits_fetchAnd (mem : Memory) (bitBound bit : Nat) :
    heldBits (fetchAnd mem (bit / 32 + 1) (~~~bitMask bit)).2 bitBound =
      (heldBits mem bitBound).erase bit := by
  ext i
  by_cases h : i = bit <;> simp [bitSet_fetchAnd, h, And.comm]

theorem card_heldBits_le (mem : Memory) (bitBound : Nat) :
    (heldBits mem bitBound).card ≤ bitBound :=
  (Finset.card_filter_le _ _).trans (Finset.card_range bitBound).le

/-- Fewer held bits than the bound leaves a clear bit below the bound. -/
theorem exists_clear_of_card_lt {mem : Memory} {bitBound : Nat}
    (h : (heldBits mem bitBound).card < bitBound) : ∃ i < bitBound, bitSet mem i = false := by
  by_contra hall
  push_neg at hall
  have := (heldBits_card_eq_iff mem bitBound).mpr fun i hi => by simpa using hall i hi
  omega

end Kokkos.ConcurrentBitset
