import Kokkos.ConcurrentBitset.Sequential

/-!
# The bitset as a pool of slots

What the bitset is for, stated without words or bits: a pool of `capacity` slots, some of
them held. An acquire claims a free slot and returns it with the new number of held
slots, or returns `(-1, -1)` when every slot is held. A release of a held slot frees it and
returns the new number of held slots; a release of a free slot returns `-1` and changes
nothing.

A buffer stands for the pool of its held bits (`pool`). On a buffer between two calls of a
sequential run, every acquire and every release of a bit below the bound is a step of the
pool with the result the pool gives (`Quiescent.acquireBounded_refines`,
`Quiescent.acquireBoundedLg2_refines`, `Quiescent.release_refines`), and so is every call
made on a buffer that a sequential run reaches (`SequentialRun.refines`).
-/

namespace Kokkos.ConcurrentBitset

open BitVec

/-- A pool of `capacity` slots: the held slots, all below the capacity. -/
@[ext]
structure Pool (capacity : Nat) where
  held : Finset Nat
  held_lt : ∀ slot ∈ held, slot < capacity

namespace Pool

variable {capacity : Nat}

/-- The pool with `slot` held as well. -/
def claim (p : Pool capacity) (slot : Nat) (h : slot < capacity) : Pool capacity :=
  ⟨insert slot p.held, by simpa [Finset.mem_insert, forall_eq_or_imp] using ⟨h, p.held_lt⟩⟩

/-- The pool with `slot` free. -/
def free (p : Pool capacity) (slot : Nat) : Pool capacity :=
  ⟨p.held.erase slot, fun s hs => p.held_lt s (Finset.mem_of_mem_erase hs)⟩

/-- An acquire of the pool: `(-1, -1)` when every slot is held, else a free slot claimed
and returned with the new number of held slots. -/
inductive Acquire : Pool capacity → Int × Int → Pool capacity → Prop
  | full {p : Pool capacity} : p.held.card = capacity → Acquire p (-1, -1) p
  | claim {p : Pool capacity} (slot : Nat) (h : slot < capacity) : slot ∉ p.held →
      Acquire p (slot, ((p.held.card + 1 : Nat) : Int)) (p.claim slot h)

/-- A release of `slot`: a held slot is freed and the new number of held slots returned, a
free slot gives `-1`. -/
inductive Release : Pool capacity → Nat → Int → Pool capacity → Prop
  | held {p : Pool capacity} {slot : Nat} : slot ∈ p.held →
      Release p slot ((p.held.card : Int) - 1) (p.free slot)
  | free {p : Pool capacity} {slot : Nat} : slot ∉ p.held → Release p slot (-1) p

end Pool

/-! ## The buffer as a pool -/

/-- The pool a buffer stands for: its held bits. -/
def pool (mem : Memory) (bitBound : Nat) : Pool bitBound :=
  ⟨heldBits mem bitBound, fun _ h => (mem_heldBits.mp h).1⟩

@[simp]
theorem pool_held (mem : Memory) (bitBound : Nat) :
    (pool mem bitBound).held = heldBits mem bitBound :=
  rfl

/-- The outcome of an acquire on a buffer is an acquire of its pool. -/
theorem AcquireOutcome.poolAcquire {bitBound : Nat} {mem mem' : Memory} {result : Int × Int}
    (h : AcquireOutcome bitBound mem result mem') :
    Pool.Acquire (pool mem bitBound) result (pool mem' bitBound) := by
  rcases h with ⟨rfl, rfl, hcard⟩ | ⟨claimed, rfl, hlt, hclear, hheld⟩
  · exact .full hcard
  · have hfree : claimed ∉ heldBits mem bitBound := by simp [mem_heldBits, hclear]
    have hpool : pool mem' bitBound = (pool mem bitBound).claim claimed hlt := by
      ext1
      exact hheld
    rw [hpool, hheld, Finset.card_insert_of_not_mem hfree]
    exact .claim claimed hlt hfree

section Refinement

variable {bitBound : Nat} {stateHeader : Word} {mem mem' : Memory} (hH : ValidHeader stateHeader)
  (hB : bitBound ≤ maxBitCount)
include hH hB

/-- Between two calls of a sequential run, whatever `acquire_bounded` returns is an acquire
of the buffer's pool. -/
theorem Quiescent.acquireBounded_refines (hq : Quiescent bitBound stateHeader mem) {fuel hint : Nat}
    (hhint : hint < bitBound) {result : Int × Int}
    (h : acquireBounded fuel mem bitBound hint stateHeader = some (result, mem')) :
    Pool.Acquire (pool mem bitBound) result (pool mem' bitBound) := by
  rw [acquireBounded_eq, if_neg (Bool.eq_false_iff.mp (acquireBoundedRejects_eq_false hB hH hhint))]
    at h
  exact (hq.acquire hH hB (retriesBelow_nextBitBounded bitBound) hhint h).2.poolAcquire

/-- The same for `acquire_bounded_lg2` with `2^lg2` bits. -/
theorem Quiescent.acquireBoundedLg2_refines {bitBoundLg2 : Nat} (hpow : 2 ^ bitBoundLg2 = bitBound)
    (hq : Quiescent bitBound stateHeader mem) {fuel hint : Nat} (hhint : hint < bitBound)
    {result : Int × Int}
    (h : acquireBoundedLg2 fuel mem bitBoundLg2 hint stateHeader = some (result, mem')) :
    Pool.Acquire (pool mem bitBound) result (pool mem' bitBound) := by
  subst hpow
  have hlg2 : bitBoundLg2 ≤ maxBitCountLg2 := by
    rw [maxBitCount_eq] at hB
    exact (Nat.pow_le_pow_iff_right (by decide)).mp hB
  rw [acquireBoundedLg2_eq, if_neg (Bool.eq_false_iff.mp
    (acquireBoundedLg2Rejects_eq_false hlg2 hH hhint.le))] at h
  exact (hq.acquire hH hB (retriesBelow_nextBitLg2 bitBoundLg2) hhint h).2.poolAcquire

/-- Between two calls of a sequential run, a release of a bit below the bound is a release
of the buffer's pool, held or not. -/
theorem Quiescent.release_refines (hq : Quiescent bitBound stateHeader mem) {bit : Nat}
    (hbit : bit < bitBound) {result : Int}
    (h : ConcurrentBitset.release mem bit stateHeader = (result, mem')) :
    Pool.Release (pool mem bitBound) bit result (pool mem' bitBound) := by
  rw [release_eq, if_neg (not_not.mpr (hq.header_eq hH hB).symm)] at h
  by_cases hset : bitSet mem bit
  · rw [if_pos hset] at h
    cases h
    have hpool : pool (((fetchAnd mem (bit / 32 + 1) (~~~bitMask bit)).2).write 0 (mem 0 - 1#32))
        bitBound = (pool mem bitBound).free bit := by
      ext1
      exact (hq.release hset hbit).2
    rw [hpool, hq.usedCount_eq hH hB]
    exact .held (mem_heldBits.mpr ⟨hbit, hset⟩)
  · rw [if_neg hset] at h
    cases h
    exact .free (by simp [mem_heldBits, hset])

/-- Sequential runs refine the pool: on every buffer a sequential run reaches, every acquire
with a hint below the bound and every release of a bit below the bound is an operation of
the buffer's pool, with the pool's result. -/
theorem SequentialRun.refines (hrun : SequentialRun bitBound stateHeader mem) :
    (∀ fuel hint result mem₁, hint < bitBound →
        acquireBounded fuel mem bitBound hint stateHeader = some (result, mem₁) →
          Pool.Acquire (pool mem bitBound) result (pool mem₁ bitBound)) ∧
      (∀ fuel bitBoundLg2 hint result mem₁, 2 ^ bitBoundLg2 = bitBound → hint < bitBound →
        acquireBoundedLg2 fuel mem bitBoundLg2 hint stateHeader = some (result, mem₁) →
          Pool.Acquire (pool mem bitBound) result (pool mem₁ bitBound)) ∧
      ∀ bit result mem₁, bit < bitBound →
        ConcurrentBitset.release mem bit stateHeader = (result, mem₁) →
          Pool.Release (pool mem bitBound) bit result (pool mem₁ bitBound) := by
  have hq := hrun.quiescent hH hB
  exact ⟨fun _ _ _ _ hhint h => hq.acquireBounded_refines hH hB hhint h,
    fun _ _ _ _ _ hpow hhint h => hq.acquireBoundedLg2_refines hH hB hpow hhint h,
    fun _ _ _ hbit h => hq.release_refines hH hB hbit h⟩

end Refinement

/-- On a 64-bit bound whose bits `0` to `39` a sequential run has claimed, every acquire and
release is an operation of the pool of those forty slots. -/
theorem SequentialRun.refines_filled :
    ∃ mem, SequentialRun 64 0#32 mem ∧ (pool mem 64).held = Finset.range 40 ∧
      (∀ fuel hint result mem₁, hint < 64 →
        acquireBounded fuel mem 64 hint 0#32 = some (result, mem₁) →
          Pool.Acquire (pool mem 64) result (pool mem₁ 64)) ∧
      (∀ fuel bitBoundLg2 hint result mem₁, 2 ^ bitBoundLg2 = 64 → hint < 64 →
        acquireBoundedLg2 fuel mem bitBoundLg2 hint 0#32 = some (result, mem₁) →
          Pool.Acquire (pool mem 64) result (pool mem₁ 64)) ∧
      ∀ bit result mem₁, bit < 64 →
        ConcurrentBitset.release mem bit 0#32 = (result, mem₁) →
          Pool.Release (pool mem 64) bit result (pool mem₁ 64) := by
  obtain ⟨mem, hrun, hheld⟩ := @sequentialRun_fill 64 0#32 (by decide) (by decide) 40 (by decide)
  exact ⟨mem, hrun, hheld, SequentialRun.refines (by decide) (by decide) hrun⟩

end Kokkos.ConcurrentBitset
