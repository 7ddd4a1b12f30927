import Kokkos.SYCLReduction.LocalMemory

/-!
# The shuffle-based work-group reduction

The second overload of `workgroup_reduction`, for reducers with
`use_shuffle_based_algorithm` (which the trait gives to no reducer today). Every work-item
brings its value `local_value`; the sub-group shuffle `shift_group_left` moves values
between the lanes of one sub-group, and `local_mem` only carries one result per sub-group
from the first phase to the second.

1. In every sub-group, a tree with strides `1, 2, 4, …` below `local_range`: a lane joins
   the value shifted down from `stride` lanes up while `stride < upper_stride_bound`.
2. Lane `0` of every sub-group up to `n_active_subgroups` stores its value at
   `local_mem[sg_group_id]`.
3. In the first sub-group, lane `p` starts from `local_mem[p]` (from `local_mem[0]` past the
   active sub-groups), joins `local_mem[p + offset]` for the offsets from `local_range` on,
   and runs the tree again with the guard `id_in_sg + stride < n_active_subgroups`.

Each stride loop is written twice in the source: a `for` loop, and, where
`KOKKOS_ARCH_INTEL_GPU` or `KOKKOS_IMPL_ARCH_NVIDIA_GPU` is defined, the five calls
`shuffle_combine(1)` to `shuffle_combine(16)` (`ShufflePath`). The two
differ in the types of their comparisons: the loop's `stride` is an `unsigned int`, so the
`int` bounds it meets are converted to `unsigned int`; `shuffle_combine` takes an `int`.
Conversions to `int` and `unsigned int` are taken modulo `2^32` (`toInt32`, `toUInt32`).

`shift_group_left` returns an unspecified value when the lane it reads is past the
sub-group. A lane holds an `Option`: `none` is a value that depends on an unspecified one,
and joining it gives `none` again (`Option.map₂`). As in
`Kokkos.SYCLReduction.LocalMemory`, each pass of a loop is one synchronous round. The
sub-groups, which exchange nothing during the first phase, take their passes in step,
each lane checking its own `local_range`.
-/

namespace Kokkos.SYCLReduction

/-- A value stored in an `int`: its residue modulo `2^32`, read in two's complement. -/
def toInt32 (x : Int) : Int :=
  if x % 2 ^ 32 < 2 ^ 31 then x % 2 ^ 32 else x % 2 ^ 32 - 2 ^ 32

/-- An `int` converted to `unsigned int`. -/
def toUInt32 (x : Int) : Nat := (x % 2 ^ 32).toNat

theorem toInt32_of_lt {x : Int} (h0 : -2 ^ 31 ≤ x) (h : x < 2 ^ 31) : toInt32 x = x := by
  unfold toInt32
  split <;> omega

theorem toUInt32_of_lt {x : Int} (h0 : 0 ≤ x) (h : x < 2 ^ 32) : toUInt32 x = x.toNat := by
  unfold toUInt32
  omega

/-- The two versions of each stride loop: the `for` loop, and the unrolled calls of
`shuffle_combine` compiled where `KOKKOS_ARCH_INTEL_GPU` or `KOKKOS_IMPL_ARCH_NVIDIA_GPU` is
defined. -/
inductive ShufflePath
  | loop
  | unrolled
  deriving DecidableEq, Repr

namespace ShufflePath

/-- `a < b` against an `int` bound `b`: on the loop path `a` is an `unsigned int` and `b`
is converted to `unsigned int`; on the unrolled path both are `int`s. -/
def lt : ShufflePath → Nat → Int → Bool
  | loop, a, b => a % 2 ^ 32 < toUInt32 b
  | unrolled, a, b => (a : Int) < b

/-- The strides a path runs for a `local_range` of `localRange`: the loop's `1, 2, 4, …`
below it, or the five calls, each of which checks `stride < local_range` itself. -/
def strideList : ShufflePath → Int → List Nat
  | loop, localRange => strides (toUInt32 localRange)
  | unrolled, _ => [1, 2, 4, 8, 16]

end ShufflePath

namespace Launch

variable (launch : Launch)

/-- `local_range = std::min<int>(sg.get_local_range()[0], max_size)` of work-item
`localId`. -/
def localRangeInt (localId : Nat) : Int :=
  min (toInt32 (launch.subgroupRange (localId / launch.maxSubgroupSize)))
    (toInt32 launch.maxSize)

/-- `upper_stride_bound = std::min<int>(local_range - id_in_sg, max_size - local_id)`:
`local_id` is a `size_t`, so `max_size - local_id` wraps before it becomes an `int`. -/
def upperStrideBoundInt (localId : Nat) : Int :=
  min (toInt32 (launch.localRangeInt localId - launch.idInSg localId))
    (toInt32 ((launch.maxSize : Int) - localId))

/-- `n_active_subgroups = (max_size + max_subgroup_size - 1) / max_subgroup_size`, computed
in `unsigned int` and stored in an `int`. -/
def nActiveSubgroups : Int :=
  toInt32 (((launch.maxSize + launch.maxSubgroupSize + (2 ^ 32 - 1)) % 2 ^ 32 /
    launch.maxSubgroupSize : Nat))

end Launch

section Shuffle

variable {α : Type*} (launch : Launch) (join : α → α → α)

/-- `shift_group_left(sg, x, delta)` as work-item `localId` sees it: the value of the
work-item `delta` lanes up in its sub-group, unspecified (`none`) past the sub-group's
last lane. -/
def shiftGroupLeft (values : Nat → Option α) (delta localId : Nat) : Option α :=
  if launch.idInSg localId + delta < launch.subgroupRange (localId / launch.maxSubgroupSize)
  then values (localId + delta)
  else none

/-- A pass of the first stride loop at `stride`, every work-item in step (lines 164-170
and 178-182): a lane within its `local_range` shifts, and joins the shifted value while
`stride < upper_stride_bound`. -/
def shufflePhase1Step (path : ShufflePath) (values : Nat → Option α) (stride localId : Nat) :
    Option α :=
  if path.lt stride (launch.localRangeInt localId) ∧
      path.lt stride (launch.upperStrideBoundInt localId) then
    Option.map₂ join (values localId) (shiftGroupLeft launch values stride localId)
  else values localId

/-- The first phase, all sub-groups in step; sub-group `0` has the widest `local_range`. -/
def shufflePhase1 (path : ShufflePath) (values : Nat → Option α) : Nat → Option α :=
  (path.strideList (launch.localRangeInt 0)).foldl (shufflePhase1Step launch join path) values

/-- Lines 187-192: lane `0` of sub-group `sg_group_id` stores its value at
`local_mem[sg_group_id]` when `sg_group_id <= n_active_subgroups`. -/
def storeResults (values localMem : Nat → Option α) (slot : Nat) : Option α :=
  if slot < launch.nSubgroups ∧ (slot : Int) ≤ launch.nActiveSubgroups then
    values (slot * launch.maxSubgroupSize)
  else localMem slot

/-- Line 198: lane `p` of the first sub-group starts from
`local_mem[id_in_sg < n_active_subgroups ? id_in_sg : 0]`. -/
def phase2Start (localMem : Nat → Option α) (p : Nat) : Option α :=
  localMem (if (p : Int) < launch.nActiveSubgroups then p else 0)

/-- A pass of the offset loop (lines 204-208): lane `p` joins `local_mem[id_in_sg + offset]`
while `id_in_sg + offset < n_active_subgroups`. -/
def shuffleOffsetStep (localMem values : Nat → Option α) (offset p : Nat) : Option α :=
  if (p + offset : Int) < launch.nActiveSubgroups then
    Option.map₂ join (values p) (localMem (p + offset))
  else values p

/-- The offset loop, run when `n_active_subgroups > local_range` (lines 203-210). -/
def shuffleOffsets (localMem values : Nat → Option α) : Nat → Option α :=
  if launch.localRangeInt 0 < launch.nActiveSubgroups then
    (offsets (launch.localRangeInt 0).toNat launch.nActiveSubgroups.toNat).foldl
      (shuffleOffsetStep launch join localMem) values
  else values

/-- A pass of the second stride loop on lane `p` of the first sub-group (lines 214-234). -/
def shufflePhase2Step (path : ShufflePath) (values : Nat → Option α) (stride p : Nat) :
    Option α :=
  if path.lt stride (launch.localRangeInt 0) ∧ path.lt (p + stride) launch.nActiveSubgroups
  then Option.map₂ join (values p) (shiftGroupLeft launch values stride p)
  else values p

/-- The value lane `0` of the first sub-group ends with, which it copies to `results_ptr`. -/
def shuffleReduction (path : ShufflePath) (values : Nat → α) (localMem : Nat → Option α) :
    Option α :=
  let localMem := storeResults launch (shufflePhase1 launch join path (some ∘ values)) localMem
  (path.strideList (launch.localRangeInt 0)).foldl (shufflePhase2Step launch join path)
    (shuffleOffsets launch join localMem (phase2Start launch localMem)) 0

/-- With `max_size = 0` no guard passes, on either path: lane `0` keeps its own value,
stored at `local_mem[0]` and read back, not the value of an empty reduction. -/
example : shuffleReduction ⟨4, 2, 0⟩ (· + ·) .unrolled (fun i => i + 7) (fun _ => none) =
    some 7 := by
  decide

end Shuffle

end Kokkos.SYCLReduction
