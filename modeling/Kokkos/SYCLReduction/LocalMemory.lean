import Mathlib

/-!
# The local-memory work-group reduction

`workgroup_reduction` for reducers that do not use the shuffle-based algorithm (that is,
for every reducer: `use_shuffle_based_algorithm` is `false`). Every work-item `local_id`
of a work-group of `groupSize` items owns the slot `local_mem[local_id * value_count ..]`.
The work-group is split into sub-groups of `maxSubgroupSize` items, the last one possibly
shorter, and the reduction runs in two phases:

1. in every sub-group, a tree with strides `1, 2, 4, …` below `local_range`, where a lane
   joins the slot `stride` places up while `stride < upper_stride_bound`;
2. in the first sub-group only, over the sub-groups' results (the slots of the lanes
   `id_in_sg * max_subgroup_size`): first an offset loop that folds the results past
   `local_range` into the first ones, then a tree with the guard
   `id_in_sg + stride < n_subgroups`.

Lane `0` then copies out slot `0`. Each step of a loop is modelled as one synchronous round
(every lane reads its operands, then every lane writes), as the sub-group barriers intend.
A slot is one value of an arbitrary type `α`: the `value_count` values of a slot are
joined together, and `value_count` only scales the indices, so the launch leaves it out
(`Kokkos.SYCLReduction.ValueCount` says why nothing is lost). The `unsigned int`
subtractions of `upper_stride_bound` wrap modulo `2^32`.
-/

namespace Kokkos.SYCLReduction

/-- `a - b` on `unsigned int`. -/
def wrapSub (a b : Nat) : Nat := (a + 2 ^ 32 - b) % 2 ^ 32

theorem wrapSub_of_le {a b : Nat} (ha : a < 2 ^ 32) (h : b ≤ a) : wrapSub a b = a - b := by
  unfold wrapSub
  omega

theorem wrapSub_eq {a b : Nat} (ha : a < 2 ^ 32) (hb : b < 2 ^ 32) :
    wrapSub a b = if b ≤ a then a - b else a + 2 ^ 32 - b := by
  unfold wrapSub
  split_ifs <;> omega

/-- The launch a work-group reduction runs in. -/
structure Launch where
  /-- The number of work-items of the work-group. -/
  groupSize : Nat
  /-- `sg.get_max_local_range()[0]`: the width of every sub-group but possibly the last. -/
  maxSubgroupSize : Nat
  /-- `max_size`: the work-items whose values take part. -/
  maxSize : Nat
  deriving DecidableEq, Repr

namespace Launch

variable (launch : Launch)

/-- `sg.get_group_range()[0]`: the number of sub-groups. -/
def nSubgroups : Nat :=
  (launch.groupSize + launch.maxSubgroupSize - 1) / launch.maxSubgroupSize

/-- `sg.get_local_range()[0]` in sub-group `group`. -/
def subgroupRange (group : Nat) : Nat :=
  min launch.maxSubgroupSize (launch.groupSize - group * launch.maxSubgroupSize)

/-- `sg.get_local_id()[0]` of work-item `localId`. -/
def idInSg (localId : Nat) : Nat := localId % launch.maxSubgroupSize

/-- `local_range = min(sg.get_local_range()[0], max_size)` of work-item `localId`. -/
def localRange (localId : Nat) : Nat :=
  min (launch.subgroupRange (localId / launch.maxSubgroupSize)) launch.maxSize

/-- `upper_stride_bound = min(local_range - id_in_sg, max_size - local_id)`, in
`unsigned int`. -/
def upperStrideBound (localId : Nat) : Nat :=
  min (wrapSub (launch.localRange localId) (launch.idInSg localId))
    (wrapSub launch.maxSize localId)

end Launch

/-! ## Loops -/

/-- The strides of `for (unsigned stride = start; stride < bound; stride <<= 1)`, for at
most `fuel` iterations. -/
def stridesFrom (bound : Nat) : Nat → Nat → List Nat
  | 0, _ => []
  | fuel + 1, stride => if stride < bound then stride :: stridesFrom bound fuel (2 * stride) else []

/-- The strides `1, 2, 4, …` below `bound`. -/
def strides (bound : Nat) : List Nat := stridesFrom bound bound 1

/-- The offsets of `for (offset = step; offset < bound; offset += step)`, for at most `fuel`
iterations. -/
def offsetsFrom (step bound : Nat) : Nat → Nat → List Nat
  | 0, _ => []
  | fuel + 1, offset =>
    if offset < bound then offset :: offsetsFrom step bound fuel (offset + step) else []

/-- The offsets `step, 2 * step, …` below `bound`. -/
def offsets (step bound : Nat) : List Nat := offsetsFrom step bound bound step

/-- One synchronous round of `lanes` lanes, lane `p` owning slot `p * width`: a lane with a
partner joins the partner's slot into its own. -/
def round {α : Type*} (join : α → α → α) (width lanes : Nat) (partner : Nat → Option Nat)
    (mem : Nat → α) (slot : Nat) : α :=
  if slot % width = 0 ∧ slot / width < lanes then
    match partner (slot / width) with
    | some lane => join (mem slot) (mem (lane * width))
    | none => mem slot
  else mem slot

/-! ## The two phases -/

section Phases

variable {α : Type*} (launch : Launch) (join : α → α → α)

/-- The slot lane `localId` joins at `stride` in its sub-group's tree, if any. -/
def phase1Partner (stride localId : Nat) : Option Nat :=
  if stride < launch.localRange localId ∧ stride < launch.upperStrideBound localId then
    some (localId + stride)
  else none

/-- The sub-group trees, all sub-groups in step; sub-group `0` has the widest range. -/
def phase1 (mem : Nat → α) : Nat → α :=
  (strides (launch.localRange 0)).foldl
    (fun mem stride => round join 1 launch.groupSize (phase1Partner launch stride) mem) mem

/-- The sub-group result lane `idInSg` of the first sub-group joins at `offset` (or
`stride`), if any. -/
def phase2Partner (offset idInSg : Nat) : Option Nat :=
  if idInSg + offset < launch.nSubgroups then some (idInSg + offset) else none

/-- The first sub-group's offset loop, then its tree over the sub-groups' results. -/
def phase2 (mem : Nat → α) : Nat → α :=
  let localRange := launch.localRange 0
  let roundAt (mem : Nat → α) (offset : Nat) :=
    round join launch.maxSubgroupSize (launch.subgroupRange 0) (phase2Partner launch offset) mem
  let mem := (offsets localRange (min launch.nSubgroups launch.maxSize)).foldl roundAt mem
  (strides localRange).foldl roundAt mem

/-- The value lane `0` copies out of `local_mem[0]`. -/
def workgroupReduction (mem : Nat → α) : α :=
  phase2 launch join (phase1 launch join mem) 0

end Phases

/-- With `max_size = 0` neither loop runs a step: lane `0` copies out its own value, not
the value of an empty reduction. -/
example : workgroupReduction ⟨4, 2, 0⟩ (· + ·) (fun i => i + 7) = 7 := by
  decide

/-- Ten items in sub-groups of three, with `max_size = 10` and every value `1`: the
reduction returns `11`. The fourth sub-group's result is folded into lane `0` by the offset
loop and again, through lane `2`, by the tree, whose guard `id_in_sg + stride <
n_subgroups` lets lane `2` join the fourth sub-group's slot. -/
theorem workgroupReduction_counts_twice :
    workgroupReduction ⟨10, 3, 10⟩ (· + ·) (fun _ => 1) = 11 := by
  decide

/-- Four items in one sub-group of four with `max_size = 2`: `local_range = 2`, and for
lane `3` both subtractions of `upper_stride_bound` wrap, so at stride `1` it joins the
slot of local id `4`, at index `4 * value_count`, past the `4 * value_count` values of
`local_mem`, past its sub-group and past `max_size`. -/
theorem phase1_reads_past_local_mem :
    1 ∈ strides ((⟨4, 4, 2⟩ : Launch).localRange 3) ∧
      (∀ mem : Nat → Nat, phase1 ⟨4, 4, 2⟩ (· + ·) mem 3 = mem 3 + mem 4) ∧
      ¬ 4 * 1 < 4 * 1 ∧ ¬ 4 < 2 :=
  ⟨by decide, fun _ => rfl, by decide, by decide⟩

end Kokkos.SYCLReduction
