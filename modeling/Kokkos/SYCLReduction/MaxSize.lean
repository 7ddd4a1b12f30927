import Kokkos.SYCLReduction.ShuffleCorrectness

/-!
# `max_size` at its edges

`max_size` counts the work-items whose values take part. The theorems of
`Kokkos.SYCLReduction.Correctness` and `Kokkos.SYCLReduction.ShuffleCorrectness` take it
between `1` and the work-group size; this module says what the two overloads do with
`max_size` at or past the work-group size. (With `max_size = 0` neither overload joins
anything and lane `0` copies out its own value, as the examples after `workgroupReduction`
and `shuffleReduction` show.)

With `max_size` at or past the work-group size the local-memory reduction is the one for
`max_size` equal to the work-group size: each bound it takes from `max_size` is cut down to
the work-group's own, by `local_range` and `upper_stride_bound` in the first phase and by
`n_subgroups` in the offset loop.
The shuffle-based reduction cuts the first phase the same way, but takes
`n_active_subgroups` from `max_size` alone: past the work-group it counts sub-groups that
do not exist, and lane `0` takes in the slots of `local_mem` they would have written, as
they were before the call (`shuffleReduction_of_groupSize_lt`).
-/

namespace Kokkos.SYCLReduction

/-- A round only asks for the partners of its lanes. -/
theorem round_congr {α : Type*} {join : α → α → α} {width lanes : Nat}
    {partner partner' : Nat → Option Nat} (h : ∀ p < lanes, partner p = partner' p)
    (mem : Nat → α) : round join width lanes partner mem = round join width lanes partner' mem := by
  funext slot
  unfold round
  split_ifs with hs
  · rw [h _ hs.2]
  · rfl

/-! ## Every work-item taking part -/

section Whole

variable {launch : Launch} (hM : 0 < launch.maxSubgroupSize)
  (hmax : launch.groupSize ≤ launch.maxSize) (hmax32 : launch.maxSize < 2 ^ 32)

theorem Launch.localRange_of_groupSize_le (hmax : launch.groupSize ≤ launch.maxSize)
    (localId : Nat) :
    launch.localRange localId = launch.subgroupRange (localId / launch.maxSubgroupSize) := by
  simp only [Launch.localRange, Launch.subgroupRange]
  omega

include hM hmax hmax32 in
/-- Past `max_size` nothing is cut: `upper_stride_bound` is the rest of the sub-group. -/
theorem Launch.upperStrideBound_of_groupSize_le {localId : Nat}
    (hl : localId < launch.groupSize) :
    launch.upperStrideBound localId = launch.localRange localId - launch.idInSg localId := by
  have hdiv := Nat.div_add_mod' localId launch.maxSubgroupSize
  have hmod := Nat.mod_lt localId hM
  simp only [Launch.upperStrideBound, Launch.idInSg, launch.localRange_of_groupSize_le hmax,
    Launch.subgroupRange]
  rw [wrapSub_of_le (by omega) (by omega), wrapSub_of_le hmax32 (by omega)]
  omega

include hM hmax hmax32 in
/-- With `max_size` at or past the work-group size, the local-memory reduction is the one
for `max_size` equal to the work-group size, for every join. -/
theorem workgroupReduction_of_groupSize_le {α : Type*} (join : α → α → α) (mem : Nat → α) :
    workgroupReduction launch join mem =
      workgroupReduction { launch with maxSize := launch.groupSize } join mem := by
  set whole : Launch := { launch with maxSize := launch.groupSize }
  have hwhole : ∀ l, whole.localRange l = launch.localRange l := fun l => by
    rw [@Launch.localRange_of_groupSize_le whole le_rfl, launch.localRange_of_groupSize_le hmax]
    rfl
  have hpartner : ∀ stride, ∀ l < launch.groupSize,
      phase1Partner launch stride l = phase1Partner whole stride l := fun stride l hl => by
    simp only [phase1Partner, Launch.upperStrideBound_of_groupSize_le hM hmax hmax32 hl,
      @Launch.upperStrideBound_of_groupSize_le whole hM le_rfl
        (show launch.groupSize < 2 ^ 32 by omega) l hl, hwhole]
    rfl
  have hn : min launch.nSubgroups launch.maxSize = min launch.nSubgroups launch.groupSize := by
    have := Launch.nSubgroups_le hM
    omega
  simp only [workgroupReduction, phase1, phase2, hn, hwhole, round_congr (hpartner _)]
  rfl

end Whole

/-- Six items in sub-groups of four with `max_size = 9`: the reduction, here with a join
that is neither associative nor commutative, is the one with `max_size = 6`. -/
theorem workgroupReduction_of_groupSize_le_six :
    workgroupReduction ⟨6, 4, 9⟩ (fun a b => a - b) id =
      workgroupReduction { (⟨6, 4, 9⟩ : Launch) with maxSize := 6 } (fun a b => a - b) id :=
  workgroupReduction_of_groupSize_le (by decide) (by decide) (by decide) _ _

/-! ## Past the work-group, shuffle-based -/

section Past

open Finset

variable {α : Type*} {launch : Launch} (join : α → α → α) (path : ShufflePath)

/-- With `max_size` past the work-group, the first phase of the shuffle-based reduction is,
below the work-group, the one for `max_size` equal to the work-group size: a lane's
`local_range` is its sub-group's range and its `upper_stride_bound` the rest of its
sub-group, either way. -/
theorem shufflePhase1_of_groupSize_lt (hL : launch.groupSize < launch.maxSize)
    (hmax : launch.maxSize < 2 ^ 31) (values : Nat → Option α) :
    ∀ l < launch.groupSize, shufflePhase1 launch join path values l =
      shufflePhase1 { launch with maxSize := launch.groupSize } join path values l := by
  have hL' : launch.groupSize < 2 ^ 31 := by omega
  have hR : ∀ l, launch.localRange l =
      ({ launch with maxSize := launch.groupSize } : Launch).localRange l := fun l => by
    simp only [Launch.localRange, Launch.subgroupRange]
    omega
  have hlr : ∀ l, launch.localRangeInt l =
      ({ launch with maxSize := launch.groupSize } : Launch).localRangeInt l := fun l => by
    rw [launch.localRangeInt_of_lt hL' hmax,
      Launch.localRangeInt_of_lt { launch with maxSize := launch.groupSize } hL' hL', hR]
  have hub : ∀ l < launch.groupSize, launch.upperStrideBoundInt l =
      ({ launch with maxSize := launch.groupSize } : Launch).upperStrideBoundInt l :=
    fun l hl => by
      have := Nat.div_add_mod' l launch.maxSubgroupSize
      rw [launch.upperStrideBoundInt_of_lt hL' hmax (by omega),
        Launch.upperStrideBoundInt_of_lt { launch with maxSize := launch.groupSize } hL' hL' hl,
        ← hR]
      simp only [Launch.localRange, Launch.subgroupRange, Launch.idInSg]
      omega
  rw [shufflePhase1, shufflePhase1, hlr 0]
  refine foldl_rel (fun v w : Nat → Option α => ∀ l < launch.groupSize, v l = w l)
    (fun s _ v w hvw l hl => ?_) (fun _ _ => rfl)
  rw [shufflePhase1Step, shufflePhase1Step, hlr l, hub l hl, hvw l hl]
  refine if_congr Iff.rfl (congrArg _ ?_) rfl
  rw [shiftGroupLeft, shiftGroupLeft]
  refine if_ctx_congr Iff.rfl (fun hs => hvw _ ?_) fun _ => rfl
  have := Nat.div_add_mod' l launch.maxSubgroupSize
  simp only [Launch.idInSg, Launch.subgroupRange] at hs
  omega

/-- The second phase reads only the first sub-group: with that sub-group full, it is the
second phase of a work-group of `max_size` items. -/
theorem shufflePhase2_of_first_full (hM : 0 < launch.maxSubgroupSize)
    (hML : launch.maxSubgroupSize ≤ launch.groupSize)
    (hMS : launch.maxSubgroupSize ≤ launch.maxSize) (slots : Nat → Option α) :
    (path.strideList (launch.localRangeInt 0)).foldl (shufflePhase2Step launch join path)
        (shuffleOffsets launch join slots (phase2Start launch slots)) 0 =
      (path.strideList
          (({ launch with groupSize := launch.maxSize } : Launch).localRangeInt 0)).foldl
        (shufflePhase2Step { launch with groupSize := launch.maxSize } join path)
        (shuffleOffsets { launch with groupSize := launch.maxSize } join slots
          (phase2Start { launch with groupSize := launch.maxSize } slots)) 0 := by
  have hlr : launch.localRangeInt 0 =
      ({ launch with groupSize := launch.maxSize } : Launch).localRangeInt 0 := by
    simp only [Launch.localRangeInt, Launch.subgroupRange, Nat.zero_div, Nat.zero_mul,
      Nat.sub_zero, min_eq_left hML, min_eq_left hMS]
  have hoff : shuffleOffsets launch join slots =
      shuffleOffsets { launch with groupSize := launch.maxSize } join slots := by
    funext v
    rw [shuffleOffsets, shuffleOffsets, hlr]
    rfl
  have hactive : ({ launch with groupSize := launch.maxSize } : Launch).nActiveSubgroups =
      launch.nActiveSubgroups := by
    simp only [Launch.nActiveSubgroups]
  rw [hlr, hoff]
  refine foldl_rel (fun v w : Nat → Option α => ∀ p < launch.maxSubgroupSize, v p = w p)
    (fun s _ v w hvw p hp => ?_) (fun _ _ => rfl) 0 hM
  rw [shufflePhase2Step, shufflePhase2Step, hvw p hp, hactive, hlr]
  refine if_congr Iff.rfl (congrArg _ ?_) rfl
  simp only [shiftGroupLeft, Launch.idInSg, Launch.subgroupRange, Nat.div_eq_of_lt hp,
    Nat.mod_eq_of_lt hp, Nat.zero_mul, Nat.sub_zero, min_eq_left hML, min_eq_left hMS]
  split_ifs with hs
  exacts [hvw _ hs, rfl]

end Past

/-- With `max_size` past a work-group whose first sub-group is full, the shuffle-based
reduction takes `n_active_subgroups` from `max_size`: more sub-groups than the work-group
has. Lane `0` takes in every slot of `local_mem` below `n_active_subgroups`, and those from
`n_subgroups` on are slots no sub-group wrote in this call. For a power-of-two width, on
both paths, the result is the product of the work-group's values times whatever those
slots held before the call. The local-memory reduction, by contrast, is the one for
`max_size` equal to the work-group size (`workgroupReduction_of_groupSize_le`). -/
theorem shuffleReduction_of_groupSize_lt {α : Type*} [CommMonoid α] {launch : Launch}
    (hM : 0 < launch.maxSubgroupSize) (hpow : ∃ k, launch.maxSubgroupSize = 2 ^ k)
    (hML : launch.maxSubgroupSize ≤ launch.groupSize) (hL : launch.groupSize < launch.maxSize)
    (hmax : launch.maxSize < 2 ^ 31) (path : ShufflePath)
    (hcov : path = .unrolled → launch.maxSubgroupSize ≤ 32) (values : Nat → α)
    (localMem : Nat → Option α) :
    (shuffleReduction launch (· * ·) path values localMem : WithZero α) =
      ((∏ i ∈ Finset.range launch.groupSize, values i : α) : WithZero α) *
        (∏ k ∈ Finset.Ico launch.nSubgroups launch.nActive, localMem k : WithZero α) := by
  have hwhole : Launch.Fits { launch with maxSize := launch.groupSize } :=
    ⟨hM, show launch.maxSubgroupSize < 2 ^ 31 by omega, show launch.groupSize < 2 ^ 31 by omega,
      show 0 < launch.groupSize by omega, le_rfl⟩
  have hbig : Launch.Fits { launch with groupSize := launch.maxSize } :=
    ⟨hM, show launch.maxSubgroupSize < 2 ^ 31 by omega, hmax, show 0 < launch.maxSize by omega,
      le_rfl⟩
  have hactive : launch.nActiveSubgroups = launch.nActive := hbig.nActiveSubgroups_eq
  have hle : launch.nSubgroups ≤ launch.nActive := Nat.div_le_div_right (by omega)
  set slots : Nat → WithZero α :=
    storeResults launch (shufflePhase1 launch (· * ·) path (some ∘ values)) localMem with hslots
  calc (shuffleReduction launch (· * ·) path values localMem : WithZero α)
      = ∏ k ∈ Finset.range launch.nActive, slots k := by
        simp only [shuffleReduction]
        rw [shufflePhase2_of_first_full _ path hM hML (by omega)]
        exact hbig.prod_shufflePhase2 hpow path (fun hp => by
          simp only [Launch.localRange, Launch.subgroupRange]
          have := hcov hp
          omega) slots
    _ = (∏ k ∈ Finset.range launch.nSubgroups, slots k) *
          ∏ k ∈ Finset.Ico launch.nSubgroups launch.nActive, slots k :=
        (Finset.prod_range_mul_prod_Ico _ hle).symm
    _ = _ := by
        refine congrArg₂ (· * ·) ?_ ?_
        · refine (Finset.prod_congr rfl fun k hk => ?_).trans
            (hwhole.prod_storeResults path (fun hp => by
              simp only [Launch.localRange, Launch.subgroupRange]
              have := hcov hp
              omega) values localMem)
          have hk := Finset.mem_range.mp hk
          rw [hslots, storeResults, if_pos ⟨hk, by rw [hactive]; omega⟩,
            hwhole.storeResults_active _ _ hk]
          exact shufflePhase1_of_groupSize_lt _ path hL hmax _ _
            ((Launch.lt_nSubgroups_iff hM).mp hk)
        · refine Finset.prod_congr rfl fun k hk => ?_
          rw [hslots, storeResults, if_neg fun h => by have := Finset.mem_Ico.mp hk; omega]

/-- Four items in sub-groups of two with `max_size = 7`: four active sub-groups, two of
them past the work-group, so lane `0` takes in `local_mem[2]` and `local_mem[3]` as they
were before the call. -/
theorem shuffleReduction_of_groupSize_lt_four :
    (shuffleReduction ⟨4, 2, 7⟩ (· * ·) .loop (fun i => i + 1) (fun _ => some 10) :
        WithZero Nat) =
      ((∏ i ∈ Finset.range 4, (i + 1) : Nat) : WithZero Nat) *
        (∏ k ∈ Finset.Ico 2 4, (fun _ => some 10) k : WithZero Nat) :=
  shuffleReduction_of_groupSize_lt (by decide) ⟨1, rfl⟩ (by decide) (by decide) (by decide)
    .loop (fun hp => ShufflePath.noConfusion hp) _ _

end Kokkos.SYCLReduction
