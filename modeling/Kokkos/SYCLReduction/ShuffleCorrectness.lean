import Kokkos.SYCLReduction.Correctness
import Kokkos.SYCLReduction.Shuffle

/-!
# The shuffle-based reduction

What the second overload of `workgroup_reduction` computes, on launches whose sizes stay
below `2^31` (`Launch.Fits`), where every conversion to `int` or `unsigned int` keeps its
value.

The first phase is the contiguous tree of `Kokkos.SYCLReduction.Correctness` once more:
on a lane below `max_size` both paths join exactly when the lane `stride` up is in the
sub-group's part below `max_size` (`Launch.Fits.phase1_guard`), so lane `0` of an active
sub-group gets the product of that part. The lanes past `max_size` do not take part: the
loop path joins there whenever `upper_stride_bound` is negative (its `unsigned int`
comparison reads it as a large number), and the unrolled path does not, but no lane below
`max_size` ever reads them.

In the second phase the shuffles read from the lanes of the first sub-group, and a read
past its last lane is unspecified (`none`, which is `0` in `WithZero α`). The tree is the
aligned tree of `Kokkos.SYCLReduction.Tree` over the `n_active_subgroups` results with the
lanes past the sub-group read as `0`. With a power-of-two width lane `0` never reads
them, and the reduction is exact (`shuffleReduction_eq_prod`); with any other width and
more active sub-groups than lanes it does, and the result is unspecified
(`shuffleReduction_unspecified`). With at most as many active sub-groups as lanes every
width is exact (`shuffleReduction_eq_prod_of_le_sq`), and then for any monoid the values
are joined in the order of their local ids (`shuffleReduction_eq_prodIco_of_le_sq`). The
loop and the unrolled calls compute the same result for any join
(`shuffleReduction_loop_eq_unrolled`), and no value of `local_mem` from before the call is
ever read (`shuffleReduction_localMem_congr`).
-/

namespace Kokkos.SYCLReduction

open Finset

/-- The launches the shuffle-based reduction is written for: sub-group and work-group
sizes below `2^31`, and at least one and at most all of the work-items taking part. -/
structure Launch.Fits (launch : Launch) : Prop where
  subgroup_pos : 0 < launch.maxSubgroupSize
  subgroup_lt : launch.maxSubgroupSize < 2 ^ 31
  group_lt : launch.groupSize < 2 ^ 31
  maxSize_pos : 0 < launch.maxSize
  maxSize_le : launch.maxSize ≤ launch.groupSize

/-- The sub-groups with a work-item below `max_size`. -/
def Launch.nActive (launch : Launch) : Nat :=
  (launch.maxSize + launch.maxSubgroupSize - 1) / launch.maxSubgroupSize

/-! ## Integers -/

theorem ShufflePath.lt_iff (path : ShufflePath) {a : Nat} {b : Int} (ha : a < 2 ^ 32)
    (hb0 : 0 ≤ b) (hb : b < 2 ^ 32) : path.lt a b = true ↔ (a : Int) < b := by
  cases path with
  | loop =>
    rw [lt, decide_eq_true_iff, toUInt32_of_lt hb0 hb, Nat.mod_eq_of_lt ha]
    omega
  | unrolled => exact decide_eq_true_iff

/-- The unrolled calls run the loop's strides, then strides at or past `local_range`. -/
theorem unrolled_strides {localRange : Nat} (h : localRange ≤ 32) :
    [1, 2, 4, 8, 16] = strides localRange ++ [1, 2, 4, 8, 16].filter (localRange ≤ ·) := by
  revert localRange
  decide

theorem foldl_eq_self {β : Type*} {F : β → Nat → β} :
    ∀ {l : List Nat} {b : β}, (∀ s ∈ l, F b s = b) → l.foldl F b = b
  | [], _, _ => rfl
  | s :: l, b, h => by
    rw [List.foldl_cons, h s (List.mem_cons_self s l)]
    exact foldl_eq_self fun t ht => h t (List.mem_cons_of_mem s ht)

/-- Both paths run the loop's strides, as long as a stride past `local_range` changes
nothing and, for the unrolled calls, `local_range ≤ 32` (the source's `KOKKOS_ASSERT`). -/
theorem ShufflePath.foldl_strideList {β : Type*} (path : ShufflePath) {localRange : Nat}
    (hlr : localRange < 2 ^ 31) (hcov : path = .unrolled → localRange ≤ 32)
    (F : β → Nat → β) (hskip : ∀ b s, localRange ≤ s → s ≤ 16 → F b s = b) (b : β) :
    (path.strideList localRange).foldl F b = (strides localRange).foldl F b := by
  cases path with
  | loop => rw [strideList, toUInt32_of_lt (by omega) (by omega), Int.toNat_ofNat]
  | unrolled =>
    rw [strideList, unrolled_strides (hcov rfl), List.foldl_append]
    refine foldl_eq_self fun s hs => hskip _ s ?_ ?_
    · exact of_decide_eq_true (List.mem_filter.mp hs).2
    · have hmem := (List.mem_filter.mp hs).1
      simp only [List.mem_cons, List.mem_singleton, List.not_mem_nil, or_false] at hmem
      omega

theorem lt_ceilDiv_iff {n width k : Nat} (hwidth : 0 < width) :
    k < (n + width - 1) / width ↔ k * width < n := by
  rw [← Nat.succ_le_iff, Nat.le_div_iff_mul_le hwidth, Nat.succ_mul]
  omega

theorem Launch.div_add {launch : Launch} {group j : Nat} (hM : 0 < launch.maxSubgroupSize)
    (hj : j < launch.maxSubgroupSize) :
    (group * launch.maxSubgroupSize + j) / launch.maxSubgroupSize = group := by
  rw [Nat.add_comm, Nat.add_mul_div_right _ _ hM, Nat.div_eq_of_lt hj, Nat.zero_add]

theorem Launch.localRange_le_zero (launch : Launch) (localId : Nat) :
    launch.localRange localId ≤ launch.localRange 0 := by
  have := launch.subgroupRange_le_zero (localId / launch.maxSubgroupSize)
  simp only [Launch.localRange, Nat.zero_div]
  omega

/-- Below `2 ^ 31` the `int` `local_range` is the unsigned one. -/
theorem Launch.localRangeInt_of_lt (launch : Launch) (hL : launch.groupSize < 2 ^ 31)
    (hS : launch.maxSize < 2 ^ 31) (localId : Nat) :
    launch.localRangeInt localId = launch.localRange localId := by
  have hR : launch.subgroupRange (localId / launch.maxSubgroupSize) ≤ launch.groupSize := by
    simp only [Launch.subgroupRange]
    omega
  rw [Launch.localRangeInt, toInt32_of_lt (by omega) (by omega),
    toInt32_of_lt (by omega) (by omega), Launch.localRange]
  omega

/-- On a work-item below `max_size`, the `int` `upper_stride_bound` does not wrap. -/
theorem Launch.upperStrideBoundInt_of_lt (launch : Launch) (hL : launch.groupSize < 2 ^ 31)
    (hS : launch.maxSize < 2 ^ 31) {localId : Nat} (hl : localId < launch.maxSize) :
    launch.upperStrideBoundInt localId =
      min ((launch.localRange localId : Int) - launch.idInSg localId)
        ((launch.maxSize : Int) - localId) := by
  have hR : launch.localRange localId ≤ launch.maxSize := min_le_right _ _
  have hid : launch.idInSg localId ≤ localId := Nat.mod_le _ _
  rw [Launch.upperStrideBoundInt, launch.localRangeInt_of_lt hL hS,
    toInt32_of_lt (by omega) (by omega), toInt32_of_lt (by omega) (by omega)]

namespace Launch.Fits

variable {launch : Launch} (h : launch.Fits)
include h

theorem lt_nActive_iff {k : Nat} :
    k < launch.nActive ↔ k * launch.maxSubgroupSize < launch.maxSize :=
  lt_ceilDiv_iff h.subgroup_pos

theorem nActive_pos : 0 < launch.nActive :=
  h.lt_nActive_iff.mpr (by rw [Nat.zero_mul]; exact h.maxSize_pos)

theorem nActive_le_maxSize : launch.nActive ≤ launch.maxSize :=
  Nat.le_of_not_lt fun hlt =>
    absurd (h.lt_nActive_iff.mp hlt) (Nat.not_lt.mpr (Nat.le_mul_of_pos_right _ h.subgroup_pos))

theorem le_nActive_mul : launch.maxSize ≤ launch.nActive * launch.maxSubgroupSize := by
  have h1 := Nat.div_add_mod (launch.maxSize + launch.maxSubgroupSize - 1)
    launch.maxSubgroupSize
  have h2 := Nat.mod_lt (launch.maxSize + launch.maxSubgroupSize - 1) h.subgroup_pos
  rw [Launch.nActive, Nat.mul_comm]
  omega

theorem localRangeInt_eq (localId : Nat) :
    launch.localRangeInt localId = launch.localRange localId :=
  launch.localRangeInt_of_lt h.group_lt (lt_of_le_of_lt h.maxSize_le h.group_lt) localId

theorem nActiveSubgroups_eq : launch.nActiveSubgroups = launch.nActive := by
  have := h.subgroup_pos
  have := h.subgroup_lt
  have := h.group_lt
  have := h.maxSize_le
  have := h.nActive_le_maxSize
  rw [Launch.nActiveSubgroups, show (launch.maxSize + launch.maxSubgroupSize + (2 ^ 32 - 1)) %
    2 ^ 32 = launch.maxSize + launch.maxSubgroupSize - 1 by omega, ← Launch.nActive,
    toInt32_of_lt (by omega) (by omega)]

/-! ## The first phase -/

/-- On a lane below `max_size`, both paths join exactly when the lane `stride` up is in
the sub-group's part below `max_size`: there both `int` bounds are positive, and the two
kinds of comparison agree. -/
theorem phase1_guard (path : ShufflePath) {group j stride : Nat}
    (hj : j < launch.maxSubgroupSize)
    (hlane : group * launch.maxSubgroupSize + j < launch.maxSize) (hs : stride < 2 ^ 31) :
    (path.lt stride (launch.localRangeInt (group * launch.maxSubgroupSize + j)) = true ∧
      path.lt stride (launch.upperStrideBoundInt (group * launch.maxSubgroupSize + j)) =
        true) ↔ j + stride < launch.phase1Width group := by
  have hM := h.subgroup_pos
  have := h.subgroup_lt
  have := h.group_lt
  have := h.maxSize_le
  have hR : launch.subgroupRange group =
      min launch.maxSubgroupSize (launch.groupSize - group * launch.maxSubgroupSize) := rfl
  rw [h.localRangeInt_eq, launch.upperStrideBoundInt_of_lt h.group_lt (by omega) hlane,
    Launch.localRange_add hM hj, Launch.idInSg_add hj, path.lt_iff (by omega) (by omega) (by omega),
    path.lt_iff (by omega) (by omega) (by omega), Launch.phase1Width_eq hM, if_pos (by omega)]
  omega

theorem phase1Width_le {group : Nat} (hgroup : group * launch.maxSubgroupSize < launch.maxSize) :
    launch.phase1Width group ≤ launch.maxSize - group * launch.maxSubgroupSize := by
  rw [launch.phase1Width_eq h.subgroup_pos, if_pos hgroup]
  omega

/-- A pass of the first phase on a lane below `max_size`: the contiguous tree's join, with
the shifted value read from inside the sub-group. -/
theorem shufflePhase1Step_active {α : Type*} (join : α → α → α) (path : ShufflePath)
    (values : Nat → Option α) {group j stride : Nat} (hj : j < launch.maxSubgroupSize)
    (hlane : group * launch.maxSubgroupSize + j < launch.maxSize) (hs : stride < 2 ^ 31) :
    shufflePhase1Step launch join path values stride (group * launch.maxSubgroupSize + j) =
      if j + stride < launch.phase1Width group then
        Option.map₂ join (values (group * launch.maxSubgroupSize + j))
          (values (group * launch.maxSubgroupSize + j + stride))
      else values (group * launch.maxSubgroupSize + j) := by
  have hM := h.subgroup_pos
  have hwidth := (@phase1Width_bounds launch hM h.maxSize_pos group
    ((Launch.lt_nSubgroups_iff hM).mpr (by have := h.maxSize_le; omega))).2.1
  rw [shufflePhase1Step, if_congr (h.phase1_guard path hj hlane hs) rfl rfl]
  split
  · rw [shiftGroupLeft, if_pos (by rw [Launch.idInSg_add hj, Launch.div_add hM hj]; omega)]
  · rfl

theorem localRange_lt : launch.localRange 0 < 2 ^ 31 := by
  have := h.subgroup_lt
  rw [launch.localRange_zero]
  omega

/-- A stride at or past `local_range` changes no lane. -/
theorem shufflePhase1Step_of_le {α : Type*} (join : α → α → α) (path : ShufflePath)
    (values : Nat → Option α) {stride : Nat} (hs : launch.localRange 0 ≤ stride)
    (hs' : stride < 2 ^ 31) : shufflePhase1Step launch join path values stride = values :=
  funext fun localId => by
    have := launch.localRange_le_zero localId
    have := h.localRange_lt
    rw [shufflePhase1Step, if_neg fun hguard => by
      rw [h.localRangeInt_eq, path.lt_iff (by omega) (by omega) (by omega)] at hguard
      omega]

/-- Lane `0` of a sub-group with a work-item below `max_size` ends the first phase with
the product of the values of its sub-group's work-items below `max_size`, in order, on both
paths. -/
theorem shufflePhase1_eq_prod {α : Type*} [Monoid α] (path : ShufflePath)
    (hcov : path = .unrolled → launch.localRange 0 ≤ 32) (values : Nat → α) {group : Nat}
    (hgroup : group * launch.maxSubgroupSize < launch.maxSize) :
    shufflePhase1 launch (· * ·) path (some ∘ values) (group * launch.maxSubgroupSize) =
      some (prodIco values (group * launch.maxSubgroupSize)
        (group * launch.maxSubgroupSize + launch.phase1Width group)) := by
  have hM := h.subgroup_pos
  have hlr := h.localRange_lt
  have hg : group < launch.nSubgroups :=
    (Launch.lt_nSubgroups_iff hM).mpr (by have := h.maxSize_le; omega)
  obtain ⟨hpos', hwidth, hle⟩ := @phase1Width_bounds launch hM h.maxSize_pos group hg
  have hRM := (Launch.subgroupRange_bounds hM hg).2.1
  have hcut := h.phase1Width_le hgroup
  rw [shufflePhase1, h.localRangeInt_eq, path.foldl_strideList hlr hcov _
    (fun v _ hs hs' => h.shufflePhase1Step_of_le _ path v hs (by omega))]
  obtain ⟨last, hlast, -, htree⟩ := @foldl_strides (Nat → WithZero α)
    (fun stride m => 0 < stride ∧
      TreeHolds (fun i => (values i : WithZero α)) (group * launch.maxSubgroupSize)
        (launch.phase1Width group) stride m)
    (shufflePhase1Step launch (· * ·) path) (launch.localRange 0)
    (fun stride m hs ⟨hpos, hm⟩ => ⟨by omega, hm.round _ fun j hj =>
      h.shufflePhase1Step_active _ path m (by omega) (by omega) (by omega)⟩)
    (some ∘ values) ⟨Nat.one_pos, treeHolds_one _ fun _ _ => rfl⟩
  rw [htree.root _ hpos' (hle.trans hlast)]
  exact (map_prodIco values WithZero.coeMonoidHom _ _).symm

/-- The results of the active sub-groups land in the first `nActive` slots of
`local_mem`. -/
theorem storeResults_active {α : Type*} (values localMem : Nat → Option α) {k : Nat}
    (hk : k < launch.nActive) :
    storeResults launch values localMem k = values (k * launch.maxSubgroupSize) := by
  have hkM := h.lt_nActive_iff.mp hk
  have := h.maxSize_le
  rw [storeResults, if_pos ⟨(Launch.lt_nSubgroups_iff h.subgroup_pos).mpr (by omega),
    by rw [h.nActiveSubgroups_eq]; omega⟩]

/-- The active sub-groups' parts below `max_size`, taken in order, are the work-items
below `max_size`. -/
theorem prodIco_active {α : Type*} [Monoid α] (values : Nat → α) :
    prodIco (fun k => prodIco values (k * launch.maxSubgroupSize)
        (k * launch.maxSubgroupSize + launch.phase1Width k)) 0 launch.nActive =
      prodIco values 0 launch.maxSize := by
  have hM := h.subgroup_pos
  have := h.maxSize_le
  calc prodIco (fun k => prodIco values (k * launch.maxSubgroupSize)
          (k * launch.maxSubgroupSize + launch.phase1Width k)) 0 launch.nActive
      = prodIco (fun k => prodIco values (min (k * launch.maxSubgroupSize) launch.maxSize)
          (min ((k + 1) * launch.maxSubgroupSize) launch.maxSize)) 0 launch.nActive := by
        refine prodIco_congr _ fun k _ hk => ?_
        have hkM := h.lt_nActive_iff.mp hk
        have hR : launch.subgroupRange k =
            min launch.maxSubgroupSize (launch.groupSize - k * launch.maxSubgroupSize) := rfl
        rw [launch.phase1Width_eq hM, if_pos hkM, Nat.succ_mul]
        congr 1 <;> omega
    _ = prodIco values 0 launch.maxSize := by
        rw [prodIco_blocks, min_eq_right h.le_nActive_mul]

/-! ## The second phase -/

theorem shuffleOffsetStep_eq {α : Type*} (join : α → α → α) (localMem values : Nat → Option α)
    (offset p : Nat) :
    shuffleOffsetStep launch join localMem values offset p =
      if p + offset < launch.nActive then Option.map₂ join (values p) (localMem (p + offset))
      else values p := by
  rw [shuffleOffsetStep, h.nActiveSubgroups_eq]
  congr 1
  exact propext (by omega)

theorem phase2Start_active {α : Type*} (localMem : Nat → Option α) {p : Nat}
    (hp : p < launch.nActive) : phase2Start launch localMem p = localMem p := by
  rw [phase2Start, h.nActiveSubgroups_eq, if_pos (by omega)]

/-- A pass of the second stride loop on a lane of the first sub-group, for a stride below
`local_range`, on both paths: the lane joins the value `stride` lanes up while that lane is
an active sub-group's, and that value is unspecified past the first sub-group. -/
theorem shufflePhase2Step_eq {α : Type*} (join : α → α → α) (path : ShufflePath)
    (values : Nat → Option α) {stride p : Nat} (hs : stride < launch.localRange 0)
    (hp : p < launch.subgroupRange 0) :
    shufflePhase2Step launch join path values stride p =
      if p + stride < launch.nActive then
        Option.map₂ join (values p)
          (if p + stride < launch.subgroupRange 0 then values (p + stride) else none)
      else values p := by
  have hlr := h.localRange_lt
  have hR0 : launch.subgroupRange 0 ≤ launch.maxSubgroupSize := min_le_left _ _
  have := h.subgroup_lt
  have := h.nActive_le_maxSize
  have := h.group_lt
  have := h.maxSize_le
  have hguard : (path.lt stride (launch.localRangeInt 0) = true ∧
      path.lt (p + stride) launch.nActiveSubgroups = true) ↔ p + stride < launch.nActive := by
    rw [h.localRangeInt_eq, h.nActiveSubgroups_eq, path.lt_iff (by omega) (by omega) (by omega),
      path.lt_iff (by omega) (by omega) (by omega)]
    omega
  rw [shufflePhase2Step, if_congr hguard rfl rfl, shiftGroupLeft, Launch.idInSg,
    Nat.mod_eq_of_lt (by omega), Nat.div_eq_of_lt (by omega)]

/-- A stride at or past `local_range` changes no lane of the second phase. -/
theorem shufflePhase2Step_of_le {α : Type*} (join : α → α → α) (path : ShufflePath)
    (values : Nat → Option α) {stride : Nat} (hs : launch.localRange 0 ≤ stride)
    (hs' : stride < 2 ^ 31) : shufflePhase2Step launch join path values stride = values :=
  funext fun p => by
    have := h.localRange_lt
    rw [shufflePhase2Step, if_neg fun hguard => by
      rw [h.localRangeInt_eq, path.lt_iff (by omega) (by omega) (by omega)] at hguard
      omega]

end Launch.Fits

/-- The lanes of the first sub-group as the second phase's shuffles see them: past the
sub-group's last lane a shuffle reads an unspecified value, the `0` of `WithZero α`. -/
def Launch.laneView {α : Type*} (launch : Launch) (values : Nat → Option α) (p : Nat) :
    WithZero α :=
  if p < launch.subgroupRange 0 then values p else 0

namespace Launch.Fits

variable {launch : Launch} (h : launch.Fits)
include h

/-- A pass of the second stride loop is a round of the aligned tree on the lanes as the
shuffles see them. -/
theorem laneView_step {α : Type*} [Monoid α] (path : ShufflePath) (values : Nat → Option α)
    {stride : Nat} (hs : stride < launch.localRange 0) (p : Nat) :
    launch.laneView (shufflePhase2Step launch (· * ·) path values stride) p =
      if p + stride < launch.nActive then
        launch.laneView values p * launch.laneView values (p + stride)
      else launch.laneView values p := by
  by_cases hp : p < launch.subgroupRange 0
  · rw [Launch.laneView, if_pos hp, h.shufflePhase2Step_eq _ path values hs hp, Launch.laneView,
      if_pos hp]
    rfl
  · rw [Launch.laneView, if_neg hp, Launch.laneView, if_neg hp, zero_mul, ite_self]

/-- The second stride loop, on both paths, is the aligned tree over the `nActive` results
with the lanes past the first sub-group read as unspecified. It stops at the first power
of two at or past `local_range`; the lanes it joins stay in order. -/
theorem shufflePhase2_tree {α : Type*} [Monoid α] (path : ShufflePath)
    (hcov : path = .unrolled → launch.localRange 0 ≤ 32) (values : Nat → Option α) :
    ∃ last, (∃ i, last = 2 ^ i) ∧ launch.localRange 0 ≤ last ∧
      (last = 1 ∨ last < 2 * launch.localRange 0) ∧
      ((path.strideList (launch.localRangeInt 0)).foldl (shufflePhase2Step launch (· * ·) path)
          values 0 : WithZero α) =
        prodIco (launch.laneView values) 0 (min last launch.nActive) := by
  have hlr := h.localRange_lt
  have hR0 : 0 < launch.subgroupRange 0 := by
    have := h.subgroup_pos
    have := h.maxSize_pos
    have := h.maxSize_le
    rw [launch.subgroupRange_zero]
    omega
  rw [h.localRangeInt_eq, path.foldl_strideList hlr hcov _
    (fun v _ hs hs' => h.shufflePhase2Step_of_le _ path v hs (by omega))]
  obtain ⟨last, hlast, hpow, hbelow, htree⟩ := @foldl_strides (Nat → Option α)
    (fun stride m => (∃ i, stride = 2 ^ i) ∧ (stride = 1 ∨ stride < 2 * launch.localRange 0) ∧
      AlignedHolds (launch.laneView values) 1 launch.nActive stride (launch.laneView m))
    (shufflePhase2Step launch (· * ·) path) (launch.localRange 0)
    (fun stride m hs ⟨⟨i, hi⟩, _, hm⟩ => ⟨⟨i + 1, by rw [hi, pow_succ']⟩, .inr (by omega),
      hm.round _ fun p _ _ => by simpa only [Nat.mul_one] using h.laneView_step path m hs p⟩)
    values ⟨⟨0, rfl⟩, .inl rfl, alignedHolds_one _ fun p _ => by rw [Nat.mul_one]⟩
  refine ⟨last, hpow, hlast, hbelow, ?_⟩
  rw [← htree.root _ h.nActive_pos, Launch.laneView, if_pos hR0]

/-- With more active sub-groups than `local_range`, `local_range` is the full width `M`. -/
theorem localRange_eq_of_lt (hfold : launch.localRange 0 < launch.nActive) :
    launch.localRange 0 = launch.maxSubgroupSize ∧
      launch.subgroupRange 0 = launch.maxSubgroupSize := by
  have := h.nActive_le_maxSize
  have := h.maxSize_le
  rw [launch.localRange_zero] at hfold ⊢
  rw [launch.subgroupRange_zero]
  omega

/-- The offset loop, which runs when there are more active sub-groups than lanes: the first
`M` lanes end with the product of the `nActive` results. -/
theorem prod_shuffleOffsets {α : Type*} [CommMonoid α] (slots : Nat → WithZero α)
    (hfold : launch.localRange 0 < launch.nActive) :
    ∏ q ∈ range launch.maxSubgroupSize,
        launch.laneView (shuffleOffsets launch (· * ·) slots (phase2Start launch slots)) q =
      ∏ k ∈ range launch.nActive, slots k := by
  have hM := h.subgroup_pos
  obtain ⟨hlr0, hR0⟩ := h.localRange_eq_of_lt hfold
  rw [shuffleOffsets, h.localRangeInt_eq, h.nActiveSubgroups_eq, if_pos (Int.ofNat_lt.mpr hfold),
    Int.toNat_ofNat, Int.toNat_ofNat, hlr0]
  obtain ⟨last, hlast, -, -, hprod⟩ := @foldl_offsets (Nat → Option α)
    (fun offset v => OffsetsHold slots 1 launch.maxSubgroupSize launch.nActive offset
      fun q => (if q < launch.maxSubgroupSize then v q else slots q : WithZero α))
    (shuffleOffsetStep launch (· * ·) slots) launch.maxSubgroupSize launch.nActive
    (fun offset v hoff hv => hv.round _ hoff
      (fun q hq => by
        have := hv.1
        simp only [Nat.mul_one, if_pos hq, if_neg (show ¬ q + offset < launch.maxSubgroupSize by
          omega), h.shuffleOffsetStep_eq]
        rfl)
      (fun g hg => by simp only [Nat.mul_one, if_neg (show ¬ g < launch.maxSubgroupSize by omega)]))
    hM (phase2Start launch slots) (offsetsHold_start _ (fun g hg => by
      simp only [Nat.mul_one]
      split
      · exact h.phase2Start_active slots hg
      · rfl) (by omega))
  rw [min_eq_left hlast] at hprod
  rw [← hprod]
  exact prod_congr rfl fun q hq => by
    simp only [Launch.laneView, Nat.mul_one, hR0, if_pos (mem_range.mp hq)]

/-- Without the offset loop, the first `nActive` lanes start the tree from the `nActive`
slots, each lane its own. -/
theorem prodIco_phase2Start {α : Type*} [Monoid α] (slots : Nat → WithZero α)
    (hno : launch.nActive ≤ launch.localRange 0) :
    prodIco (launch.laneView (shuffleOffsets launch (· * ·) slots (phase2Start launch slots))) 0
        launch.nActive = prodIco slots 0 launch.nActive := by
  have hR0 : launch.localRange 0 ≤ launch.subgroupRange 0 := by
    rw [launch.localRange_zero, launch.subgroupRange_zero]
    omega
  rw [shuffleOffsets, h.localRangeInt_eq, h.nActiveSubgroups_eq,
    if_neg (by exact_mod_cast Nat.not_lt.mpr hno)]
  exact prodIco_congr _ fun q _ hq => by
    rw [Launch.laneView, if_pos (by omega), h.phase2Start_active slots hq]

/-- The results the active sub-groups store, taken in order, multiply to the values below
`max_size` in order, on both paths. -/
theorem prodIco_storeResults {α : Type*} [Monoid α] (path : ShufflePath)
    (hcov : path = .unrolled → launch.localRange 0 ≤ 32) (values : Nat → α)
    (localMem : Nat → Option α) :
    (prodIco (storeResults launch (shufflePhase1 launch (· * ·) path (some ∘ values)) localMem)
        0 launch.nActive : WithZero α) =
      some (prodIco values 0 launch.maxSize) := by
  set slots : Nat → WithZero α :=
    storeResults launch (shufflePhase1 launch (· * ·) path (some ∘ values)) localMem with hslots
  have hslot : ∀ k, 0 ≤ k → k < launch.nActive → slots k =
      WithZero.coeMonoidHom (prodIco values (k * launch.maxSubgroupSize)
        (k * launch.maxSubgroupSize + launch.phase1Width k)) := fun k _ hk => by
    rw [hslots, h.storeResults_active _ _ hk,
      h.shufflePhase1_eq_prod path hcov values (h.lt_nActive_iff.mp hk)]
    rfl
  rw [prodIco_congr _ hslot, ← map_prodIco, h.prodIco_active values]
  rfl

/-- The results the active sub-groups store multiply to the product of the values below
`max_size`, on both paths. -/
theorem prod_storeResults {α : Type*} [CommMonoid α] (path : ShufflePath)
    (hcov : path = .unrolled → launch.localRange 0 ≤ 32) (values : Nat → α)
    (localMem : Nat → Option α) :
    (∏ k ∈ range launch.nActive,
        storeResults launch (shufflePhase1 launch (· * ·) path (some ∘ values)) localMem k :
          WithZero α) =
      some (∏ i ∈ range launch.maxSize, values i) := by
  rw [range_eq_Ico, ← prodIco_eq_prod, ← prodIco_eq_prod]
  exact h.prodIco_storeResults path hcov values localMem

/-- For a power-of-two sub-group width, the second phase, on both paths, ends on lane `0`
with the product of the `nActive` slots it starts from. -/
theorem prod_shufflePhase2 {α : Type*} [CommMonoid α]
    (hpow : ∃ k, launch.maxSubgroupSize = 2 ^ k) (path : ShufflePath)
    (hcov : path = .unrolled → launch.localRange 0 ≤ 32) (slots : Nat → WithZero α) :
    ((path.strideList (launch.localRangeInt 0)).foldl (shufflePhase2Step launch (· * ·) path)
        (shuffleOffsets launch (· * ·) slots (phase2Start launch slots)) 0 : WithZero α) =
      ∏ k ∈ range launch.nActive, slots k := by
  obtain ⟨last, ⟨i, rfl⟩, hlast, hbelow, htree⟩ :=
    h.shufflePhase2_tree path hcov (shuffleOffsets launch (· * ·) slots (phase2Start launch slots))
  rw [htree]
  by_cases hfold : launch.localRange 0 < launch.nActive
  · have hlr0 := (h.localRange_eq_of_lt hfold).1
    have hlastM : 2 ^ i = launch.maxSubgroupSize := by
      obtain ⟨k, hk⟩ := hpow
      rw [hlr0, hk] at hlast hbelow
      rw [hk]
      rcases hbelow with hone | hlt
      · have := Nat.one_le_two_pow (n := k)
        omega
      · have hki := (Nat.pow_le_pow_iff_right (by decide)).mp hlast
        have hik := (Nat.pow_lt_pow_iff_right (by decide)).mp
          (show 2 ^ i < 2 ^ (k + 1) by rw [pow_succ]; omega)
        rw [show i = k by omega]
    rw [hlastM, min_eq_left (by omega), prodIco_eq_prod, ← range_eq_Ico]
    exact h.prod_shuffleOffsets slots hfold
  · rw [min_eq_right (by omega), h.prodIco_phase2Start slots (by omega), prodIco_eq_prod,
      ← range_eq_Ico]

end Launch.Fits

/-! ## The reduction -/

/-- For a power-of-two sub-group width, the shuffle-based reduction is exact on both paths:
lane `0` ends with the product of the values of the work-items below `max_size`, whatever
the work-items from `max_size` on bring and whatever `local_mem` held. -/
theorem shuffleReduction_eq_prod {α : Type*} [CommMonoid α] {launch : Launch}
    (h : launch.Fits) (hpow : ∃ k, launch.maxSubgroupSize = 2 ^ k) (path : ShufflePath)
    (hcov : path = .unrolled → launch.localRange 0 ≤ 32) (values : Nat → α)
    (localMem : Nat → Option α) :
    shuffleReduction launch (· * ·) path values localMem =
      some (∏ i ∈ range launch.maxSize, values i) := by
  rw [shuffleReduction, ← h.prod_storeResults path hcov values localMem]
  exact h.prod_shufflePhase2 hpow path hcov _

/-- Sub-groups of four, forty of sixty-four work-items taking part: ten active sub-groups,
more than the four lanes, so the offset loop runs before the tree. -/
theorem shuffleReduction_eq_prod_forty :
    shuffleReduction ⟨64, 4, 40⟩ (· * ·) .loop (fun i => i + 1) (fun _ => none) =
      some (∏ i ∈ range 40, (i + 1)) :=
  shuffleReduction_eq_prod ⟨by decide, by decide, by decide, by decide, by decide⟩ ⟨2, rfl⟩
    .loop (fun hp => ShufflePath.noConfusion hp) _ _

/-- For a sub-group width `M` that is not a power of two, with more than `M * M` work-items
below `max_size`, the first sub-group's tree runs to a stride past `M`, and lane `0` takes
in a value that `shift_group_left` read past the sub-group's last lane: the result is
unspecified on both paths, whatever the values. -/
theorem shuffleReduction_unspecified {α : Type*} [CommMonoid α] {launch : Launch}
    (h : launch.Fits) (hpow : ¬ ∃ k, launch.maxSubgroupSize = 2 ^ k)
    (hmany : launch.maxSubgroupSize * launch.maxSubgroupSize < launch.maxSize)
    (path : ShufflePath) (hcov : path = .unrolled → launch.localRange 0 ≤ 32)
    (values : Nat → α) (localMem : Nat → Option α) :
    shuffleReduction launch (· * ·) path values localMem = none := by
  have hnA : launch.maxSubgroupSize < launch.nActive := h.lt_nActive_iff.mpr hmany
  have hlr0 : launch.localRange 0 ≤ launch.maxSubgroupSize := by
    rw [launch.localRange_zero]
    omega
  obtain ⟨hlr0', hR0⟩ := h.localRange_eq_of_lt (lt_of_le_of_lt hlr0 hnA)
  obtain ⟨last, ⟨i, rfl⟩, hlast, -, htree⟩ := h.shufflePhase2_tree path hcov
    (shuffleOffsets launch (· * ·)
      (storeResults launch (shufflePhase1 launch (· * ·) path (some ∘ values)) localMem)
      (phase2Start launch
        (storeResults launch (shufflePhase1 launch (· * ·) path (some ∘ values)) localMem)))
  have hgt : launch.maxSubgroupSize < 2 ^ i :=
    lt_of_le_of_ne (hlr0' ▸ hlast) fun heq => hpow ⟨i, heq⟩
  rw [shuffleReduction, htree]
  show @Eq (WithZero α) _ 0
  rw [prodIco_eq_prod, ← range_eq_Ico]
  exact prod_eq_zero (mem_range.mpr (lt_min hgt hnA))
    (by rw [Launch.laneView, if_neg (by omega)])

/-- Sub-groups of three, twelve work-items all taking part: four active sub-groups, and the
result of the unrolled calls is unspecified. -/
theorem shuffleReduction_unspecified_three :
    shuffleReduction ⟨12, 3, 12⟩ (· * ·) .unrolled (fun _ => 2) (fun _ => none) = none :=
  shuffleReduction_unspecified ⟨by decide, by decide, by decide, by decide, by decide⟩
    (by rintro ⟨_ | _ | k, hk⟩ <;> simp only [pow_succ, pow_zero] at hk <;> omega) (by decide)
    .unrolled (fun _ => by decide) _ _

/-- With at most `M * M` work-items below `max_size` there are at most `M` active
sub-groups: the offset loop does not run, every shuffle of the second phase reads a lane of
the first sub-group, and lane `0` ends with the stored results in order, on both paths. -/
theorem shuffleReduction_eq_prodIco_slots {α : Type*} [Monoid α] {launch : Launch}
    (h : launch.Fits) (hsq : launch.maxSize ≤ launch.maxSubgroupSize * launch.maxSubgroupSize)
    (path : ShufflePath) (hcov : path = .unrolled → launch.localRange 0 ≤ 32)
    (values : Nat → α) (localMem : Nat → Option α) :
    (shuffleReduction launch (· * ·) path values localMem : WithZero α) =
      (prodIco (storeResults launch (shufflePhase1 launch (· * ·) path (some ∘ values)) localMem)
        0 launch.nActive : WithZero α) := by
  have hn : launch.nActive ≤ launch.maxSubgroupSize := Nat.le_of_not_lt fun hlt =>
    absurd (h.lt_nActive_iff.mp hlt) (by omega)
  have hno : launch.nActive ≤ launch.localRange 0 := by
    have := h.nActive_le_maxSize
    have := h.maxSize_le
    rw [launch.localRange_zero]
    omega
  rw [shuffleReduction]
  set slots : Nat → WithZero α :=
    storeResults launch (shufflePhase1 launch (· * ·) path (some ∘ values)) localMem
  obtain ⟨last, -, hlast, -, htree⟩ :=
    h.shufflePhase2_tree path hcov (shuffleOffsets launch (· * ·) slots (phase2Start launch slots))
  rw [htree, min_eq_right (by omega)]
  exact h.prodIco_phase2Start slots hno

/-- For every sub-group width `M`, a power of two or not, with at most `M * M` work-items
below `max_size`, the shuffle-based reduction is exact on both paths: there are at most `M`
active sub-groups, the offset loop does not run, and every shuffle of the second phase
reads a lane of the first sub-group. With more, a width that is not a power of two makes
the result unspecified (`shuffleReduction_unspecified`). -/
theorem shuffleReduction_eq_prod_of_le_sq {α : Type*} [CommMonoid α] {launch : Launch}
    (h : launch.Fits) (hsq : launch.maxSize ≤ launch.maxSubgroupSize * launch.maxSubgroupSize)
    (path : ShufflePath) (hcov : path = .unrolled → launch.localRange 0 ≤ 32)
    (values : Nat → α) (localMem : Nat → Option α) :
    shuffleReduction launch (· * ·) path values localMem =
      some (∏ i ∈ range launch.maxSize, values i) := by
  refine (shuffleReduction_eq_prodIco_slots h hsq path hcov values localMem).trans ?_
  rw [prodIco_eq_prod, ← range_eq_Ico]
  exact h.prod_storeResults path hcov values localMem

/-- Sub-groups of three, seven of nine work-items taking part, on the loop path: exact,
although three is not a power of two. -/
theorem shuffleReduction_eq_prod_of_le_sq_seven :
    shuffleReduction ⟨9, 3, 7⟩ (· * ·) .loop (fun i => i + 1) (fun _ => none) =
      some (∏ i ∈ range 7, (i + 1)) :=
  shuffleReduction_eq_prod_of_le_sq ⟨by decide, by decide, by decide, by decide, by decide⟩
    (by decide) .loop (fun hp => ShufflePath.noConfusion hp) _ _

/-- For every associative join with an identity, commutative or not, and every sub-group
width: with at most `M * M` work-items below `max_size`, the shuffle-based reduction
returns, on both paths, the values below `max_size` joined in the order of their local ids.
Each lane keeps its own value on the left of the one it shuffles in. -/
theorem shuffleReduction_eq_prodIco_of_le_sq {α : Type*} [Monoid α] {launch : Launch}
    (h : launch.Fits) (hsq : launch.maxSize ≤ launch.maxSubgroupSize * launch.maxSubgroupSize)
    (path : ShufflePath) (hcov : path = .unrolled → launch.localRange 0 ≤ 32)
    (values : Nat → α) (localMem : Nat → Option α) :
    shuffleReduction launch (· * ·) path values localMem =
      some (prodIco values 0 launch.maxSize) :=
  (shuffleReduction_eq_prodIco_slots h hsq path hcov values localMem).trans
    (h.prodIco_storeResults path hcov values localMem)

/-- Sub-groups of three, seven of nine work-items taking part, on the unrolled path, each
bringing its local id as a word of the free monoid: the result is the word `0 1 … 6`. -/
theorem shuffleReduction_eq_prodIco_of_le_sq_seven :
    shuffleReduction ⟨9, 3, 7⟩ (· * ·) .unrolled FreeMonoid.of (fun _ => none) =
      some (prodIco FreeMonoid.of 0 7) :=
  shuffleReduction_eq_prodIco_of_le_sq ⟨by decide, by decide, by decide, by decide, by decide⟩
    (by decide) .unrolled (fun _ => by decide) _ _

/-! ## The two paths -/

namespace Launch.Fits

variable {launch : Launch} (h : launch.Fits) {α : Type*} (join : α → α → α)
include h

/-- The two paths' first phases agree on every lane below `max_size`: each pass joins the
same lanes there, and those lanes read only lanes below `max_size`. -/
theorem shufflePhase1_paths (hcov : launch.localRange 0 ≤ 32) (values : Nat → Option α)
    {localId : Nat} (hlane : localId < launch.maxSize) :
    shufflePhase1 launch join .loop values localId =
      shufflePhase1 launch join .unrolled values localId := by
  have hM := h.subgroup_pos
  have hlr := h.localRange_lt
  rw [shufflePhase1, shufflePhase1, h.localRangeInt_eq,
    ShufflePath.foldl_strideList .loop hlr (fun hp => ShufflePath.noConfusion hp) _
      (fun v _ hs hs' => h.shufflePhase1Step_of_le join .loop v hs (by omega)),
    ShufflePath.foldl_strideList .unrolled hlr (fun _ => hcov) _
      (fun v _ hs hs' => h.shufflePhase1Step_of_le join .unrolled v hs (by omega))]
  refine foldl_rel (fun (v w : Nat → Option α) => ∀ l < launch.maxSize, v l = w l)
    (fun s hs v w hvw l hl => ?_) (fun _ _ => rfl) localId hlane
  have hs' := lt_of_mem_strides hs
  obtain ⟨g, j, hj, rfl⟩ : ∃ g j, j < launch.maxSubgroupSize ∧
      l = g * launch.maxSubgroupSize + j :=
    ⟨l / launch.maxSubgroupSize, l % launch.maxSubgroupSize, Nat.mod_lt _ hM,
      (Nat.div_add_mod' l _).symm⟩
  have hcut := h.phase1Width_le (show g * launch.maxSubgroupSize < launch.maxSize by omega)
  rw [h.shufflePhase1Step_active join .loop v hj hl (by omega),
    h.shufflePhase1Step_active join .unrolled w hj hl (by omega), hvw _ hl]
  split
  · rw [hvw _ (by omega)]
  · rfl

/-- The second phase reads only the first `nActive` slots of `local_mem`. -/
theorem shuffleOffsets_congr {slots slots' : Nat → Option α}
    (hslots : ∀ k < launch.nActive, slots k = slots' k) :
    shuffleOffsets launch join slots (phase2Start launch slots) =
      shuffleOffsets launch join slots' (phase2Start launch slots') := by
  have hstart : phase2Start launch slots = phase2Start launch slots' := funext fun p => by
    rw [phase2Start, phase2Start, h.nActiveSubgroups_eq]
    split
    · exact hslots p (by omega)
    · exact hslots 0 h.nActive_pos
  have hstep : shuffleOffsetStep launch join slots = shuffleOffsetStep launch join slots' :=
    funext fun v => funext fun offset => funext fun p => by
      rw [h.shuffleOffsetStep_eq, h.shuffleOffsetStep_eq]
      split
      · rw [hslots _ ‹_›]
      · rfl
  rw [hstart, shuffleOffsets, shuffleOffsets, hstep]

end Launch.Fits

/-- The loop and the unrolled calls of `shuffle_combine` give the same result, for any
join. They differ only on lanes past `max_size`, where the loop's `unsigned int`
comparison lets a lane join when `upper_stride_bound` is negative; no lane the result
depends on reads those lanes, and the one slot of `local_mem` they may write,
`local_mem[n_active_subgroups]`, is never read. -/
theorem shuffleReduction_loop_eq_unrolled {α : Type*} {launch : Launch} (h : launch.Fits)
    (hcov : launch.localRange 0 ≤ 32) (join : α → α → α) (values : Nat → α)
    (localMem : Nat → Option α) :
    shuffleReduction launch join .loop values localMem =
      shuffleReduction launch join .unrolled values localMem := by
  have hlr := h.localRange_lt
  have hR0 : 0 < launch.subgroupRange 0 := by
    have := h.subgroup_pos
    have := h.maxSize_pos
    have := h.maxSize_le
    rw [launch.subgroupRange_zero]
    omega
  have hslots : ∀ k < launch.nActive,
      storeResults launch (shufflePhase1 launch join .loop (some ∘ values)) localMem k =
        storeResults launch (shufflePhase1 launch join .unrolled (some ∘ values)) localMem k :=
    fun k hk => by
      rw [h.storeResults_active _ _ hk, h.storeResults_active _ _ hk,
        h.shufflePhase1_paths join hcov _ (h.lt_nActive_iff.mp hk)]
  rw [shuffleReduction, shuffleReduction, h.shuffleOffsets_congr join hslots, h.localRangeInt_eq,
    ShufflePath.foldl_strideList .loop hlr (fun hp => ShufflePath.noConfusion hp) _
      (fun v _ hs hs' => h.shufflePhase2Step_of_le join .loop v hs (by omega)),
    ShufflePath.foldl_strideList .unrolled hlr (fun _ => hcov) _
      (fun v _ hs hs' => h.shufflePhase2Step_of_le join .unrolled v hs (by omega))]
  refine foldl_rel (fun (v w : Nat → Option α) => ∀ p < launch.subgroupRange 0, v p = w p)
    (fun s hs v w hvw p hp => ?_) (fun _ _ => rfl) 0 hR0
  rw [h.shufflePhase2Step_eq join .loop v (lt_of_mem_strides hs) hp,
    h.shufflePhase2Step_eq join .unrolled w (lt_of_mem_strides hs) hp, hvw p hp]
  split_ifs with _ hup
  · rw [hvw _ hup]
  all_goals rfl

/-- Ten work-items in sub-groups of four, seven taking part, joined by a subtraction,
which is neither associative nor commutative: the two paths still agree. -/
theorem shuffleReduction_loop_eq_unrolled_ten :
    shuffleReduction ⟨10, 4, 7⟩ (fun a b => a - b) .loop id (fun _ => none) =
      shuffleReduction ⟨10, 4, 7⟩ (fun a b => a - b) .unrolled id (fun _ => none) :=
  shuffleReduction_loop_eq_unrolled ⟨by decide, by decide, by decide, by decide, by decide⟩
    (by decide) _ _ _

/-- The shuffle-based reduction never reads a slot of `local_mem` that the same call did
not write: for any join, on both paths and for every sub-group width, lane `0` ends with
the same value whatever `local_mem` held before. The second phase reads only the first
`n_active_subgroups` slots (`Launch.Fits.shuffleOffsets_congr`), and the active sub-groups
write every one of them. -/
theorem shuffleReduction_localMem_congr {α : Type*} {launch : Launch} (h : launch.Fits)
    (path : ShufflePath) (join : α → α → α) (values : Nat → α)
    (localMem localMem' : Nat → Option α) :
    shuffleReduction launch join path values localMem =
      shuffleReduction launch join path values localMem' := by
  have hslots : ∀ k < launch.nActive,
      storeResults launch (shufflePhase1 launch join path (some ∘ values)) localMem k =
        storeResults launch (shufflePhase1 launch join path (some ∘ values)) localMem' k :=
    fun k hk => by rw [h.storeResults_active _ _ hk, h.storeResults_active _ _ hk]
  rw [shuffleReduction, shuffleReduction, h.shuffleOffsets_congr join hslots]

/-- Sub-groups of three, seven work-items taking part, joined by a subtraction: with
`local_mem` holding nothing or `k + 5` in slot `k`, lane `0` ends with `-3` both times. -/
theorem shuffleReduction_localMem_congr_seven :
    shuffleReduction ⟨9, 3, 7⟩ (fun a b : Int => a - b) .loop (fun i => (i : Int))
        (fun _ => none) =
      shuffleReduction ⟨9, 3, 7⟩ (fun a b : Int => a - b) .loop (fun i => (i : Int))
        (fun k => some (k + 5)) ∧
    shuffleReduction ⟨9, 3, 7⟩ (fun a b : Int => a - b) .loop (fun i => (i : Int))
        (fun _ => none) = some (-3) :=
  ⟨shuffleReduction_localMem_congr ⟨by decide, by decide, by decide, by decide, by decide⟩
    .loop _ _ _ _, by decide⟩

end Kokkos.SYCLReduction
