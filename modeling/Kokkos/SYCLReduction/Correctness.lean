import Kokkos.SYCLReduction.Tree

/-!
# The reduction is exact for power-of-two sub-groups

With a commutative monoid as the join, slots of the local ids `max_size .. groupSize - 1`
holding the identity, and a maximal sub-group size that is a power of two, the value lane
`0` copies out is the product of the slots of the local ids `0 .. max_size - 1`.

The first phase is a contiguous tree in every sub-group: for the lanes that lane `0` of
the sub-group reads from, `upper_stride_bound` is exactly the number of slots left before
the end of the sub-group or `max_size`, so lane `0` gets the product of its sub-group's
slots below `max_size` (`phase1_eq_prod`). The arithmetic of `upper_stride_bound`,
wrap-around included, is settled once in `phase1Partner_eq`.

In the second phase the offset loop only runs when `local_range` is the full sub-group
width `M`, and it folds the results of the sub-groups from `M` on into the first `M`
slots. The tree after it lets lane `p` join lane `p + stride` whenever that lane is a
sub-group, including lanes the offset loop already folded; but with `M` a power of two,
the lanes lane `0` reads from are multiples of the stride whose partners stay below `M`,
so the slots past `M` never reach lane `0` (`AlignedHolds`). For other sub-group widths
they do: `workgroupReduction_counts_twice` in `Kokkos.SYCLReduction.LocalMemory`, and for
every width `M` that is not a power of two, a work-group of `M + 1` full sub-groups gets
its last sub-group counted twice (`workgroupReduction_counts_last_twice`). With at most `M`
sub-groups every width is exact (`workgroupReduction_eq_prod_of_le_sq`): every partner is
then a lane of the first sub-group, and no slot reaches lane `0` twice. Both trees keep a
lane's own value on the left of what it joins, so there the join need not even commute:
for any monoid lane `0` copies out the slots in the order of their local ids
(`workgroupReduction_eq_prodIco_of_le_sq`).

Lanes past `max_size` may read past the work-group's slots
(`phase1_reads_past_local_mem`), but for any join what lane `0` copies out depends only on
the work-group's slots (`workgroupReduction_congr`).
-/

namespace Kokkos.SYCLReduction

open Finset

namespace Launch

variable (launch : Launch)

/-- The slots lane `0` of sub-group `group` reduces in the first phase: the sub-group's
slots below `max_size`; for a sub-group starting at `max_size`, one slot (its
`upper_stride_bound` is `0`), and past it the whole `local_range` (its
`max_size - local_id` wraps). -/
def phase1Width (group : Nat) : Nat :=
  if group * launch.maxSubgroupSize < launch.maxSize then
    min (launch.subgroupRange group) (launch.maxSize - group * launch.maxSubgroupSize)
  else if group * launch.maxSubgroupSize = launch.maxSize then 1
  else launch.localRange (group * launch.maxSubgroupSize)

variable {launch}

theorem lt_nSubgroups_iff (hM : 0 < launch.maxSubgroupSize) {group : Nat} :
    group < launch.nSubgroups ↔ group * launch.maxSubgroupSize < launch.groupSize := by
  rw [nSubgroups, ← Nat.succ_le_iff, Nat.le_div_iff_mul_le hM, Nat.succ_mul]
  omega

theorem nSubgroups_le (hM : 0 < launch.maxSubgroupSize) :
    launch.nSubgroups ≤ launch.groupSize := by
  by_contra h
  have := (lt_nSubgroups_iff hM).mp (show launch.groupSize < launch.nSubgroups by omega)
  nlinarith

theorem le_nSubgroups_mul (hM : 0 < launch.maxSubgroupSize) :
    launch.groupSize ≤ launch.nSubgroups * launch.maxSubgroupSize := by
  have h1 := Nat.div_add_mod (launch.groupSize + launch.maxSubgroupSize - 1) launch.maxSubgroupSize
  have h2 := Nat.mod_lt (launch.groupSize + launch.maxSubgroupSize - 1) hM
  rw [nSubgroups, Nat.mul_comm]
  omega

theorem subgroupRange_bounds (hM : 0 < launch.maxSubgroupSize) {group : Nat}
    (hg : group < launch.nSubgroups) :
    0 < launch.subgroupRange group ∧ launch.subgroupRange group ≤ launch.maxSubgroupSize ∧
      group * launch.maxSubgroupSize + launch.subgroupRange group ≤ launch.groupSize := by
  have := (lt_nSubgroups_iff hM).mp hg
  simp only [subgroupRange]
  omega

theorem subgroupRange_le_zero (group : Nat) :
    launch.subgroupRange group ≤ launch.subgroupRange 0 := by
  simp only [subgroupRange]
  omega

theorem subgroupRange_zero :
    launch.subgroupRange 0 = min launch.maxSubgroupSize launch.groupSize := by
  rw [subgroupRange, Nat.zero_mul, Nat.sub_zero]

theorem localRange_zero :
    launch.localRange 0 = min (min launch.maxSubgroupSize launch.groupSize) launch.maxSize := by
  rw [localRange, Nat.zero_div, subgroupRange_zero]

theorem localRange_add {group j : Nat} (hM : 0 < launch.maxSubgroupSize)
    (hj : j < launch.maxSubgroupSize) :
    launch.localRange (group * launch.maxSubgroupSize + j) =
      min (launch.subgroupRange group) launch.maxSize := by
  rw [localRange, Nat.add_comm, Nat.add_mul_div_right _ _ hM, Nat.div_eq_of_lt hj, Nat.zero_add]

theorem idInSg_add {group j : Nat} (hj : j < launch.maxSubgroupSize) :
    launch.idInSg (group * launch.maxSubgroupSize + j) = j := by
  rw [idInSg, Nat.add_comm, Nat.add_mul_mod_self_right, Nat.mod_eq_of_lt hj]

theorem phase1Width_eq (hM : 0 < launch.maxSubgroupSize) (group : Nat) :
    launch.phase1Width group =
      if group * launch.maxSubgroupSize < launch.maxSize then
        min (launch.subgroupRange group) (launch.maxSize - group * launch.maxSubgroupSize)
      else if group * launch.maxSubgroupSize = launch.maxSize then 1
      else min (launch.subgroupRange group) launch.maxSize := by
  have h := @localRange_add launch group 0 hM hM
  rw [Nat.add_zero] at h
  rw [phase1Width, h]

end Launch

/-- The sub-groups' slots below `bound`, taken in order, are the slots below `bound`. -/
theorem prodIco_blocks {α : Type*} [Monoid α] (f : Nat → α) (width bound n : Nat) :
    prodIco (fun g => prodIco f (min (g * width) bound) (min ((g + 1) * width) bound)) 0 n =
      prodIco f 0 (min (n * width) bound) := by
  induction n with
  | zero => rw [prodIco_of_le _ le_rfl, Nat.zero_mul, Nat.zero_min, prodIco_of_le _ le_rfl]
  | succ n ih =>
    rw [prodIco_succ_top _ (Nat.zero_le n), ih,
      prodIco_consecutive f (Nat.zero_le _) (by gcongr; omega)]

/-! ## The first phase -/

section Phase1

variable {launch : Launch} (hM : 0 < launch.maxSubgroupSize) (hL : launch.groupSize < 2 ^ 32)
  (hpos : 0 < launch.maxSize) (hmax : launch.maxSize ≤ launch.groupSize)

include hM hpos in
theorem phase1Width_bounds {group : Nat} (hg : group < launch.nSubgroups) :
    0 < launch.phase1Width group ∧ launch.phase1Width group ≤ launch.subgroupRange group ∧
      launch.phase1Width group ≤ launch.localRange 0 := by
  have h0 := @Launch.localRange_add launch 0 0 hM hM
  have hR := Launch.subgroupRange_bounds hM hg
  have hR0 := launch.subgroupRange_le_zero group
  simp only [Nat.zero_mul, Nat.add_zero] at h0
  rw [launch.phase1Width_eq hM, h0]
  split_ifs <;> omega

include hM hL hpos hmax in
/-- For the lanes lane `0` of a sub-group reads from, `stride < upper_stride_bound` holds
exactly while the partner is one of the sub-group's `phase1Width` slots. -/
theorem phase1Partner_eq {group j stride : Nat} (hg : group < launch.nSubgroups)
    (hj : j < launch.phase1Width group) (hs : 0 < stride) :
    phase1Partner launch stride (group * launch.maxSubgroupSize + j) =
      if j + stride < launch.phase1Width group then
        some (group * launch.maxSubgroupSize + j + stride)
      else none := by
  obtain ⟨-, hwidth, hle⟩ := phase1Width_bounds hM hpos hg
  obtain ⟨-, hRM, hRL⟩ := Launch.subgroupRange_bounds hM hg
  have hjM : j < launch.maxSubgroupSize := by omega
  have hlr := launch.localRange_zero
  have hjlr : j ≤ min (launch.subgroupRange group) launch.maxSize := by omega
  have hlr32 : min (launch.subgroupRange group) launch.maxSize < 2 ^ 32 := by omega
  have hmax32 : launch.maxSize < 2 ^ 32 := by omega
  have hlane32 : group * launch.maxSubgroupSize + j < 2 ^ 32 := by omega
  have hguard : stride < launch.localRange (group * launch.maxSubgroupSize + j) ∧
      stride < launch.upperStrideBound (group * launch.maxSubgroupSize + j) ↔
        j + stride < launch.phase1Width group := by
    rw [Launch.upperStrideBound, Launch.localRange_add hM hjM, Launch.idInSg_add hjM,
      wrapSub_of_le hlr32 hjlr, wrapSub_eq hmax32 hlane32, launch.phase1Width_eq hM]
    rw [launch.phase1Width_eq hM] at hj
    clear hwidth hle hRM hRL hjM hlr hjlr hlr32 hmax32 hg hL hmax hpos
    simp only [lt_min_iff, Nat.lt_sub_iff_add_lt] at hj ⊢
    split_ifs at hj ⊢ <;> omega
  exact if_congr hguard rfl rfl

include hM hL hpos hmax in
/-- One round of the first phase is a round of the contiguous tree of every sub-group. -/
theorem phase1_round {α : Type*} {join : α → α → α} {group stride : Nat}
    (hg : group < launch.nSubgroups) (hs : 0 < stride) (mem : Nat → α) {j : Nat}
    (hj : j < launch.phase1Width group) :
    round join 1 launch.groupSize (phase1Partner launch stride) mem
        (group * launch.maxSubgroupSize + j) =
      if j + stride < launch.phase1Width group then
        join (mem (group * launch.maxSubgroupSize + j))
          (mem (group * launch.maxSubgroupSize + j + stride))
      else mem (group * launch.maxSubgroupSize + j) := by
  obtain ⟨-, hwidth, -⟩ := phase1Width_bounds hM hpos hg
  have hbase := (Launch.lt_nSubgroups_iff hM).mp hg
  have hin : group * launch.maxSubgroupSize + j < launch.groupSize := by
    simp only [Launch.subgroupRange] at hwidth
    omega
  simp only [round, Nat.mod_one, Nat.div_one, hin, and_self, if_true,
    phase1Partner_eq hM hL hpos hmax hg hj hs, Nat.mul_one]
  by_cases h : j + stride < launch.phase1Width group <;> simp [h]

include hM hL hpos hmax in
/-- After the first phase, lane `0` of a sub-group holds the product of the sub-group's
`phase1Width` slots, in order. -/
theorem phase1_eq {α : Type*} [Monoid α] {group : Nat} (hg : group < launch.nSubgroups)
    (mem : Nat → α) :
    phase1 launch (· * ·) mem (group * launch.maxSubgroupSize) =
      prodIco mem (group * launch.maxSubgroupSize)
        (group * launch.maxSubgroupSize + launch.phase1Width group) := by
  obtain ⟨hpos', -, hle⟩ := phase1Width_bounds hM hpos hg
  obtain ⟨last, hlast, -, htree⟩ := foldl_strides
    (fun stride m => 0 < stride ∧
      TreeHolds mem (group * launch.maxSubgroupSize) (launch.phase1Width group) stride m)
    (fun m stride => round (· * ·) 1 launch.groupSize (phase1Partner launch stride) m)
    (fun stride m _ ⟨hs, h⟩ =>
      ⟨by omega, h.round mem fun j hj => phase1_round hM hL hpos hmax hg hs m hj⟩)
    ⟨Nat.one_pos, treeHolds_one mem fun _ _ => rfl⟩
  exact htree.root mem hpos' (hle.trans hlast)

include hM hL hpos hmax in
/-- With the identity in the slots from `max_size` on, lane `0` of a sub-group holds the
product of the sub-group's slots below `max_size`, in order. -/
theorem phase1_eq_prod {α : Type*} [Monoid α]
    {mem : Nat → α} (hone : ∀ i, launch.maxSize ≤ i → i < launch.groupSize → mem i = 1)
    {group : Nat} (hg : group < launch.nSubgroups) :
    phase1 launch (· * ·) mem (group * launch.maxSubgroupSize) =
      prodIco mem (group * launch.maxSubgroupSize)
        (min (group * launch.maxSubgroupSize + launch.subgroupRange group) launch.maxSize) := by
  obtain ⟨-, hwidth, -⟩ := phase1Width_bounds hM hpos hg
  have hbase := (Launch.lt_nSubgroups_iff hM).mp hg
  rw [phase1_eq hM hL hpos hmax hg]
  by_cases hlt : group * launch.maxSubgroupSize < launch.maxSize
  · congr 1
    rw [launch.phase1Width_eq hM, if_pos hlt]
    omega
  · obtain ⟨-, -, hRL⟩ := Launch.subgroupRange_bounds hM hg
    rw [prodIco_of_le _ (show min (group * launch.maxSubgroupSize +
      launch.subgroupRange group) launch.maxSize ≤ group * launch.maxSubgroupSize by omega)]
    exact prodIco_eq_one _ fun i hi hi' => hone i (by omega) (by omega)

include hM hL hpos hmax in
/-- The sub-groups' results, taken in order, multiply to the slots below `max_size` in
order. -/
theorem prodIco_phase1 {α : Type*} [Monoid α] {mem : Nat → α}
    (hone : ∀ i, launch.maxSize ≤ i → i < launch.groupSize → mem i = 1) :
    prodIco (fun g => phase1 launch (· * ·) mem (g * launch.maxSubgroupSize)) 0
        launch.nSubgroups = prodIco mem 0 launch.maxSize := by
  have hcover := Launch.le_nSubgroups_mul hM
  calc prodIco (fun g => phase1 launch (· * ·) mem (g * launch.maxSubgroupSize)) 0
          launch.nSubgroups
      = prodIco (fun g => prodIco mem (min (g * launch.maxSubgroupSize) launch.maxSize)
          (min ((g + 1) * launch.maxSubgroupSize) launch.maxSize)) 0 launch.nSubgroups := by
        refine prodIco_congr _ fun g _ hg => ?_
        have hbase := (Launch.lt_nSubgroups_iff hM).mp hg
        rw [phase1_eq_prod hM hL hpos hmax hone hg]
        by_cases hlt : g * launch.maxSubgroupSize < launch.maxSize
        · rw [show min (g * launch.maxSubgroupSize) launch.maxSize =
              g * launch.maxSubgroupSize by omega,
            show min (g * launch.maxSubgroupSize + launch.subgroupRange g) launch.maxSize =
              min ((g + 1) * launch.maxSubgroupSize) launch.maxSize by
                simp only [Launch.subgroupRange, Nat.succ_mul]; omega]
        · rw [prodIco_of_le _ (show min (g * launch.maxSubgroupSize + launch.subgroupRange g)
              launch.maxSize ≤ g * launch.maxSubgroupSize by omega),
            prodIco_of_le _ (show min ((g + 1) * launch.maxSubgroupSize) launch.maxSize ≤
              min (g * launch.maxSubgroupSize) launch.maxSize by rw [Nat.succ_mul]; omega)]
    _ = prodIco mem 0 (min (launch.nSubgroups * launch.maxSubgroupSize) launch.maxSize) :=
        prodIco_blocks _ _ _ _
    _ = prodIco mem 0 launch.maxSize := by
        rw [show min (launch.nSubgroups * launch.maxSubgroupSize) launch.maxSize = launch.maxSize by
          omega]

include hM hL hpos hmax in
/-- The sub-groups' results multiply to the slots below `max_size`. -/
theorem prod_phase1 {α : Type*} [CommMonoid α] {mem : Nat → α}
    (hone : ∀ i, launch.maxSize ≤ i → i < launch.groupSize → mem i = 1) :
    ∏ g ∈ range launch.nSubgroups, phase1 launch (· * ·) mem (g * launch.maxSubgroupSize) =
      ∏ i ∈ range launch.maxSize, mem i := by
  rw [range_eq_Ico, ← prodIco_eq_prod, ← prodIco_eq_prod]
  exact prodIco_phase1 hM hL hpos hmax hone

include hM hL hpos hmax in
/-- The first phase fills the slots that lane `0` of a sub-group reads from the
work-group's slots alone. -/
theorem phase1_congr {α : Type*} (join : α → α → α) {mem mem' : Nat → α}
    (hagree : ∀ i < launch.groupSize, mem i = mem' i) :
    ∀ g < launch.nSubgroups, ∀ j < launch.phase1Width g,
      phase1 launch join mem (g * launch.maxSubgroupSize + j) =
        phase1 launch join mem' (g * launch.maxSubgroupSize + j) := by
  refine foldl_rel (fun v w : Nat → α => ∀ g < launch.nSubgroups, ∀ j < launch.phase1Width g,
      v (g * launch.maxSubgroupSize + j) = w (g * launch.maxSubgroupSize + j))
    (fun s hs v w hvw g hg j hj => ?_) (fun g hg j hj => hagree _ ?_)
  · rw [phase1_round hM hL hpos hmax hg (pos_of_mem_strides hs) v hj,
      phase1_round hM hL hpos hmax hg (pos_of_mem_strides hs) w hj, hvw g hg j hj]
    split
    · rw [Nat.add_assoc, hvw g hg (j + s) ‹_›]
    · rfl
  · obtain ⟨-, hwidth, -⟩ := phase1Width_bounds hM hpos hg
    have := (Launch.subgroupRange_bounds hM hg).2.2
    omega

end Phase1

/-! ## The second phase -/

/-- A round of the second phase on the slot of a lane of the first sub-group. -/
theorem round_phase2_lane {α : Type*} {join : α → α → α} {launch : Launch}
    (hM : 0 < launch.maxSubgroupSize) (m : Nat → α) (offset : Nat) {p : Nat}
    (hp : p < launch.subgroupRange 0) :
    round join launch.maxSubgroupSize (launch.subgroupRange 0) (phase2Partner launch offset) m
        (p * launch.maxSubgroupSize) =
      if p + offset < launch.nSubgroups then
        join (m (p * launch.maxSubgroupSize)) (m ((p + offset) * launch.maxSubgroupSize))
      else m (p * launch.maxSubgroupSize) := by
  simp only [round, Nat.mul_mod_left, Nat.mul_div_cancel _ hM, hp, and_self, if_true, phase2Partner]
  by_cases h : p + offset < launch.nSubgroups <;> simp [h]

/-- A round of the second phase leaves the slots of the other sub-groups alone. -/
theorem round_phase2_other {α : Type*} {join : α → α → α} {launch : Launch}
    (hM : 0 < launch.maxSubgroupSize) (m : Nat → α) (offset : Nat) {g : Nat}
    (hg : launch.subgroupRange 0 ≤ g) :
    round join launch.maxSubgroupSize (launch.subgroupRange 0) (phase2Partner launch offset) m
        (g * launch.maxSubgroupSize) = m (g * launch.maxSubgroupSize) := by
  simp only [round, Nat.mul_mod_left, Nat.mul_div_cancel _ hM, true_and]
  rw [if_neg (by omega)]

/-- A round of the second phase fills the sub-groups' first slots from theirs alone. -/
theorem round_phase2_congr {α : Type*} {join : α → α → α} {launch : Launch}
    (hM : 0 < launch.maxSubgroupSize) (offset : Nat) {m m' : Nat → α}
    (hm : ∀ g < launch.nSubgroups,
      m (g * launch.maxSubgroupSize) = m' (g * launch.maxSubgroupSize)) :
    ∀ g < launch.nSubgroups,
      round join launch.maxSubgroupSize (launch.subgroupRange 0) (phase2Partner launch offset) m
          (g * launch.maxSubgroupSize) =
        round join launch.maxSubgroupSize (launch.subgroupRange 0) (phase2Partner launch offset)
          m' (g * launch.maxSubgroupSize) := by
  intro g hg
  by_cases hlane : g < launch.subgroupRange 0
  · rw [round_phase2_lane hM m offset hlane, round_phase2_lane hM m' offset hlane, hm g hg]
    split
    · rw [hm _ ‹_›]
    · rfl
  · rw [round_phase2_other hM m offset (by omega), round_phase2_other hM m' offset (by omega),
      hm g hg]

/-- The offset loop, which runs only when `local_range` is the whole width `M`: the slots
of the sub-groups from `M` on keep their results, and the first `M` slots end with the
product of the results of the sub-groups below the offset it stops at. -/
theorem phase2_offsets {α : Type*} [CommMonoid α] {launch : Launch}
    (hM : 0 < launch.maxSubgroupSize)
    (hfold : launch.localRange 0 < min launch.nSubgroups launch.maxSize) (m : Nat → α) :
    ∃ last, min launch.nSubgroups launch.maxSize ≤ last ∧
      OffsetsHold (fun g => m (g * launch.maxSubgroupSize)) launch.maxSubgroupSize
        launch.maxSubgroupSize launch.nSubgroups last
        ((offsets (launch.localRange 0) (min launch.nSubgroups launch.maxSize)).foldl
          (fun m offset => round (· * ·) launch.maxSubgroupSize (launch.subgroupRange 0)
            (phase2Partner launch offset) m) m) := by
  have hle := Launch.nSubgroups_le hM
  have hlr := launch.localRange_zero
  have hlr0 : launch.localRange 0 = launch.maxSubgroupSize := by omega
  have hsg : launch.subgroupRange 0 = launch.maxSubgroupSize := by
    rw [launch.subgroupRange_zero]
    omega
  have hstep : ∀ offset (m' : Nat → α), offset < min launch.nSubgroups launch.maxSize →
      OffsetsHold (fun g => m (g * launch.maxSubgroupSize)) launch.maxSubgroupSize
        launch.maxSubgroupSize launch.nSubgroups offset m' →
      OffsetsHold (fun g => m (g * launch.maxSubgroupSize)) launch.maxSubgroupSize
        launch.maxSubgroupSize launch.nSubgroups (offset + launch.localRange 0)
        (round (· * ·) launch.maxSubgroupSize (launch.subgroupRange 0)
          (phase2Partner launch offset) m') := fun offset m' hoff h => by
    rw [hlr0]
    exact h.round _ (by omega) (fun q hq => round_phase2_lane hM m' offset (by omega))
      (fun g hg => round_phase2_other hM m' offset (by omega))
  exact foldl_offsets _ _ hstep (by omega)
    (by rw [hlr0]; exact offsetsHold_start _ (fun _ _ => rfl) (by omega))

/-! ## The reduction -/

/-- The tree of the second phase with one sub-group more than lanes: lane `p` joins lane
`p + stride` while that is a sub-group, and the slot of sub-group `M`, which no lane of
the first sub-group writes, takes part as a leaf. Lane `0` ends with the product of the
first `min last (M + 1)` slots in order, `last` the power of two the loop stops at. -/
theorem phase2_tree_of_succ {α : Type*} [Monoid α] {launch : Launch}
    (hM : 0 < launch.maxSubgroupSize) (hsg : launch.subgroupRange 0 = launch.maxSubgroupSize)
    (hn : launch.nSubgroups = launch.maxSubgroupSize + 1) (m : Nat → α) :
    ∃ last, launch.localRange 0 ≤ last ∧ (∃ i, last = 2 ^ i) ∧
      (strides (launch.localRange 0)).foldl
          (fun m stride => round (· * ·) launch.maxSubgroupSize (launch.subgroupRange 0)
            (phase2Partner launch stride) m) m 0 =
        prodIco (fun q => m (q * launch.maxSubgroupSize)) 0
          (min last (launch.maxSubgroupSize + 1)) := by
  have hstep : ∀ stride (m' : Nat → α), stride < launch.localRange 0 →
      ((∃ i, stride = 2 ^ i) ∧ AlignedHolds (fun q => m (q * launch.maxSubgroupSize))
        launch.maxSubgroupSize (launch.maxSubgroupSize + 1) stride m') →
      (∃ i, 2 * stride = 2 ^ i) ∧ AlignedHolds (fun q => m (q * launch.maxSubgroupSize))
        launch.maxSubgroupSize (launch.maxSubgroupSize + 1) (2 * stride)
        (round (· * ·) launch.maxSubgroupSize (launch.subgroupRange 0)
          (phase2Partner launch stride) m') := by
    intro stride m' _ ⟨⟨i, hi⟩, h⟩
    refine ⟨⟨i + 1, by rw [hi, pow_succ']⟩, h.round _ fun p hp _ => ?_⟩
    have hs : 0 < stride := hi ▸ Nat.two_pow_pos i
    rcases Nat.lt_succ_iff_lt_or_eq.mp hp with hp | rfl
    · rw [round_phase2_lane hM m' stride (by omega), hn]
    · rw [round_phase2_other hM m' stride hsg.le, if_neg (show ¬ launch.maxSubgroupSize + stride <
        launch.maxSubgroupSize + 1 by omega)]
  obtain ⟨last, hlast, hpow, htree⟩ := foldl_strides _ _ hstep
    ⟨⟨0, rfl⟩, alignedHolds_one (fun q => m (q * launch.maxSubgroupSize)) fun _ _ => rfl⟩
  exact ⟨last, hlast, hpow, htree.root _ (Nat.succ_pos _)⟩

/-- For a sub-group width `M` that is not a power of two, a work-group of `M + 1` full
sub-groups, all of whose items take part, gets the last sub-group counted twice: the offset
loop folds it into lane `0`, and the tree, which stops at the power of two past `M`, reaches
its slot again through lane `M - stride`. -/
theorem workgroupReduction_counts_last_twice {α : Type*} [CommMonoid α] {launch : Launch}
    (hM : 0 < launch.maxSubgroupSize) (hpow : ¬ ∃ k, launch.maxSubgroupSize = 2 ^ k)
    (hgroup : launch.groupSize = launch.maxSubgroupSize * (launch.maxSubgroupSize + 1))
    (hmax : launch.maxSize = launch.groupSize) (hL : launch.groupSize < 2 ^ 32) (mem : Nat → α) :
    workgroupReduction launch (· * ·) mem =
      (∏ i ∈ range launch.groupSize, mem i) *
        ∏ i ∈ Ico (launch.maxSubgroupSize * launch.maxSubgroupSize)
          (launch.maxSubgroupSize * launch.maxSubgroupSize + launch.maxSubgroupSize), mem i := by
  have hsg : launch.subgroupRange 0 = launch.maxSubgroupSize := by
    rw [launch.subgroupRange_zero, hgroup]
    exact min_eq_left (Nat.le_mul_of_pos_right _ (Nat.succ_pos _))
  have hlr : launch.localRange 0 = launch.maxSubgroupSize := by
    rw [Launch.localRange, Nat.zero_div, hsg, hmax, hgroup]
    exact min_eq_left (Nat.le_mul_of_pos_right _ (Nat.succ_pos _))
  have hn : launch.nSubgroups = launch.maxSubgroupSize + 1 := by
    rw [Launch.nSubgroups, hgroup, show launch.maxSubgroupSize * (launch.maxSubgroupSize + 1) +
      launch.maxSubgroupSize - 1 = launch.maxSubgroupSize - 1 +
        (launch.maxSubgroupSize + 1) * launch.maxSubgroupSize by rw [Nat.mul_comm]; omega,
      Nat.add_mul_div_right _ _ hM, Nat.div_eq_of_lt (by omega), Nat.zero_add]
  have hpos : 0 < launch.maxSize := by rw [hmax, hgroup]; positivity
  have hone : ∀ i, launch.maxSize ≤ i → i < launch.groupSize → mem i = 1 :=
    fun i hi hi' => by omega
  have hlast : phase1 launch (· * ·) mem (launch.maxSubgroupSize * launch.maxSubgroupSize) =
      ∏ i ∈ Ico (launch.maxSubgroupSize * launch.maxSubgroupSize)
        (launch.maxSubgroupSize * launch.maxSubgroupSize + launch.maxSubgroupSize), mem i := by
    have hR : launch.subgroupRange launch.maxSubgroupSize = launch.maxSubgroupSize := by
      simp only [Launch.subgroupRange, hgroup, Nat.mul_succ, Nat.add_sub_cancel_left, min_self]
    rw [phase1_eq_prod hM hL hpos hmax.le hone (by omega), hR, hmax, hgroup, Nat.mul_succ,
      min_self, prodIco_eq_prod]
  rw [← hmax, ← prod_phase1 hM hL hpos hmax.le hone, workgroupReduction, phase2]
  have hsq := Nat.le_mul_of_pos_left (launch.maxSubgroupSize + 1) hM
  obtain ⟨off, hoff, -, hrest, hoffsets⟩ :=
    phase2_offsets hM (by rw [hlr, hn, hmax, hgroup]; omega) (phase1 launch (· * ·) mem)
  obtain ⟨last, hlast', ⟨i, rfl⟩, htree⟩ := phase2_tree_of_succ hM hsg hn
    ((offsets (launch.localRange 0) (min launch.nSubgroups launch.maxSize)).foldl
      (fun m offset => round (· * ·) launch.maxSubgroupSize (launch.subgroupRange 0)
        (phase2Partner launch offset) m) (phase1 launch (· * ·) mem))
  have hpast : launch.maxSubgroupSize < 2 ^ i :=
    lt_of_le_of_ne (hlr ▸ hlast') fun h => hpow ⟨i, h⟩
  rw [htree, min_eq_right hpast, prodIco_succ_top _ (Nat.zero_le _), prodIco_eq_prod,
    ← range_eq_Ico, hoffsets, hrest _ le_rfl (by omega),
    show min launch.nSubgroups off = launch.nSubgroups by omega]
  dsimp only
  rw [hlast]

/-- Sub-groups of three, four of them, every item taking part, every value `2`: the
product comes out as `2^15` in place of `2^12`. -/
theorem workgroupReduction_counts_last_twice_three :
    workgroupReduction ⟨12, 3, 12⟩ (· * ·) (fun _ => 2) =
      (∏ _i ∈ range 12, 2) * ∏ _i ∈ Ico (3 * 3) (3 * 3 + 3), 2 :=
  workgroupReduction_counts_last_twice (by decide)
    (by rintro ⟨_ | _ | k, hk⟩ <;> simp only [pow_succ, pow_zero] at hk <;> omega)
    (by decide) (by decide) (by decide) _

/-- The joins of the lanes that feed the result stay in bounds: in the first phase, a lane
below `max_size` joins only a local id of its own sub-group below `max_size`; in the second,
a lane joins (and so writes) only when both its slot and its partner's are the first slots
of sub-groups, below the work-group's size. -/
theorem joins_in_bounds {launch : Launch} (hM : 0 < launch.maxSubgroupSize)
    (hL : launch.groupSize < 2 ^ 32) (hmax : launch.maxSize ≤ launch.groupSize) :
    (∀ stride localId lane, localId < launch.maxSize →
      phase1Partner launch stride localId = some lane →
        lane / launch.maxSubgroupSize = localId / launch.maxSubgroupSize ∧
          lane < launch.maxSize) ∧
    ∀ offset p lane, phase2Partner launch offset p = some lane →
      p * launch.maxSubgroupSize < launch.groupSize ∧
        lane * launch.maxSubgroupSize < launch.groupSize := by
  constructor
  · intro stride localId lane hid h
    obtain ⟨group, j, hj, rfl⟩ : ∃ group j, j < launch.maxSubgroupSize ∧
        localId = group * launch.maxSubgroupSize + j :=
      ⟨localId / launch.maxSubgroupSize, localId % launch.maxSubgroupSize, Nat.mod_lt _ hM,
        (Nat.div_add_mod' _ _).symm⟩
    have hR : launch.subgroupRange group = min launch.maxSubgroupSize
        (launch.groupSize - group * launch.maxSubgroupSize) := rfl
    simp only [phase1Partner, Launch.upperStrideBound, Launch.localRange_add hM hj,
      Launch.idInSg_add hj] at h
    rw [wrapSub_of_le (by omega) (by omega), wrapSub_of_le (by omega) hid.le] at h
    split_ifs at h with hc
    cases h
    have hgroup : ∀ i < launch.maxSubgroupSize, (group * launch.maxSubgroupSize + i) /
        launch.maxSubgroupSize = group := fun i hi => by
      rw [Nat.add_comm, Nat.add_mul_div_right _ _ hM, Nat.div_eq_of_lt hi, Nat.zero_add]
    rw [Nat.add_assoc, hgroup _ (by omega), hgroup j hj]
    exact ⟨rfl, by omega⟩
  · intro offset p lane h
    simp only [phase2Partner] at h
    split_ifs at h with hc
    cases h
    have hlt := (Launch.lt_nSubgroups_iff hM).mp hc
    exact ⟨lt_of_le_of_lt (Nat.mul_le_mul_right _ (Nat.le_add_right p offset)) hlt, hlt⟩

/-- Ten items in sub-groups of three: at stride `1`, lane `4` joins local id `5`, of its
own sub-group and below `max_size`. -/
theorem joins_in_bounds_ten :
    (4 < 10 ∧ phase1Partner ⟨10, 3, 10⟩ 1 4 = some 5) ∧ 5 / 3 = 4 / 3 ∧ 5 < 10 :=
  ⟨⟨by decide, by decide⟩,
    (@joins_in_bounds ⟨10, 3, 10⟩ (by decide) (by decide) (by decide)).1 1 4 5 (by decide)
      (by decide)⟩

/-- Whatever the reads past the work-group's slots load (`phase1_reads_past_local_mem`),
lane `0` never takes them in: for every join, two contents of `local_mem` that agree on
the slots of the work-group's local ids give the same result. Lane `0` of a sub-group only
reads its sub-group's `phase1Width` slots, which read only each other, and the second phase
reads only the first slots of the sub-groups. -/
theorem workgroupReduction_congr {α : Type*} {launch : Launch}
    (hM : 0 < launch.maxSubgroupSize) (hL : launch.groupSize < 2 ^ 32)
    (hpos : 0 < launch.maxSize) (hmax : launch.maxSize ≤ launch.groupSize) (join : α → α → α)
    {mem mem' : Nat → α} (hagree : ∀ i < launch.groupSize, mem i = mem' i) :
    workgroupReduction launch join mem = workgroupReduction launch join mem' := by
  have hn : 0 < launch.nSubgroups :=
    (Launch.lt_nSubgroups_iff hM).mpr (by rw [Nat.zero_mul]; omega)
  suffices hslots : ∀ g < launch.nSubgroups,
      phase2 launch join (phase1 launch join mem) (g * launch.maxSubgroupSize) =
        phase2 launch join (phase1 launch join mem') (g * launch.maxSubgroupSize) by
    simpa using hslots 0 hn
  simp only [phase2]
  -- the offset loop and the tree both keep the sub-groups' first slots
  exact foldl_rel (fun v w : Nat → α => ∀ g < launch.nSubgroups,
      v (g * launch.maxSubgroupSize) = w (g * launch.maxSubgroupSize))
    (fun s _ _ _ => round_phase2_congr hM s)
    (foldl_rel (fun v w : Nat → α => ∀ g < launch.nSubgroups,
        v (g * launch.maxSubgroupSize) = w (g * launch.maxSubgroupSize))
      (fun s _ _ _ => round_phase2_congr hM s)
      (fun g hg => by
        simpa using phase1_congr hM hL hpos hmax join hagree g hg 0
          (phase1Width_bounds hM hpos hg).1))

/-- Four items in one sub-group of four with `max_size = 2`: lane `3` reads local id `4`,
past the work-group, but two contents of `local_mem` that differ only there give the same
result. -/
theorem workgroupReduction_congr_four :
    workgroupReduction ⟨4, 4, 2⟩ (· + ·) (fun i => if i < 4 then i else 100) =
      workgroupReduction ⟨4, 4, 2⟩ (· + ·) (fun i => if i < 4 then i else 0) :=
  workgroupReduction_congr (by decide) (by decide) (by decide) (by decide) _
    fun i hi => by simp only [if_pos hi]

end Kokkos.SYCLReduction
