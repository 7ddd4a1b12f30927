import Kokkos.SYCLReduction.MaxSize

/-!
# Slots of several values

A slot of `local_mem` holds `value_count` values, and the reducer's `join` combines two
slots. The model takes a slot as one value of an arbitrary type, and its `Launch` has no
`value_count`: the lemmas here are why nothing is lost. Both reductions commute with every
map that carries one join to another (`workgroupReduction_map`, `shuffleReduction_map`):
each round reads the same lanes and takes the same branches whatever the values, so a map
taken before the reduction can be taken after it. With a join that works value by value,
reading one of the `value_count` values out of every slot is such a map, and the reduction
of slots is, value by value, the reduction of that value: the theorems about one value are
theorems about each value of a slot.
-/

namespace Kokkos.SYCLReduction

section Maps

variable {α β : Type*} {join₁ : α → α → α} {join₂ : β → β → β} (φ : α → β)
  (hφ : ∀ a b, φ (join₁ a b) = join₂ (φ a) (φ b))

include hφ

/-! ## The local-memory reduction -/

/-- A round reads the same slots and takes the same branches on mapped values. -/
theorem round_map (width lanes : Nat) (partner : Nat → Option Nat) (mem : Nat → α)
    (slot : Nat) :
    round join₂ width lanes partner (φ ∘ mem) slot =
      φ (round join₁ width lanes partner mem slot) := by
  unfold round
  split_ifs
  · cases partner (slot / width) with
    | some lane => exact (hφ _ _).symm
    | none => rfl
  · rfl

theorem phase1_map (launch : Launch) (mem : Nat → α) :
    phase1 launch join₂ (φ ∘ mem) = φ ∘ phase1 launch join₁ mem :=
  foldl_rel (fun v w => v = φ ∘ w)
    (fun _ _ _ _ h => by subst h; exact funext (round_map φ hφ _ _ _ _)) rfl

theorem phase2_map (launch : Launch) (mem : Nat → α) :
    phase2 launch join₂ (φ ∘ mem) = φ ∘ phase2 launch join₁ mem := by
  simp only [phase2]
  exact foldl_rel (fun v w => v = φ ∘ w)
    (fun _ _ _ _ h => by subst h; exact funext (round_map φ hφ _ _ _ _))
    (foldl_rel (fun v w => v = φ ∘ w)
      (fun _ _ _ _ h => by subst h; exact funext (round_map φ hφ _ _ _ _)) rfl)

/-- The local-memory reduction commutes with every map that carries `join₁` to `join₂`. -/
theorem workgroupReduction_map (launch : Launch) (mem : Nat → α) :
    workgroupReduction launch join₂ (φ ∘ mem) = φ (workgroupReduction launch join₁ mem) := by
  rw [workgroupReduction, workgroupReduction, phase1_map φ hφ, phase2_map φ hφ]
  rfl

/-! ## The shuffle-based reduction -/

omit hφ in
theorem shiftGroupLeft_map (launch : Launch) (values : Nat → Option α) (delta localId : Nat) :
    shiftGroupLeft launch (Option.map φ ∘ values) delta localId =
      (shiftGroupLeft launch values delta localId).map φ := by
  unfold shiftGroupLeft
  split_ifs <;> rfl

theorem shufflePhase1_map (launch : Launch) (path : ShufflePath) (values : Nat → Option α) :
    shufflePhase1 launch join₂ path (Option.map φ ∘ values) =
      Option.map φ ∘ shufflePhase1 launch join₁ path values :=
  foldl_rel (fun v w => v = Option.map φ ∘ w) (fun _ _ _ w h => by
    subst h
    funext localId
    simp only [shufflePhase1Step, Function.comp_apply]
    split_ifs
    · rw [Option.map_map₂_distrib hφ, shiftGroupLeft_map φ]
    · rfl) rfl

omit hφ in
theorem storeResults_map (launch : Launch) (values localMem : Nat → Option α) :
    storeResults launch (Option.map φ ∘ values) (Option.map φ ∘ localMem) =
      Option.map φ ∘ storeResults launch values localMem := by
  funext slot
  simp only [storeResults, Function.comp_apply]
  split_ifs <;> rfl

omit hφ in
theorem phase2Start_map (launch : Launch) (localMem : Nat → Option α) :
    phase2Start launch (Option.map φ ∘ localMem) = Option.map φ ∘ phase2Start launch localMem :=
  rfl

theorem shuffleOffsets_map (launch : Launch) (localMem values : Nat → Option α) :
    shuffleOffsets launch join₂ (Option.map φ ∘ localMem) (Option.map φ ∘ values) =
      Option.map φ ∘ shuffleOffsets launch join₁ localMem values := by
  unfold shuffleOffsets
  split_ifs
  · refine foldl_rel (fun v w => v = Option.map φ ∘ w) (fun _ _ _ w h => ?_) rfl
    subst h
    funext p
    rw [Function.comp_apply, shuffleOffsetStep, shuffleOffsetStep]
    split_ifs
    · exact (Option.map_map₂_distrib hφ).symm
    · rfl
  · rfl

/-- The shuffle-based reduction commutes with every map that carries `join₁` to `join₂`,
on both paths, whatever `local_mem` held. -/
theorem shuffleReduction_map (launch : Launch) (path : ShufflePath) (values : Nat → α)
    (localMem : Nat → Option α) :
    shuffleReduction launch join₂ path (φ ∘ values) (Option.map φ ∘ localMem) =
      (shuffleReduction launch join₁ path values localMem).map φ := by
  have hstart : some ∘ (φ ∘ values) = Option.map φ ∘ (some ∘ values) := rfl
  simp only [shuffleReduction]
  rw [hstart, shufflePhase1_map φ hφ, storeResults_map φ, phase2Start_map φ,
    shuffleOffsets_map φ hφ]
  refine congrFun (foldl_rel (fun v w => v = Option.map φ ∘ w) (fun _ _ _ w h => ?_) rfl) 0
  subst h
  funext p
  simp only [shufflePhase2Step, Function.comp_apply]
  split_ifs
  · rw [Option.map_map₂_distrib hφ, shiftGroupLeft_map φ]
  · rfl

end Maps

end Kokkos.SYCLReduction
