import Kokkos.SYCLReduction.LocalMemory

/-!
# Loops of synchronous rounds

The two shapes of loop of the reduction, and what a tree of rounds computes when the
join is the product of a monoid: each slot keeps its own value on the left of what it
joins, so a tree computes the product in order (`prodIco`), commutative or not. The offset
loop interleaves the sub-groups, and its product is stated for a commutative monoid.

A loop `for (stride = 1; stride < bound; stride <<= 1)` or `for (offset = step; offset <
bound; offset += step)` keeps any property its body keeps, and ends at a stride (or offset)
that is at least `bound` (`foldl_strides`, `foldl_offsets`).

A *contiguous* tree over the slots `base + j`, `j < n`, where slot `base + j` joins slot
`base + j + s` while `j + s < n`, leaves in each slot the product over the next `s` slots,
cut at `n` (`TreeHolds`); once `s ≥ n`, slot `base` holds the product over all `n`. An
*aligned* tree over the slots `p * width` only needs the slots whose index is a multiple of
the stride to be right (`AlignedHolds`): this is the tree of the second phase, which reads
slots past `n` from the other lanes.
-/

namespace Kokkos.SYCLReduction

open Finset

/-! ## Loops -/

theorem foldl_stridesFrom {β : Type*} (P : Nat → β → Prop) (R : β → Nat → β)
    {bound : Nat}
    (hstep : ∀ stride b, stride < bound → P stride b → P (2 * stride) (R b stride))
    (fuel : Nat) :
    ∀ stride b, P stride b → bound ≤ stride * 2 ^ fuel →
      ∃ last, bound ≤ last ∧ P last ((stridesFrom bound fuel stride).foldl R b) := by
  induction fuel with
  | zero => exact fun stride b h hb => ⟨stride, by simpa using hb, h⟩
  | succ fuel ih =>
    intro stride b h hb
    rw [stridesFrom]
    split
    · exact ih (2 * stride) (R b stride) (hstep stride b ‹_› h)
        (hb.trans_eq (by rw [pow_succ]; ring))
    · exact ⟨stride, by omega, h⟩

/-- The stride loop keeps what each round keeps and ends past its bound. -/
theorem foldl_strides {β : Type*} (P : Nat → β → Prop) (R : β → Nat → β) {bound : Nat}
    (hstep : ∀ stride b, stride < bound → P stride b → P (2 * stride) (R b stride)) {b : β}
    (h : P 1 b) : ∃ last, bound ≤ last ∧ P last ((strides bound).foldl R b) :=
  foldl_stridesFrom P R hstep bound 1 b h (by simpa using (Nat.lt_two_pow bound).le)

theorem foldl_offsetsFrom {β : Type*} (P : Nat → β → Prop) (R : β → Nat → β)
    {step bound : Nat}
    (hstep : ∀ offset b, offset < bound → P offset b → P (offset + step) (R b offset))
    (fuel : Nat) :
    ∀ offset b, P offset b → bound ≤ offset + fuel * step →
      ∃ last, bound ≤ last ∧ P last ((offsetsFrom step bound fuel offset).foldl R b) := by
  induction fuel with
  | zero => exact fun offset b h hb => ⟨offset, by simpa using hb, h⟩
  | succ fuel ih =>
    intro offset b h hb
    rw [offsetsFrom]
    split
    · exact ih (offset + step) (R b offset) (hstep offset b ‹_› h)
        (hb.trans_eq (by rw [Nat.succ_mul]; ring))
    · exact ⟨offset, by omega, h⟩

/-- The offset loop keeps what each round keeps and ends past its bound. -/
theorem foldl_offsets {β : Type*} (P : Nat → β → Prop) (R : β → Nat → β)
    {step bound : Nat}
    (hstep : ∀ offset b, offset < bound → P offset b → P (offset + step) (R b offset))
    (hpos : 0 < step) {b : β} (h : P step b) :
    ∃ last, bound ≤ last ∧ P last ((offsets step bound).foldl R b) :=
  foldl_offsetsFrom P R hstep bound step b h (by nlinarith)

/-- Two folds over one list keep a relation that each pair of steps keeps. -/
theorem foldl_rel {β γ : Type*} (R : β → γ → Prop) {F : β → Nat → β} {G : γ → Nat → γ} :
    ∀ {l : List Nat}, (∀ s ∈ l, ∀ b c, R b c → R (F b s) (G c s)) →
      ∀ {b c}, R b c → R (l.foldl F b) (l.foldl G c)
  | [], _, _, _, h => h
  | s :: l, hstep, b, c, h =>
    foldl_rel R (fun t ht => hstep t (List.mem_cons_of_mem s ht))
      (hstep s (List.mem_cons_self s l) b c h)

theorem lt_of_mem_stridesFrom {bound : Nat} :
    ∀ {fuel stride s : Nat}, s ∈ stridesFrom bound fuel stride → s < bound
  | 0, _, _, h => absurd h (List.not_mem_nil _)
  | fuel + 1, stride, s, h => by
    rw [stridesFrom] at h
    split at h
    · rcases List.mem_cons.mp h with rfl | h
      · assumption
      · exact lt_of_mem_stridesFrom h
    · exact absurd h (List.not_mem_nil _)

theorem lt_of_mem_strides {bound s : Nat} (h : s ∈ strides bound) : s < bound :=
  lt_of_mem_stridesFrom h

theorem pos_of_mem_stridesFrom {bound : Nat} :
    ∀ {fuel stride s : Nat}, 0 < stride → s ∈ stridesFrom bound fuel stride → 0 < s
  | 0, _, _, _, h => absurd h (List.not_mem_nil _)
  | fuel + 1, stride, s, hpos, h => by
    rw [stridesFrom] at h
    split at h
    · rcases List.mem_cons.mp h with rfl | h
      · exact hpos
      · exact pos_of_mem_stridesFrom (by omega) h
    · exact absurd h (List.not_mem_nil _)

theorem pos_of_mem_strides {bound s : Nat} (h : s ∈ strides bound) : 0 < s :=
  pos_of_mem_stridesFrom Nat.one_pos h

/-! ## Products in order -/

section Ordered

variable {α : Type*} [Monoid α] (f : Nat → α)

/-- The product of `f` over `a, a + 1, …, b - 1`, in this order. -/
def prodIco (a b : Nat) : α := ((List.range' a (b - a)).map f).prod

theorem prodIco_of_le {a b : Nat} (h : b ≤ a) : prodIco f a b = 1 := by
  rw [prodIco, Nat.sub_eq_zero_of_le h, List.range'_zero, List.map_nil, List.prod_nil]

theorem prodIco_consecutive {a b c : Nat} (hab : a ≤ b) (hbc : b ≤ c) :
    prodIco f a b * prodIco f b c = prodIco f a c := by
  obtain ⟨m, rfl⟩ := Nat.exists_eq_add_of_le hab
  obtain ⟨n, rfl⟩ := Nat.exists_eq_add_of_le hbc
  rw [prodIco, prodIco, prodIco, ← List.prod_append, ← List.map_append, Nat.add_sub_cancel_left,
    Nat.add_sub_cancel_left, List.range'_append_1]
  congr 3
  omega

theorem prodIco_succ_top {a b : Nat} (hab : a ≤ b) :
    prodIco f a (b + 1) = prodIco f a b * f b := by
  rw [← prodIco_consecutive f hab (Nat.le_add_right b 1)]
  congr 1
  rw [prodIco, Nat.add_sub_cancel_left, List.range'_one, List.map_singleton, List.prod_singleton]

theorem prodIco_congr {g : Nat → α} {a b : Nat} (h : ∀ i, a ≤ i → i < b → f i = g i) :
    prodIco f a b = prodIco g a b := by
  unfold prodIco
  congr 1
  refine List.map_congr_left fun i hi => ?_
  rw [List.mem_range'_1] at hi
  exact h i hi.1 (by omega)

theorem prodIco_eq_one {a b : Nat} (h : ∀ i, a ≤ i → i < b → f i = 1) : prodIco f a b = 1 :=
  List.prod_eq_one fun x hx => by
    obtain ⟨i, hi, rfl⟩ := List.mem_map.mp hx
    rw [List.mem_range'_1] at hi
    exact h i hi.1 (by omega)

theorem map_prodIco {β : Type*} [Monoid β] (φ : α →* β) (a b : Nat) :
    φ (prodIco f a b) = prodIco (fun i => φ (f i)) a b := by
  rw [prodIco, prodIco, map_list_prod, List.map_map]
  rfl

/-- With a commutative join the order does not matter. -/
theorem prodIco_eq_prod {β : Type*} [CommMonoid β] (g : Nat → β) (a b : Nat) :
    prodIco g a b = ∏ i ∈ Ico a b, g i := by
  rw [prodIco, Nat.Ico_eq_range', Finset.prod_mk, Multiset.map_coe, Multiset.prod_coe]

end Ordered

/-! ## Trees -/

section Trees

variable {α : Type*} [Monoid α] (f : Nat → α)

/-- After the rounds of the strides below `stride`, slot `base + j` of a contiguous tree
over `n` slots holds the product of `f` over the next `stride` slots in order, cut at
`n`. -/
def TreeHolds (base n stride : Nat) (mem : Nat → α) : Prop :=
  ∀ j < n, mem (base + j) = prodIco f (base + j) (base + min (j + stride) n)

theorem treeHolds_one {base n : Nat} {mem : Nat → α}
    (h : ∀ j < n, mem (base + j) = f (base + j)) :
    TreeHolds f base n 1 mem := fun j hj => by
  rw [h j hj, show base + min (j + 1) n = base + j + 1 by omega, prodIco_succ_top f le_rfl,
    prodIco_of_le f le_rfl, one_mul]

/-- One round of a contiguous tree: slot `base + j` joins slot `base + j + stride` while
`j + stride < n`, its own value on the left. -/
theorem TreeHolds.round {base n stride : Nat} {mem mem' : Nat → α}
    (h : TreeHolds f base n stride mem)
    (hround : ∀ j < n, mem' (base + j) =
      if j + stride < n then mem (base + j) * mem (base + j + stride) else mem (base + j)) :
    TreeHolds f base n (2 * stride) mem' := fun j hj => by
  rw [hround j hj]
  split
  · rw [h j hj, show base + j + stride = base + (j + stride) by omega, h (j + stride) ‹_›,
      show base + min (j + stride) n = base + (j + stride) by omega,
      prodIco_consecutive f (by omega) (by omega)]
    congr 1
    omega
  · rw [h j hj]
    congr 1
    omega

theorem TreeHolds.root {base n stride : Nat} {mem : Nat → α} (h : TreeHolds f base n stride mem)
    (hn : 0 < n) (hstride : n ≤ stride) : mem base = prodIco f base (base + n) := by
  simpa [show min stride n = n by omega] using h 0 hn

/-- After the rounds of the strides below `stride`, every slot `p * width` with `p < n` a
multiple of `stride` holds the product of `f` over `[p, p + stride)` in order, cut at
`n`. -/
def AlignedHolds (width n stride : Nat) (mem : Nat → α) : Prop :=
  ∀ p < n, stride ∣ p → mem (p * width) = prodIco f p (min (p + stride) n)

theorem alignedHolds_one {width n : Nat} {mem : Nat → α} (h : ∀ p < n, mem (p * width) = f p) :
    AlignedHolds f width n 1 mem := fun p hp _ => by
  rw [h p hp, show min (p + 1) n = p + 1 by omega, prodIco_succ_top f le_rfl,
    prodIco_of_le f le_rfl, one_mul]

/-- One round of an aligned tree: the slots of the multiples of `2 * stride` join the slot
`stride` lanes up while that lane is below `n`, their own value on the left. -/
theorem AlignedHolds.round {width n stride : Nat} {mem mem' : Nat → α}
    (h : AlignedHolds f width n stride mem)
    (hround : ∀ p < n, 2 * stride ∣ p → mem' (p * width) =
      if p + stride < n then mem (p * width) * mem ((p + stride) * width) else mem (p * width)) :
    AlignedHolds f width n (2 * stride) mem' := fun p hp hdvd => by
  have hs : stride ∣ p := (Dvd.intro_left 2 rfl).trans hdvd
  rw [hround p hp hdvd]
  split
  · rw [h p hp hs, h (p + stride) ‹_› (Nat.dvd_add_self_right.mpr hs),
      show min (p + stride) n = p + stride by omega, prodIco_consecutive f (by omega) (by omega)]
    congr 1
    omega
  · rw [h p hp hs]
    congr 1
    omega

theorem AlignedHolds.root {width n stride : Nat} {mem : Nat → α}
    (h : AlignedHolds f width n stride mem) (hn : 0 < n) :
    mem 0 = prodIco f 0 (min stride n) := by
  simpa using h 0 hn (dvd_zero _)

end Trees

/-! ## Offsets -/

section Offsets

variable {α : Type*} [CommMonoid α] (f : Nat → α)

/-- The lanes `q < width` pick up `f (q + offset)` while `q + offset < n`. -/
theorem prod_range_ite_add (offset n width : Nat) :
    ∏ q ∈ range width, (if q + offset < n then f (q + offset) else 1) =
      ∏ g ∈ Ico offset (min n (offset + width)), f g := by
  induction width with
  | zero => simp
  | succ width ih =>
    rw [prod_range_succ, ih]
    split_ifs with h
    · rw [show min n (offset + (width + 1)) = offset + width + 1 by omega,
        show min n (offset + width) = offset + width by omega, prod_Ico_succ_top (by omega),
        Nat.add_comm width offset]
    · rw [mul_one, show min n (offset + (width + 1)) = min n (offset + width) by omega]

/-- After the offset rounds below `offset` of a loop that folds the slots `g * width`,
`g < n`, into the first `lanes` of them: the slots from `lanes` on still hold their own
values, and the first `lanes` slots multiply to the product of `f` below `offset`, cut at
`n`. -/
def OffsetsHold (width lanes n offset : Nat) (mem : Nat → α) : Prop :=
  lanes ≤ offset ∧ (∀ g, lanes ≤ g → g < n → mem (g * width) = f g) ∧
    ∏ q ∈ range lanes, mem (q * width) = ∏ g ∈ range (min n offset), f g

theorem offsetsHold_start {width lanes n : Nat} {mem : Nat → α}
    (h : ∀ g < n, mem (g * width) = f g) (hn : lanes ≤ n) :
    OffsetsHold f width lanes n lanes mem :=
  ⟨le_rfl, fun g _ hg => h g hg, by
    rw [min_eq_right hn]
    exact prod_congr rfl fun q hq => h q (by rw [mem_range] at hq; omega)⟩

/-- One round of the offset loop: lane `q` joins the slot `offset` lanes up while that is
below `n`, and the slots from `lanes` on stay as they were. -/
theorem OffsetsHold.round {width lanes n offset : Nat} {mem mem' : Nat → α}
    (h : OffsetsHold f width lanes n offset mem) (hlt : offset < n)
    (hround : ∀ q < lanes, mem' (q * width) =
      if q + offset < n then mem (q * width) * mem ((q + offset) * width) else mem (q * width))
    (hother : ∀ g, lanes ≤ g → mem' (g * width) = mem (g * width)) :
    OffsetsHold f width lanes n (offset + lanes) mem' := by
  obtain ⟨hle, hrest, hprod⟩ := h
  refine ⟨by omega, fun g hg hg' => (hother g hg).trans (hrest g hg hg'), ?_⟩
  calc ∏ q ∈ range lanes, mem' (q * width)
      = ∏ q ∈ range lanes, (mem (q * width) * if q + offset < n then f (q + offset) else 1) :=
        prod_congr rfl fun q hq => by
          rw [hround q (mem_range.mp hq), mul_ite, mul_one]
          split_ifs with hq'
          · rw [hrest (q + offset) (by omega) hq']
          · rfl
    _ = (∏ g ∈ range (min n offset), f g) *
          ∏ g ∈ Ico offset (min n (offset + lanes)), f g := by
        rw [prod_mul_distrib, hprod, prod_range_ite_add]
    _ = ∏ g ∈ range (min n (offset + lanes)), f g := by
        rw [min_eq_right hlt.le, prod_range_mul_prod_Ico _ (by omega)]

end Offsets

end Kokkos.SYCLReduction
