import RawViews.SplitComplex

/-! Valid raw views, and the operations that keep them valid.

The safety contract of `from_shape_ptr`, for an allocation `[lo, hi]`: strides are
non-negative; the farthest movement `M` fits in `isize` in elements and in bytes;
the product of the non-zero extents fits in `isize`; every movement lies in the
allocation, and, when the view has elements, so does every movement's last byte.

`ops_preserve_valid`: on a valid view, `split_at` (for an axis and index in range),
`split_complex` (for elements `Complex<T>`) and `cast` (to a type of the same size)
return without a panic, no value they compute in `isize` overflows, and every view
they return is valid for the same allocation. -/
namespace RawViews

/-- The view `v` of elements of layout `A` is valid for the allocation `[lo, hi]`. -/
structure Valid {R : RawViewRepr} (A : Layout) (lo hi : Int) (v : ArrayBase R) : Prop where
  strides_nonneg : ∀ s ∈ v.strides, 0 ≤ s
  maxOffset_le : v.maxOffset ≤ isizeMax
  maxOffset_bytes_le : v.maxOffset * A.size ≤ isizeMax
  size_le : (sizeNonzero v.dim : Int) ≤ isizeMax
  movement_mem : ∀ i ∈ indices (movementDim v.dim), lo ≤ v.addr A i ∧ v.addr A i ≤ hi
  movement_end : v.isEmpty = false → ∀ i ∈ indices (movementDim v.dim), v.addr A i + A.size ≤ hi

namespace Valid

variable {R S : RawViewRepr} {A : Layout} {lo hi : Int} {v : ArrayBase R}

theorem maxOffset_nonneg (hv : Valid A lo hi v) : 0 ≤ v.maxOffset :=
  offsetOf_nonneg hv.strides_nonneg _

theorem offsetOf_le (hv : Valid A lo hi v) {i : List Nat} (hi : i ∈ indices (movementDim v.dim)) :
    offsetOf i v.strides ≤ v.maxOffset :=
  offsetOf_mono (le_lastIndex hi) hv.strides_nonneg

theorem maxAbsOffset_eq (hv : Valid A lo hi v) : v.maxAbsOffset = v.maxOffset := by
  unfold ArrayBase.maxAbsOffset ArrayBase.maxOffset
  rw [List.map_congr_left (fun s hs => abs_of_nonneg (hv.strides_nonneg s hs)), List.map_id']

/-- A view is valid when its strides are those of a valid view `v`, its dimension
is no larger and no emptier, and each of its movements lands, at the same address
and no farther from the pointer, on one of `v`'s. -/
theorem of_embed (hv : Valid A lo hi v) {w : ArrayBase S} (hs : w.strides = v.strides)
    (hsize : sizeNonzero w.dim ≤ sizeNonzero v.dim) (hne : w.isEmpty = false → v.isEmpty = false)
    (f : List Nat → List Nat)
    (hf : ∀ j ∈ indices (movementDim w.dim), f j ∈ indices (movementDim v.dim) ∧
      w.addr A j = v.addr A (f j) ∧ offsetOf j w.strides ≤ offsetOf (f j) v.strides) :
    Valid A lo hi w := by
  have hM : w.maxOffset ≤ v.maxOffset := by
    obtain ⟨hm, -, hle⟩ := hf _ (lastIndex_mem_movement w.dim)
    exact hle.trans (hv.offsetOf_le hm)
  refine ⟨hs ▸ hv.strides_nonneg, hM.trans hv.maxOffset_le, ?_, ?_, ?_, ?_⟩
  · exact (mul_le_mul_of_nonneg_right hM (Int.ofNat_nonneg _)).trans hv.maxOffset_bytes_le
  · exact le_trans (by exact_mod_cast hsize) hv.size_le
  · intro j hj
    obtain ⟨hm, ha, -⟩ := hf j hj
    rw [ha]
    exact hv.movement_mem _ hm
  · intro hw j hj
    obtain ⟨hm, ha, -⟩ := hf j hj
    rw [ha]
    exact hv.movement_end (hne hw) _ hm

/-- Elements of another layout of the same size. -/
theorem of_size_eq (hv : Valid A lo hi v) {B : Layout} (h : B.size = A.size) : Valid B lo hi v := by
  have haddr : v.addr B = v.addr A := by funext i; simp [ArrayBase.addr, offset, h]
  exact ⟨hv.1, hv.2, h ▸ hv.3, hv.4, haddr ▸ hv.5, h ▸ haddr ▸ hv.6⟩

/-- The view in the other representation. -/
theorem withRepr (hv : Valid A lo hi v) : Valid A lo hi (v.withRepr S) :=
  ⟨hv.1, hv.2, hv.3, hv.4, hv.5, hv.6⟩

end Valid

/-! ### Validity as bounds -/

section Bounds

variable {R : RawViewRepr} {A : Layout} {lo hi : Int} {v : ArrayBase R}

theorem addr_zeros (v : ArrayBase R) : v.addr A (List.replicate v.dim.length 0) = v.ptr := by
  simp [ArrayBase.addr, offset]

/-- With non-negative strides, every movement lies between the pointer and `M`
elements past it. -/
theorem addr_mem_of_movement (hs : ∀ s ∈ v.strides, 0 ≤ s) {i : List Nat}
    (hi : i ∈ indices (movementDim v.dim)) :
    v.ptr ≤ v.addr A i ∧ v.addr A i ≤ v.ptr + v.maxOffset * A.size := by
  have h0 := offsetOf_nonneg hs i
  have h1 := mul_le_mul_of_nonneg_right (offsetOf_mono (le_lastIndex hi) hs) (Int.ofNat_nonneg A.size)
  simp only [ArrayBase.addr, offset, ArrayBase.maxOffset] at h1 ⊢
  constructor <;> linarith [mul_nonneg h0 (Int.ofNat_nonneg A.size)]

/-- Validity is a condition on the two extreme movements: the pointer and `M`
elements past it. -/
theorem valid_iff_bounds : Valid A lo hi v ↔
    (∀ s ∈ v.strides, 0 ≤ s) ∧ v.maxOffset ≤ isizeMax ∧ v.maxOffset * A.size ≤ isizeMax ∧
      (sizeNonzero v.dim : Int) ≤ isizeMax ∧ lo ≤ v.ptr ∧ v.ptr + v.maxOffset * A.size ≤ hi ∧
      (v.isEmpty = false → v.ptr + v.maxOffset * A.size + A.size ≤ hi) := by
  have hlast : v.addr A (lastIndex v.dim) = v.ptr + v.maxOffset * A.size := rfl
  constructor
  · intro hv
    have hz := hv.movement_mem _ (zeros_mem_movement v.dim)
    rw [addr_zeros] at hz
    refine ⟨hv.1, hv.2, hv.3, hv.4, hz.1, ?_, fun he => ?_⟩
    · rw [← hlast]; exact (hv.movement_mem _ (lastIndex_mem_movement _)).2
    · rw [← hlast]; exact hv.movement_end he _ (lastIndex_mem_movement _)
  · rintro ⟨hs, hM, hMe, hsz, hlo, hhi, hend⟩
    refine ⟨hs, hM, hMe, hsz, fun i hi => ?_, fun he i hi => ?_⟩
    · have := addr_mem_of_movement (A := A) hs hi
      constructor <;> linarith
    · have := addr_mem_of_movement (A := A) hs hi
      linarith [hend he]

instance (A : Layout) (lo hi : Int) (v : ArrayBase R) : Decidable (Valid A lo hi v) :=
  decidable_of_iff _ valid_iff_bounds.symm

end Bounds

/-! ### `split_at` -/

section SplitAt

variable {R : RawViewRepr} {A : Layout} {lo hi : Int} {v l r : ArrayBase R} {axis index : Nat}

theorem getD_nonneg {s : List Int} (hs : ∀ t ∈ s, 0 ≤ t) (a : Nat) : 0 ≤ s.getD a 0 := by
  rw [List.getD_eq_getElem?_getD]
  cases h : s[a]? with
  | none => rfl
  | some t => exact hs t (List.getElem?_mem h)

theorem isEmpty_of_set {w : ArrayBase R} {a y : Nat} (hw : w.dim = v.dim.set a y) (hy : y ≤ v.dim.getD a 0)
    (he : w.isEmpty = false) : v.isEmpty = false := by
  rw [ArrayBase.isEmpty_eq_false_iff] at he ⊢
  exact fun h => he (hw ▸ zero_mem_set h hy)

/-- A view with the pointer and strides of a valid view and one extent lowered is valid. -/
theorem Valid.lower (hv : Valid A lo hi v) {w : ArrayBase R} {y : Nat} (ha : axis < v.dim.length)
    (hp : w.ptr = v.ptr) (hd : w.dim = v.dim.set axis y) (hs : w.strides = v.strides)
    (hy : y ≤ v.dim.getD axis 0) : Valid A lo hi w :=
  hv.of_embed hs (hd ▸ sizeNonzero_set_le hy) (isEmpty_of_set hd hy) id fun j hj =>
    ⟨indices_mono (movementDim_set_le ha hy) (hd ▸ hj), ArrayBase.addr_eq_of hp hs j, hs ▸ le_rfl⟩

/-- A movement of the right half, moved back up, is a movement of `v`. -/
theorem joinIndex_mem_movement {dim j : List Nat} (ha : axis < dim.length) (hk : index < dim.getD axis 0)
    (hj : j ∈ indices (movementDim (dim.set axis (dim.getD axis 0 - index)))) :
    joinIndex axis index (.inr j) ∈ indices (movementDim dim) := by
  have hm : movementDim (dim.set axis (dim.getD axis 0 - index)) =
      (movementDim dim).set axis (dim.getD axis 0 - index) := by
    simp only [movementDim, List.map_set]
    congr 1
    omega
  rw [hm] at hj
  have hlt := getD_lt_of_mem_indices hj (by simpa [movementDim] using ha)
  rw [getD_set_self (by simpa [movementDim] using ha)] at hlt
  have := forall₂_set hj axis (show j.getD axis 0 + index < (movementDim dim).getD axis 0 by
    rw [getD_movementDim ha]; omega)
  rwa [set_set_getD] at this

theorem Halves.valid_left (h : Halves A v axis index l r) (hv : Valid A lo hi v)
    (ha : axis < v.dim.length) (hk : index ≤ v.dim.getD axis 0) : Valid A lo hi l :=
  hv.lower ha h.left_ptr h.left_dim h.left_strides hk

theorem Halves.valid_right (h : Halves A v axis index l r) (hv : Valid A lo hi v)
    (ha : axis < v.dim.length) (hk : index ≤ v.dim.getD axis 0) : Valid A lo hi r := by
  rcases hk.lt_or_eq with hk | hk
  · refine hv.of_embed h.right_strides (h.right_dim ▸ sizeNonzero_set_le (Nat.sub_le _ _))
      (isEmpty_of_set h.right_dim (Nat.sub_le _ _)) (fun j => joinIndex axis index (.inr j)) fun j hj => ?_
    have hj' : j ∈ indices (movementDim (v.dim.set axis (v.dim.getD axis 0 - index))) := h.right_dim ▸ hj
    have hlen : j.length = v.dim.length := by simpa [movementDim] using length_of_mem_indices hj'
    refine ⟨joinIndex_mem_movement ha hk hj', h.addr_right hk hlen, ?_⟩
    have key := offsetOf_set (i := j) (s := v.strides) (a := axis) (j.getD axis 0 + index)
      (by rw [hlen, v.strides_length])
    have hs := mul_nonneg (Int.ofNat_nonneg index) (getD_nonneg hv.strides_nonneg axis)
    simp only [joinIndex, h.right_strides]
    push_cast at key
    linarith
  · exact hv.lower ha (by rw [h.right_ptr, if_neg (by omega)]) h.right_dim h.right_strides (Nat.sub_le _ _)

/-- A split of a valid view along an axis in range, at an index in range, returns,
computes its offset `index * stride` within `isize` in elements and in bytes, and
gives two valid halves. -/
theorem Valid.splitAt {v : RawArrayView} (hv : Valid A lo hi v) (ha : axis < v.dim.length)
    (hk : index ≤ v.dim.getD axis 0) :
    (index < v.dim.getD axis 0 → (index : Int) * v.strides.getD axis 0 ≤ isizeMax ∧
        (index : Int) * v.strides.getD axis 0 * A.size ≤ isizeMax) ∧
      ∃ l r, v.splitAt A axis index = .ok (l, r) ∧ Valid A lo hi l ∧ Valid A lo hi r := by
  have hM := hv.maxAbsOffset_eq
  obtain ⟨l, r, hres, hh⟩ := v.splitAt_ok A ha hk (hM ▸ hv.maxOffset_le)
  refine ⟨fun hlt => ?_, l, r, hres, hh.valid_left hv ha hk, hh.valid_right hv ha hk⟩
  have h1 := v.single_le_maxAbsOffset hlt
  rw [hM, abs_of_nonneg (getD_nonneg hv.strides_nonneg axis)] at h1
  exact ⟨h1.trans hv.maxOffset_le,
    (mul_le_mul_of_nonneg_right h1 (Int.ofNat_nonneg _)).trans hv.maxOffset_bytes_le⟩

end SplitAt

/-! ### `split_complex` and `cast` -/

section SplitComplex

variable {R : RawViewRepr} {C T : Layout} {lo hi : Int} {v re im : ArrayBase R}

theorem doubled_nonneg {dim : List Nat} {s : List Int} (hs : ∀ t ∈ s, 0 ≤ t) :
    ∀ t ∈ doubled dim s, 0 ≤ t := by
  induction dim generalizing s with
  | nil => exact hs
  | cons d dim ih =>
    cases s with
    | nil => simp [doubled]
    | cons t s =>
      simp only [List.mem_cons, forall_eq_or_imp] at hs
      simp only [doubled, List.mem_cons, forall_eq_or_imp]
      exact ⟨by split <;> linarith [hs.1], ih hs.2⟩

theorem isEmpty_eq_of_dim {w : ArrayBase R} (hd : w.dim = v.dim) : w.isEmpty = v.isEmpty := by
  simp [ArrayBase.isEmpty, ArrayBase.len, hd]

/-- The farthest movement of the component views, in elements of `T`. -/
theorem Parts.maxOffset_re (h : Parts T v re im) :
    re.maxOffset = if T.size = 0 then v.maxOffset else 2 * v.maxOffset := by
  unfold ArrayBase.maxOffset
  rw [h.re_strides, h.re_dim]
  split
  · rfl
  · exact offsetOf_doubled _ (lastIndex_mem_movement _)

theorem Parts.valid_re (hC : C.IsComplexOf T) (h : Parts T v re im) (hv : Valid C lo hi v) :
    Valid T lo hi re := by
  have hM := hv.maxOffset_nonneg
  have hb := hv.maxOffset_bytes_le
  rw [hC.1] at hb
  push_cast at hb
  refine ⟨?_, ?_, ?_, h.re_dim ▸ hv.size_le, fun j hj => ?_, fun he j hj => ?_⟩
  · rw [h.re_strides]
    split
    · exact hv.strides_nonneg
    · exact doubled_nonneg hv.strides_nonneg
  · rw [h.maxOffset_re]
    split
    · exact hv.maxOffset_le
    · have : (1 : Int) ≤ T.size := by exact_mod_cast Nat.one_le_iff_ne_zero.mpr ‹_›
      linarith [mul_le_mul_of_nonneg_left this hM]
  · rw [h.maxOffset_re]
    split
    · simp only [‹T.size = 0›, Nat.cast_zero, mul_zero]
      exact hv.maxOffset_nonneg.trans hv.maxOffset_le
    · linarith
  · rw [h.re_dim] at hj
    rw [h.addr_re hC hj]
    exact hv.movement_mem j hj
  · rw [h.re_dim] at hj
    have hend := hv.movement_end (isEmpty_eq_of_dim h.re_dim ▸ he) j hj
    rw [h.addr_re hC hj]
    rw [hC.1] at hend
    push_cast at hend
    linarith

theorem Parts.valid_im (hC : C.IsComplexOf T) (h : Parts T v re im) (hv : Valid C lo hi v) :
    Valid T lo hi im := by
  have hre := h.valid_re hC hv
  have hM : im.maxOffset = re.maxOffset := by
    unfold ArrayBase.maxOffset
    rw [h.im_strides, h.im_dim, h.re_dim]
  have hmov : movementDim im.dim = movementDim v.dim := by rw [h.im_dim]
  refine ⟨h.im_strides ▸ hre.1, hM ▸ hre.2, hM ▸ hre.3, h.im_dim ▸ hv.size_le, ?_, ?_⟩
  · intro j hj
    rw [hmov] at hj
    cases he : v.isEmpty
    · rw [h.addr_im hC he hj]
      have h1 := hv.movement_mem j hj
      have h2 := hv.movement_end he j hj
      rw [hC.1] at h2
      push_cast at h2
      constructor <;> linarith
    · rw [h.addr_im_of_empty he]
      exact hre.movement_mem j (h.re_dim ▸ hj)
  · intro he j hj
    rw [hmov] at hj
    have he' : v.isEmpty = false := isEmpty_eq_of_dim h.im_dim ▸ he
    have h2 := hv.movement_end he' j hj
    rw [h.addr_im hC he' hj]
    rw [hC.1] at h2
    push_cast at h2
    linarith

/-- `split_complex` of a valid view of `Complex<T>` returns, doubles no stride
beyond `isize`, and gives two valid views of `T`. -/
theorem Valid.splitComplex {v : RawArrayView} (hv : Valid C lo hi v) (hC : C.IsComplexOf T) :
    (T.size ≠ 0 → DoublesFit v.dim v.strides) ∧
      ∃ c, v.splitComplex C T = .ok c ∧ Valid T lo hi c.re ∧ Valid T lo hi c.im := by
  have hb : v.maxAbsOffset * (2 * T.size) ≤ isizeMax := by
    have := hv.maxOffset_bytes_le
    rw [hC.1] at this
    rw [hv.maxAbsOffset_eq]
    exact_mod_cast this
  have hfit := fun ht => v.doublesFit ht hb
  obtain ⟨c, hc⟩ := v.splitComplex_of_fit hC hfit
  have hp := (RawArrayView.splitComplex_ok hc).2
  exact ⟨hfit, c, hc, hp.valid_re hC hv, hp.valid_im hC hv⟩

end SplitComplex

theorem Valid.cast {R : RawViewRepr} {A : Layout} {lo hi : Int} {v : ArrayBase R}
    (hv : Valid A lo hi v) {B : Layout} (hB : B.size = A.size) : ∃ w, v.cast A B = .ok w ∧ Valid B lo hi w :=
  ⟨v, (ArrayBase.cast_eq_ok_iff A B v v).mpr ⟨hB, rfl⟩, hv.of_size_eq hB⟩

/-! ### The operations keep views valid -/

/-- What the three operations do to a view `v` valid for `[lo, hi]` with elements
of layout `A`: each returns when its arguments are in range, no `isize` value it
computes overflows (the offset of a right half in elements and in bytes, a doubled
stride), and what it returns is valid for the same allocation. -/
structure OpsKeepValid {R : RawViewRepr} (A : Layout) (lo hi : Int) (v : ArrayBase R)
    (splitAt : Nat → Nat → Except Fault (ArrayBase R × ArrayBase R))
    (splitComplex : Layout → Except Fault (Complex (ArrayBase R)))
    (cast : Layout → Except Fault (ArrayBase R)) : Prop where
  split_at : ∀ axis index, axis < v.dim.length → index ≤ v.dim.getD axis 0 →
    (index < v.dim.getD axis 0 → (index : Int) * v.strides.getD axis 0 ≤ isizeMax ∧
        (index : Int) * v.strides.getD axis 0 * A.size ≤ isizeMax) ∧
      ∃ l r, splitAt axis index = .ok (l, r) ∧ Valid A lo hi l ∧ Valid A lo hi r
  split_complex : ∀ T : Layout, A.IsComplexOf T → (T.size ≠ 0 → DoublesFit v.dim v.strides) ∧
    ∃ c, splitComplex T = .ok c ∧ Valid T lo hi c.re ∧ Valid T lo hi c.im
  cast : ∀ B : Layout, B.size = A.size → ∃ w, cast B = .ok w ∧ Valid B lo hi w

theorem RawArrayView.opsKeepValid {A : Layout} {lo hi : Int} {v : RawArrayView} (hv : Valid A lo hi v) :
    OpsKeepValid A lo hi v (v.splitAt A) (v.splitComplex A) (v.cast A) :=
  ⟨fun _ _ ha hk => hv.splitAt ha hk, fun _ hC => hv.splitComplex hC, fun _ hB => hv.cast hB⟩

theorem RawArrayViewMut.opsKeepValid {A : Layout} {lo hi : Int} {v : RawArrayViewMut} (hv : Valid A lo hi v) :
    OpsKeepValid A lo hi v (v.splitAt A) (v.splitComplex A) (v.cast A) := by
  have hv' : Valid A lo hi v.intoRawView := hv.withRepr
  refine ⟨fun axis index ha hk => ?_, fun T hC => ?_, fun _ hB => hv.cast hB⟩
  · obtain ⟨hoff, l, r, hres, hl, hr⟩ := hv'.splitAt ha hk
    refine ⟨hoff, _, _, ?_, hl.withRepr, hr.withRepr⟩
    rw [splitAt_eq, hres]
    rfl
  · obtain ⟨hfit, c, hc, hre, him⟩ := hv'.splitComplex hC
    refine ⟨hfit, ⟨c.re.withRepr .mut, c.im.withRepr .mut⟩, ?_, hre.withRepr, him.withRepr⟩
    rw [splitComplex_eq, hc]
    rfl

/-- **The operations keep raw views valid.** On either raw view valid for an
allocation, `split_at`, `split_complex` and `cast` return for arguments in range,
compute no `isize` value that overflows, and return views valid for the same
allocation. -/
theorem ops_preserve_valid :
    (∀ (A : Layout) (lo hi : Int) (v : RawArrayView), Valid A lo hi v →
      OpsKeepValid A lo hi v (v.splitAt A) (v.splitComplex A) (v.cast A)) ∧
    (∀ (A : Layout) (lo hi : Int) (v : RawArrayViewMut), Valid A lo hi v →
      OpsKeepValid A lo hi v (v.splitAt A) (v.splitComplex A) (v.cast A)) :=
  ⟨fun _ _ _ _ hv => RawArrayView.opsKeepValid hv, fun _ _ _ _ hv => RawArrayViewMut.opsKeepValid hv⟩

theorem ops_preserve_valid_rows :
    Valid word 4096 4120 rows ∧ OpsKeepValid word 4096 4120 rows (rows.splitAt word)
      (rows.splitComplex word) (rows.cast word) :=
  ⟨by decide, ops_preserve_valid.1 word 4096 4120 rows (by decide)⟩

end RawViews
