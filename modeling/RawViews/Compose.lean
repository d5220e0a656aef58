import RawViews.Construct

/-! How the operations compose.

A view `w` lies over a view `v` shifted by `δ` bytes when the two have one dimension and
each element of `w` sits `δ` bytes after the same element of `v` (`Shifted`). The
components of `split_complex` lie over the view of pairs, shifted by `0` and by the
size of `T`, and `split_at` keeps the relation: halves of shifted views are shifted
halves (`Shifted.halves`).

`splitAt_assoc`: splitting at `k` and then the right half at `m` gives the pieces of
splitting at `k + m` and then the left half at `k`. The pieces agree exactly, except
that a piece with extent 0 along the axis may keep a different pointer: the code leaves
the pointer where it is when the index is the whole extent.

`splitAt_splitComplex_comm`: splitting a view of pairs and then decomposing the
halves addresses the same elements as decomposing first and then splitting both
components; the strides may differ on the split axis, which `split_complex` leaves
undoubled when a half has extent 1 or less there.

`splitAt_rows`, `splitAt_columns`: the halves of a row-major array split along its
first axis, and of a column-major array split along its last, are the arrays of the
same order that `from_shape_ptr` builds over the two ranges of rows or of columns. -/
namespace RawViews

/-! ### Views over views -/

/-- `w`, of elements `B`, lies over `v`, of elements `A`, shifted by `δ` bytes: one
dimension, and each element of `w` at the address of the same element of `v` plus `δ`. -/
def Shifted {R S : RawViewRepr} (B : Layout) (w : ArrayBase S) (A : Layout) (v : ArrayBase R)
    (δ : Int) : Prop :=
  w.dim = v.dim ∧ ∀ i ∈ indices v.dim, w.addr B i = v.addr A i + δ

section Shifted

variable {R S : RawViewRepr} {A B : Layout} {δ : Int} {axis index : Nat}

/-- Two views over one view with one shift address the same elements. -/
theorem Shifted.same {v : ArrayBase R} {w w' : ArrayBase S} (h : Shifted B w A v δ)
    (h' : Shifted B w' A v δ) : Shifted B w B w' 0 := by
  refine ⟨h.1.trans h'.1.symm, fun i hi => ?_⟩
  rw [h'.1] at hi
  rw [h.2 i hi, h'.2 i hi, add_zero]

/-- **`split_at` keeps the relation.** Split at one axis and index, the halves of a view
over `v` lie over the halves of `v` with the same shift. -/
theorem Shifted.halves {v l r : ArrayBase R} {w w₁ w₂ : ArrayBase S} (hw : Shifted B w A v δ)
    (hv : Halves A v axis index l r) (hh : Halves B w axis index w₁ w₂)
    (ha : axis < v.dim.length) (hk : index ≤ v.dim.getD axis 0) :
    Shifted B w₁ A l δ ∧ Shifted B w₂ A r δ := by
  have hmaps := joinIndex_mapsTo ha hk
  refine ⟨⟨by rw [hh.left_dim, hv.left_dim, hw.1], fun i hi => ?_⟩,
    ⟨by rw [hh.right_dim, hv.right_dim, hw.1], fun j hj => ?_⟩⟩
  · rw [hv.left_dim] at hi
    rw [ArrayBase.addr_eq_of hh.left_ptr hh.left_strides, ArrayBase.addr_eq_of hv.left_ptr hv.left_strides]
    exact hw.2 i (hmaps (.inl ⟨i, hi, rfl⟩))
  · rw [hv.right_dim] at hj
    have hlt := getD_lt_of_mem_indices hj (by simpa using ha)
    rw [getD_set_axis ha] at hlt
    have hk' : index < v.dim.getD axis 0 := by omega
    have hjl : j.length = v.dim.length := by simpa using length_of_mem_indices hj
    rw [hh.addr_right (by rw [hw.1]; exact hk') (by rw [hjl, hw.1]), hv.addr_right hk' hjl]
    exact hw.2 _ (hmaps (.inr ⟨j, hj, rfl⟩))

/-- The components of `split_complex` lie over the view of pairs: the real one where the
pairs are, the imaginary one a component further on. -/
theorem Parts.shifted {C T : Layout} {v re im : ArrayBase R} (hC : C.IsComplexOf T)
    (h : Parts T v re im) : Shifted T re C v 0 ∧ Shifted T im C v T.size := by
  refine ⟨⟨h.re_dim, fun i hi => ?_⟩, ⟨h.im_dim, fun i hi => ?_⟩⟩
  · rw [h.addr_re hC (movement_of_mem_indices hi), add_zero]
  · exact h.addr_im hC (v.isEmpty_eq_false hi) (movement_of_mem_indices hi)

end Shifted

/-! ### `split_at` after `split_at` -/

/-- Lowering one extent, with the strides kept, never moves the farthest movement further. -/
theorem maxAbsOffset_le_of_set {R : RawViewRepr} {v w : ArrayBase R} {axis y : Nat}
    (hd : w.dim = v.dim.set axis y) (hs : w.strides = v.strides) (ha : axis < v.dim.length)
    (hy : y ≤ v.dim.getD axis 0) : w.maxAbsOffset ≤ v.maxAbsOffset := by
  unfold ArrayBase.maxAbsOffset
  rw [hd, hs]
  refine offsetOf_mono ?_ abs_mem_map_abs
  have hlast : (lastIndex v.dim).getD axis 0 = v.dim.getD axis 0 - 1 := by
    simp [lastIndex, List.getD_eq_getElem _ _ ha, ha]
  have := forall₂_set ((List.forall₂_same (l := lastIndex v.dim)).mpr fun x _ => le_refl x) axis
    (show y - 1 ≤ (lastIndex v.dim).getD axis 0 by omega)
  rw [set_getD_self] at this
  simpa only [lastIndex, List.map_set] using this

section Assoc

variable {A : Layout} {v : RawArrayView} {axis : Nat}

/-- The halves of a split keep the number of axes. -/
theorem Halves.length_dim {R : RawViewRepr} {A : Layout} {v l r : ArrayBase R} {index : Nat}
    (h : Halves A v axis index l r) : l.dim.length = v.dim.length ∧ r.dim.length = v.dim.length := by
  rw [h.left_dim, h.right_dim]
  simp

/-- Splitting `v` at `k` and then the right half at `m`, and splitting `v` at `k + m` and
then the left half at `k`, all return, and give the same three pieces: the first
exactly, the other two in dimension and strides, and in pointer whenever they have
elements along the axis. -/
def SplitsAssociate (A : Layout) (v : RawArrayView) (axis k m : Nat) : Prop :=
  ∃ l r r₁ r₂ l' r' l₁ l₂,
    v.splitAt A axis k = .ok (l, r) ∧ r.splitAt A axis m = .ok (r₁, r₂) ∧
    v.splitAt A axis (k + m) = .ok (l', r') ∧ l'.splitAt A axis k = .ok (l₁, l₂) ∧
    l = l₁ ∧ r₁.dim = l₂.dim ∧ r₁.strides = l₂.strides ∧ r₂.dim = r'.dim ∧
    r₂.strides = r'.strides ∧ (0 < m → r₁.ptr = l₂.ptr) ∧
    (k + m < v.dim.getD axis 0 → r₂.ptr = r'.ptr)

/-- **Splitting is associative**, for every view whose movements do not overflow and
every two consecutive cuts along an axis. -/
theorem splitAt_assoc (A : Layout) (v : RawArrayView) (axis k m : Nat) (ha : axis < v.dim.length)
    (hkm : k + m ≤ v.dim.getD axis 0) (hv : v.maxAbsOffset ≤ isizeMax) :
    SplitsAssociate A v axis k m := by
  obtain ⟨l, r, h₁, hh₁⟩ := v.splitAt_ok A ha (show k ≤ v.dim.getD axis 0 by omega) hv
  obtain ⟨l', r', h₃, hh₃⟩ := v.splitAt_ok A ha hkm hv
  have hr : r.dim.getD axis 0 = v.dim.getD axis 0 - k := by rw [hh₁.right_dim, getD_set_axis ha]
  have hl' : l'.dim.getD axis 0 = k + m := by rw [hh₃.left_dim, getD_set_axis ha]
  obtain ⟨r₁, r₂, h₂, hh₂⟩ := r.splitAt_ok A (hh₁.length_dim.2 ▸ ha) (show m ≤ _ by omega)
    ((maxAbsOffset_le_of_set hh₁.right_dim hh₁.right_strides ha (Nat.sub_le _ _)).trans hv)
  obtain ⟨l₁, l₂, h₄, hh₄⟩ := l'.splitAt_ok A (hh₃.length_dim.1 ▸ ha) (show k ≤ _ by omega)
    ((maxAbsOffset_le_of_set hh₃.left_dim hh₃.left_strides ha hkm).trans hv)
  refine ⟨l, r, r₁, r₂, l', r', l₁, l₂, h₁, h₂, h₃, h₄,
    ArrayBase.ext_fields (by rw [hh₁.left_ptr, hh₄.left_ptr, hh₃.left_ptr])
      (by rw [hh₁.left_dim, hh₄.left_dim, hh₃.left_dim, List.set_set])
      (by rw [hh₁.left_strides, hh₄.left_strides, hh₃.left_strides]),
    by rw [hh₂.left_dim, hh₄.right_dim, hl', hh₁.right_dim, hh₃.left_dim, List.set_set, List.set_set,
      Nat.add_sub_cancel_left],
    by rw [hh₂.left_strides, hh₄.right_strides, hh₁.right_strides, hh₃.left_strides],
    by rw [hh₂.right_dim, hr, hh₃.right_dim, hh₁.right_dim, List.set_set, Nat.sub_sub],
    by rw [hh₂.right_strides, hh₃.right_strides, hh₁.right_strides], fun hm => ?_, fun hlt => ?_⟩
  · rw [hh₂.left_ptr, hh₁.right_ptr, hh₄.right_ptr, hl', hh₃.left_strides, hh₃.left_ptr,
      if_pos (by omega), if_pos (by omega)]
  · rw [hh₂.right_ptr, hh₃.right_ptr, hr, hh₁.right_strides, hh₁.right_ptr,
      if_pos (by omega), if_pos (by omega), if_pos hlt]
    push_cast
    ring

theorem splitAt_assoc_rows :
    1 < rows.dim.length ∧ 1 + 1 ≤ rows.dim.getD 1 0 ∧ rows.maxAbsOffset ≤ isizeMax ∧
      SplitsAssociate word rows 1 1 1 :=
  ⟨by decide, by decide, by decide, splitAt_assoc word rows 1 1 1 (by decide) (by decide) (by decide)⟩

/-- The exception is real: cutting the rows of `rows` at column 1 and then cutting the
right part at 0 leaves the empty piece at the second column, while cutting at column 1
and then the left part at its whole width leaves it at the first. -/
example : (do let (_, r) ← rows.splitAt word 1 1; let (r₁, _) ← r.splitAt word 1 0; pure r₁.ptr) =
      (.ok 4100 : Except Fault Int) ∧
    (do let (l', _) ← rows.splitAt word 1 1; let (_, l₂) ← l'.splitAt word 1 1; pure l₂.ptr) =
      (.ok 4096 : Except Fault Int) :=
  ⟨rfl, rfl⟩

end Assoc

/-! ### `split_at` and `split_complex` -/

section Commute

variable {C T : Layout} {lo hi : Int} {axis index : Nat}

/-- A split of a valid view along an axis and at an index in range, with its halves. -/
theorem Valid.halves {A : Layout} {v : RawArrayView} (hv : Valid A lo hi v) (ha : axis < v.dim.length)
    (hk : index ≤ v.dim.getD axis 0) :
    ∃ l r, v.splitAt A axis index = .ok (l, r) ∧ Halves A v axis index l r ∧ Valid A lo hi l ∧
      Valid A lo hi r := by
  obtain ⟨l, r, h, hh⟩ := v.splitAt_ok A ha hk (hv.maxAbsOffset_eq ▸ hv.maxOffset_le)
  exact ⟨l, r, h, hh, hh.valid_left hv ha hk, hh.valid_right hv ha hk⟩

/-- `split_complex` of a valid view of pairs, with its components. -/
theorem Valid.parts {v : RawArrayView} (hv : Valid C lo hi v) (hC : C.IsComplexOf T) :
    ∃ c, v.splitComplex C T = .ok c ∧ Parts T v c.re c.im ∧ Valid T lo hi c.re ∧ Valid T lo hi c.im := by
  obtain ⟨-, c, h, hre, him⟩ := hv.splitComplex hC
  exact ⟨c, h, (RawArrayView.splitComplex_ok h).2, hre, him⟩

/-- Lowering one extent to `n` changes the doubled strides only on that axis, and there
only when `n` is 1 or less. -/
theorem getD_doubled_set {dim : List Nat} {axis n : Nat} (s : List Int) (hn : n ≤ dim.getD axis 0)
    {b : Nat} (hb : b ≠ axis ∨ 1 < n) : (doubled (dim.set axis n) s).getD b 0 = (doubled dim s).getD b 0 := by
  have hlong : 1 < (dim.set axis n).getD b 0 ↔ 1 < dim.getD b 0 := by
    by_cases hba : b = axis
    · subst hba
      have hn1 := hb.resolve_left (not_not.mpr rfl)
      have ha : b < dim.length := lt_of_not_le fun h => by
        rw [List.getD_eq_default _ _ h] at hn; omega
      rw [getD_set_self ha]
      omega
    · simp only [List.getD_eq_getElem?_getD, List.getElem?_set_ne (Ne.symm hba)]
  simp only [getD_doubled, hlong]

/-- The components of a half of `v` have the strides of the components of `v` on every
axis but the split one, and on that one too where the half is longer than 1. -/
theorem Parts.getD_strides_of_set {R : RawViewRepr} {v w re im re' im' : ArrayBase R}
    (hp : Parts T v re im) (hw : Parts T w re' im') {n b : Nat} (hd : w.dim = v.dim.set axis n)
    (hs : w.strides = v.strides) (hn : n ≤ v.dim.getD axis 0) (hb : b ≠ axis ∨ 1 < n) :
    re.strides.getD b 0 = re'.strides.getD b 0 := by
  rw [hw.re_strides, hp.re_strides, hd, hs]
  split
  · rfl
  · exact (getD_doubled_set _ hn hb).symm

/-- Decomposing `v` and then splitting both components, or splitting `v` and then
decomposing both halves, all calls return, and each of the four views of components
addresses the same elements as its counterpart. Their strides agree on every axis but
the split one, and on that one too where the half is longer than 1; there a half of
extent 1 or less keeps the stride `split_complex` did not double. -/
def SplitComplexCommutes (C T : Layout) (v : RawArrayView) (axis index : Nat) : Prop :=
  ∃ (c : Complex RawArrayView) (re₁ re₂ im₁ im₂ l r : RawArrayView) (cl cr : Complex RawArrayView),
    v.splitComplex C T = .ok c ∧ c.re.splitAt T axis index = .ok (re₁, re₂) ∧
    c.im.splitAt T axis index = .ok (im₁, im₂) ∧ v.splitAt C axis index = .ok (l, r) ∧
    l.splitComplex C T = .ok cl ∧ r.splitComplex C T = .ok cr ∧
    Shifted T re₁ T cl.re 0 ∧ Shifted T im₁ T cl.im 0 ∧ Shifted T re₂ T cr.re 0 ∧
    Shifted T im₂ T cr.im 0 ∧
    (∀ b, b ≠ axis ∨ 1 < index →
      re₁.strides.getD b 0 = cl.re.strides.getD b 0 ∧ im₁.strides.getD b 0 = cl.im.strides.getD b 0) ∧
    (∀ b, b ≠ axis ∨ 1 < v.dim.getD axis 0 - index →
      re₂.strides.getD b 0 = cr.re.strides.getD b 0 ∧ im₂.strides.getD b 0 = cr.im.strides.getD b 0)

/-- **`split_at` and `split_complex` commute** on every valid view of pairs, for an
axis and index in range. -/
theorem splitAt_splitComplex_comm (C T : Layout) (hC : C.IsComplexOf T) (lo hi : Int)
    (v : RawArrayView) (hv : Valid C lo hi v) (axis index : Nat) (ha : axis < v.dim.length)
    (hk : index ≤ v.dim.getD axis 0) : SplitComplexCommutes C T v axis index := by
  obtain ⟨c, hc, hp, hre, him⟩ := hv.parts hC
  obtain ⟨l, r, hs, hh, hl, hr⟩ := hv.halves ha hk
  obtain ⟨re₁, re₂, hsre, hhre, -, -⟩ :=
    hre.halves (by rw [hp.re_dim]; exact ha) (show index ≤ _ by rw [hp.re_dim]; exact hk)
  obtain ⟨im₁, im₂, hsim, hhim, -, -⟩ :=
    him.halves (by rw [hp.im_dim]; exact ha) (show index ≤ _ by rw [hp.im_dim]; exact hk)
  obtain ⟨cl, hcl, hpl, -, -⟩ := hl.parts hC
  obtain ⟨cr, hcr, hpr, -, -⟩ := hr.parts hC
  obtain ⟨hre₁, hre₂⟩ := (hp.shifted hC).1.halves hh hhre ha hk
  obtain ⟨him₁, him₂⟩ := (hp.shifted hC).2.halves hh hhim ha hk
  have hs₁ : ∀ b, b ≠ axis ∨ 1 < index → c.re.strides.getD b 0 = cl.re.strides.getD b 0 :=
    fun b hb => hp.getD_strides_of_set hpl hh.left_dim hh.left_strides hk hb
  have hs₂ : ∀ b, b ≠ axis ∨ 1 < v.dim.getD axis 0 - index →
      c.re.strides.getD b 0 = cr.re.strides.getD b 0 :=
    fun b hb => hp.getD_strides_of_set hpr hh.right_dim hh.right_strides (Nat.sub_le _ _) hb
  exact ⟨c, re₁, re₂, im₁, im₂, l, r, cl, cr, hc, hsre, hsim, hs, hcl, hcr,
    hre₁.same (hpl.shifted hC).1, him₁.same (hpl.shifted hC).2, hre₂.same (hpr.shifted hC).1,
    him₂.same (hpr.shifted hC).2,
    fun b hb => by
      simpa only [hhre.left_strides, hhim.left_strides, hp.im_strides, hpl.im_strides, and_self] using hs₁ b hb,
    fun b hb => by
      simpa only [hhre.right_strides, hhim.right_strides, hp.im_strides, hpr.im_strides, and_self] using
        hs₂ b hb⟩

theorem splitAt_splitComplex_comm_pairs :
    complexWord.IsComplexOf word ∧ Valid complexWord 4096 4128 pairs ∧ 0 < pairs.dim.length ∧
      1 ≤ pairs.dim.getD 0 0 ∧ SplitComplexCommutes complexWord word pairs 0 1 :=
  ⟨⟨rfl, rfl⟩, by decide, by decide, by decide,
    splitAt_splitComplex_comm complexWord word ⟨rfl, rfl⟩ 4096 4128 pairs (by decide) 0 1 (by decide)
      (by decide)⟩

/-- The exception is real: the first pair of `pairs`, decomposed alone, keeps stride 1,
where the real component of all four pairs, split, has stride 2. -/
example :
    (do
      let (l, _) ← pairs.splitAt complexWord 0 1
      let cl ← l.splitComplex complexWord word
      pure cl.re.strides) = (.ok [1] : Except Fault (List Int)) ∧
    (do
      let c ← pairs.splitComplex complexWord word
      let (re₁, _) ← c.re.splitAt word 0 1
      pure re₁.strides) = (.ok [2] : Except Fault (List Int)) :=
  ⟨rfl, rfl⟩

end Commute

/-! ### Rows of a row-major array -/

/-- Modelled from the spec: a plain dimension turned `Into<StrideShape<D>>` (ndarray's
`shape_builder.rs`, not under src/), which asks for the default strides. -/
def StrideShape.ofDim (dim : List Nat) : StrideShape := ⟨dim, .c, fun _ h => by cases h⟩

/-- Below a first extent that is not 0, the default strides do not depend on it. -/
theorem defaultStrides_cons (d : Nat) (dim : List Nat) (hd : d ≠ 0) :
    defaultStrides (d :: dim) = (dimSize dim : Int) :: defaultStrides dim := by
  unfold defaultStrides
  by_cases h : 0 ∈ dim
  · have hz : dimSize dim = 0 := (foldl_mul_eq_zero_iff dim 1).mpr (.inr h)
    simp [h, hz, List.replicate_succ]
  · simp [h, Ne.symm hd, rowMajor]

/-- **Splitting rows.** Split along its first axis strictly inside, a row-major array
that `from_shape_ptr` builds, in either build, falls into the two row-major arrays
that `from_shape_ptr` builds over the first `k` rows and over the rows after them. -/
theorem splitAt_rows (debug : Bool) (A : Layout) (d : Nat) (dim : List Nat) (ptr : Int)
    (v : RawArrayView) (h : RawArrayView.fromShapePtr debug A (.ofDim (d :: dim)) ptr = .ok v)
    (hsize : (dimSize (d :: dim) : Int) ≤ isizeMax) (k : Nat) (hk : 0 < k) (hkd : k < d) :
    ∃ l r, v.splitAt A 0 k = .ok (l, r) ∧
      RawArrayView.fromShapePtr false A (.ofDim (k :: dim)) ptr = .ok l ∧
      RawArrayView.fromShapePtr false A (.ofDim ((d - k) :: dim)) (ptr + k * dimSize dim * A.size) =
        .ok r := by
  obtain ⟨-, hp, hd, hs⟩ := ArrayBase.fromShapePtr_eq_ok.mp h
  simp only [StrideShape.ofDim, Strides.stridesForDim] at hd hs
  have hst : v.strides = (dimSize dim : Int) :: defaultStrides dim := by
    rw [hs]
    exact defaultStrides_cons d dim (by omega)
  have hrow : (k : Int) * dimSize dim ≤ isizeMax := by
    rw [dimSize_cons, Nat.cast_mul] at hsize
    exact le_trans (mul_le_mul_of_nonneg_right (by exact_mod_cast hkd.le) (Int.ofNat_nonneg _)) hsize
  have hoff : strideOffset k (v.strides.getD 0 0) = .ok (k * dimSize dim) := by
    rw [hst]
    exact strideOffset_of_le (by simpa using hrow)
  rw [v.splitAt_of_index_lt A (by simp [hd]) (by simp [hd, hkd]), hoff]
  refine ⟨_, _, rfl, ?_, ?_⟩ <;> rw [RawArrayView.fromShapePtr, ArrayBase.fromShapePtr_eq_ok] <;>
    simp [hp, hd, hst, StrideShape.ofDim, Strides.stridesForDim, offset, defaultStrides_cons, hk.ne',
      (Nat.sub_pos_of_lt hkd).ne']

theorem splitAt_rows_rows :
    RawArrayView.fromShapePtr true word (.ofDim [2, 3]) 4096 = .ok rows ∧
      ∃ l r, rows.splitAt word 0 1 = .ok (l, r) ∧
        RawArrayView.fromShapePtr false word (.ofDim [1, 3]) 4096 = .ok l ∧
        RawArrayView.fromShapePtr false word (.ofDim [2 - 1, 3]) (4096 + 1 * dimSize [3] * word.size) =
          .ok r :=
  have h : RawArrayView.fromShapePtr true word (.ofDim [2, 3]) 4096 = .ok rows := rfl
  ⟨h, splitAt_rows true word 2 [3] 4096 rows h (by decide) 1 (by decide) (by decide)⟩

/-! ### Columns of a column-major array -/

/-- Modelled from the spec: a dimension made column-major by `ShapeBuilder::f`
(ndarray's `shape_builder.rs`, not under src/), which asks for the Fortran strides. -/
def StrideShape.f (dim : List Nat) : StrideShape := ⟨dim, .f, fun _ h => by cases h⟩

theorem dimSize_append_singleton (dim : List Nat) (d : Nat) : dimSize (dim ++ [d]) = dimSize dim * d := by
  simp [dimSize, List.foldl_append]

theorem colMajor_append_singleton (acc : Nat) (dim : List Nat) (d : Nat) :
    colMajor acc (dim ++ [d]) = colMajor acc dim ++ [((acc * dimSize dim : Nat) : Int)] := by
  induction dim generalizing acc with
  | nil => simp [colMajor]
  | cons x dim ih => simp [colMajor, ih, dimSize_cons, Nat.mul_assoc]

/-- Past the last axis, with a last extent that is not 0, the Fortran strides gain the
product of the earlier extents. -/
theorem fortranStrides_append_singleton (dim : List Nat) (d : Nat) (hd : d ≠ 0) :
    fortranStrides (dim ++ [d]) = fortranStrides dim ++ [(dimSize dim : Int)] := by
  unfold fortranStrides
  by_cases h : 0 ∈ dim
  · have hz : dimSize dim = 0 := (foldl_mul_eq_zero_iff dim 1).mpr (.inr h)
    simp [h, hz, List.replicate_succ']
  · simp [h, Ne.symm hd, colMajor_append_singleton]

/-- **Splitting columns.** Split along its last axis strictly inside, a column-major
array that `from_shape_ptr` builds, in either build, falls into the two column-major
arrays that `from_shape_ptr` builds over the first `k` columns and over the columns
after them. -/
theorem splitAt_columns (debug : Bool) (A : Layout) (dim : List Nat) (d : Nat) (ptr : Int)
    (v : RawArrayView) (h : RawArrayView.fromShapePtr debug A (.f (dim ++ [d])) ptr = .ok v)
    (hsize : (dimSize (dim ++ [d]) : Int) ≤ isizeMax) (k : Nat) (hk : 0 < k) (hkd : k < d) :
    ∃ l r, v.splitAt A dim.length k = .ok (l, r) ∧
      RawArrayView.fromShapePtr false A (.f (dim ++ [k])) ptr = .ok l ∧
      RawArrayView.fromShapePtr false A (.f (dim ++ [d - k])) (ptr + k * dimSize dim * A.size) =
        .ok r := by
  obtain ⟨-, hp, hd, hs⟩ := ArrayBase.fromShapePtr_eq_ok.mp h
  simp only [StrideShape.f, Strides.stridesForDim] at hd hs
  have hst : v.strides = fortranStrides dim ++ [(dimSize dim : Int)] := by
    rw [hs]
    exact fortranStrides_append_singleton dim d (by omega)
  have hcol : (k : Int) * dimSize dim ≤ isizeMax := by
    rw [dimSize_append_singleton, Nat.cast_mul, mul_comm] at hsize
    exact le_trans (mul_le_mul_of_nonneg_right (by exact_mod_cast hkd.le) (Int.ofNat_nonneg _)) hsize
  have hoff : strideOffset k (v.strides.getD dim.length 0) = .ok (k * dimSize dim) := by
    rw [hst, show (fortranStrides dim ++ [(dimSize dim : Int)]).getD dim.length 0 = dimSize dim by simp]
    exact strideOffset_of_le (by simpa using hcol)
  rw [v.splitAt_of_index_lt A (by simp [hd]) (by simp [hd, hkd]), hoff]
  refine ⟨_, _, rfl, ?_, ?_⟩ <;> rw [RawArrayView.fromShapePtr, ArrayBase.fromShapePtr_eq_ok] <;>
    simp [hp, hd, hst, StrideShape.f, Strides.stridesForDim, offset, fortranStrides_append_singleton,
      hk.ne', (Nat.sub_pos_of_lt hkd).ne']

/-- A 3 × 2 column-major view at address 4096. -/
def cols : RawArrayView := ⟨4096, [3, 2], [1, 3], rfl⟩

theorem splitAt_columns_cols :
    RawArrayView.fromShapePtr true word (.f ([3] ++ [2])) 4096 = .ok cols ∧
      ∃ l r, cols.splitAt word [3].length 1 = .ok (l, r) ∧
        RawArrayView.fromShapePtr false word (.f ([3] ++ [1])) 4096 = .ok l ∧
        RawArrayView.fromShapePtr false word (.f ([3] ++ [2 - 1])) (4096 + 1 * dimSize [3] * word.size) =
          .ok r :=
  have h : RawArrayView.fromShapePtr true word (.f ([3] ++ [2])) 4096 = .ok cols := rfl
  ⟨h, splitAt_columns true word [3] 2 4096 cols h (by decide) 1 (by decide) (by decide)⟩

end RawViews
