import RawViews.SplitAt

/-! `split_complex`.

A view of `Complex<T>` lays its elements out as `[re0, im0, re1, im1, ...]`.
`split_complex` returns a view of the real parts and one of the imaginary parts,
over the same dimension: the stride of every axis longer than one doubles (in
units of `T`), the real view starts at the pointer and the imaginary view one `T`
further on. For a zero-sized `T` the strides stay as they are, and an empty view
reuses the pointer for the imaginary parts, since the allocation may be empty.

`splitComplex_spec` says what this gives: each element's real and imaginary parts
lie at the element's address and `size_of::<T>()` bytes after it. -/
namespace RawViews

/-- One turn of the stride loop of `split_complex`:
`if dim[ax] > 1 { strides[ax] = (strides[ax] as isize * 2) as usize }`. -/
def doubleStride (d : Nat) (s : Int) : Except Fault Int := if 1 < d then isizeMul s 2 else pure s

/-- The stride loop, one axis after the other. -/
def doubleStrides : List Nat → (strides : List Int) → Except Fault {s : List Int // s.length = strides.length}
  | d :: dim, s :: ss => do
    let s' ← doubleStride d s
    let rest ← doubleStrides dim ss
    pure ⟨s' :: rest.1, by simp [rest.2]⟩
  | [], ss => pure ⟨ss, rfl⟩
  | _ :: _, [] => pure ⟨[], rfl⟩

/-- The two assertions that open `split_complex`, on the layouts of `Complex<T>` and `T`:
`assert_eq!(size_of::<Complex<T>>(), size_of::<T>().checked_mul(2).unwrap())` and
`assert_eq!(align_of::<Complex<T>>(), align_of::<T>())`. -/
def checkComplexLayout (C T : Layout) : Except Fault Unit :=
  match usizeCheckedMul T.size 2 with
  | none => .error (.panic "called `Option::unwrap()` on a `None` value")
  | some twice =>
    if C.size ≠ twice then .error (assertEqFailed "" C.size twice)
    else if C.align ≠ T.align then .error (assertEqFailed "" C.align T.align)
    else .ok ()

/-- The strides of the component views: the loop runs when `size_of::<T>() != 0`. -/
def componentStrides (T : Layout) (v : RawArrayView) :
    Except Fault {s : List Int // s.length = v.strides.length} :=
  if T.size ≠ 0 then doubleStrides v.dim v.strides else pure ⟨v.strides, rfl⟩

/-- `RawArrayView::split_complex` for `Complex<T>` of layout `C`. -/
def RawArrayView.splitComplex (C T : Layout) (v : RawArrayView) : Except Fault (Complex RawArrayView) := do
  checkComplexLayout C T
  let strides ← componentStrides T v
  let ptrRe := v.ptr
  let ptrIm := if v.isEmpty then ptrRe else offset T ptrRe 1
  pure ⟨⟨ptrRe, v.dim, strides.1, by rw [strides.2, v.strides_length]⟩,
    ⟨ptrIm, v.dim, strides.1, by rw [strides.2, v.strides_length]⟩⟩

/-- `RawArrayViewMut::split_complex`. -/
def RawArrayViewMut.splitComplex (C T : Layout) (v : RawArrayViewMut) :
    Except Fault (Complex RawArrayViewMut) := do
  let ⟨re, im⟩ ← v.intoRawView.splitComplex C T
  pure ⟨re.withRepr .mut, im.withRepr .mut⟩

/-! ### The stride loop -/

/-- The strides the loop computes: doubled on every axis longer than one. -/
def doubled : List Nat → List Int → List Int
  | d :: dim, s :: ss => (if 1 < d then s * 2 else s) :: doubled dim ss
  | _, ss => ss

/-- Axis by axis, a stride is doubled exactly where the extent is more than 1. -/
theorem getD_doubled (dim : List Nat) (s : List Int) (b : Nat) :
    (doubled dim s).getD b 0 = if 1 < dim.getD b 0 then s.getD b 0 * 2 else s.getD b 0 := by
  induction dim generalizing s b with
  | nil => simp [doubled]
  | cons d dim ih =>
    cases s with
    | nil => simp [doubled]
    | cons t ts =>
      cases b with
      | zero => simp [doubled]
      | succ b => simp only [doubled, List.getD_cons_succ, ih]

/-- No doubled stride leaves `isize`. -/
def DoublesFit (dim : List Nat) (strides : List Int) : Prop :=
  ∀ b, 1 < dim.getD b 0 → |strides.getD b 0 * 2| ≤ isizeMax

theorem DoublesFit.tail {d : Nat} {dim : List Nat} {s : Int} {ss : List Int}
    (h : DoublesFit (d :: dim) (s :: ss)) : DoublesFit dim ss := fun b hb => h (b + 1) hb

theorem doubleStride_ok {d : Nat} {s x : Int} (h : doubleStride d s = .ok x) :
    x = if 1 < d then s * 2 else s := by
  unfold doubleStride at h
  split at h
  · rw [if_pos ‹_›, isizeMul_eq_ok h, mul_comm]
  · cases h; rw [if_neg ‹_›]

theorem doubleStride_of_fit {d : Nat} {s : Int} (h : 1 < d → |s * 2| ≤ isizeMax) :
    doubleStride d s = .ok (if 1 < d then s * 2 else s) := by
  unfold doubleStride
  split
  · rw [isizeMul_of_abs_le (h ‹_›)]
  · rfl

theorem doubleStrides_ok {dim : List Nat} {s : List Int} {s' : {s' : List Int // s'.length = s.length}}
    (h : doubleStrides dim s = .ok s') : s'.1 = doubled dim s := by
  induction dim generalizing s with
  | nil => cases h; rfl
  | cons d dim ih =>
    cases s with
    | nil => cases h; rfl
    | cons t s =>
      obtain ⟨x, hx, h⟩ := bind_eq_ok.mp h
      obtain ⟨rest, hrest, h⟩ := bind_eq_ok.mp h
      cases h
      simp only [doubled, ← doubleStride_ok hx, ih hrest]

theorem doubleStrides_of_fit {dim : List Nat} {s : List Int} (h : DoublesFit dim s) :
    ∃ s', doubleStrides dim s = .ok s' := by
  induction dim generalizing s with
  | nil => exact ⟨_, rfl⟩
  | cons d dim ih =>
    cases s with
    | nil => exact ⟨_, rfl⟩
    | cons t s =>
      obtain ⟨rest, hrest⟩ := ih h.tail
      refine ⟨⟨(if 1 < d then t * 2 else t) :: rest.1, by simp [rest.2]⟩, ?_⟩
      simp only [doubleStrides, doubleStride_of_fit (d := d) (s := t) (h 0), hrest]
      rfl

/-- On a movement, doubling the strides of the axes longer than one doubles the
offset: an axis of extent at most one is only ever at index 0. -/
theorem offsetOf_doubled {i dim : List Nat} (s : List Int) (hi : i ∈ indices (movementDim dim)) :
    offsetOf i (doubled dim s) = 2 * offsetOf i s := by
  induction dim generalizing i s with
  | nil => rw [mem_indices_nil_iff.mp hi]; rfl
  | cons d dim ih =>
    obtain ⟨x, i', hx, hi', rfl⟩ := mem_indices_cons_iff.mp hi
    cases s with
    | nil => rfl
    | cons t s =>
      simp only [doubled, offsetOf_cons]
      rw [ih s hi']
      split
      · ring
      · have : x = 0 := by simp only [max_def] at hx; split at hx <;> omega
        subst this; ring

/-! ### The two views -/

/-- The views `split_complex` returns for `v`, whose elements are pairs of `T`. -/
structure Parts {R : RawViewRepr} (T : Layout) (v re im : ArrayBase R) : Prop where
  re_ptr : re.ptr = v.ptr
  im_ptr : im.ptr = if v.isEmpty then v.ptr else v.ptr + T.size
  re_dim : re.dim = v.dim
  im_dim : im.dim = v.dim
  re_strides : re.strides = if T.size = 0 then v.strides else doubled v.dim v.strides
  im_strides : im.strides = re.strides

section Parts

variable {R : RawViewRepr} {C T : Layout} {v re im : ArrayBase R}

/-- Along any movement of a view of pairs, the real view is where the pairs are. -/
theorem Parts.addr_re (hC : C.IsComplexOf T) (h : Parts T v re im) {j : List Nat}
    (hj : j ∈ indices (movementDim v.dim)) : re.addr T j = v.addr C j := by
  simp only [ArrayBase.addr, offset, h.re_strides, h.re_ptr, hC.1]
  by_cases ht : T.size = 0
  · simp [ht]
  · rw [if_neg ht, offsetOf_doubled _ hj]
    push_cast
    ring

/-- In a view with elements, the imaginary view is `size_of::<T>()` bytes further on. -/
theorem Parts.addr_im (hC : C.IsComplexOf T) (h : Parts T v re im) (hne : v.isEmpty = false)
    {j : List Nat} (hj : j ∈ indices (movementDim v.dim)) : im.addr T j = v.addr C j + T.size := by
  rw [← h.addr_re hC hj]
  simp only [ArrayBase.addr, offset, h.im_ptr, h.im_strides, h.re_ptr, hne]
  simp only [Bool.false_eq_true, if_false]
  ring

/-- In an empty view, both views start at the pointer. -/
theorem Parts.addr_im_of_empty (h : Parts T v re im) (he : v.isEmpty = true) (j : List Nat) :
    im.addr T j = re.addr T j :=
  ArrayBase.addr_eq_of (by rw [h.im_ptr, h.re_ptr, if_pos he]) h.im_strides j

/-- A view of pairs of `T` has each element's real part at the element's address and
its imaginary part `size_of::<T>()` bytes after it. -/
theorem Parts.addr (hC : C.IsComplexOf T) (h : Parts T v re im) {i : List Nat} (hi : i ∈ indices v.dim) :
    re.addr T i = v.addr C i ∧ im.addr T i = v.addr C i + T.size :=
  ⟨h.addr_re hC (movement_of_mem_indices hi),
    h.addr_im hC (v.isEmpty_eq_false hi) (movement_of_mem_indices hi)⟩

end Parts

/-- The assertions pass exactly for the layout of `Complex<T>`: doubling a size
never overflows `usize`. -/
theorem checkComplexLayout_eq_ok {C T : Layout} {u : Unit} :
    checkComplexLayout C T = .ok u ↔ C.IsComplexOf T := by
  have htw : usizeCheckedMul T.size 2 = some (T.size * 2) := by
    have := T.size_le
    simp only [usizeCheckedMul, usizeChecked_eq_some, usizeMax, and_true]
    unfold isizeMax at this
    omega
  simp only [checkComplexLayout, htw, Layout.IsComplexOf]
  split_ifs <;> simp <;> omega

theorem componentStrides_ok {T : Layout} {v : RawArrayView} {s : {s : List Int // s.length = v.strides.length}}
    (h : componentStrides T v = .ok s) : s.1 = if T.size = 0 then v.strides else doubled v.dim v.strides := by
  unfold componentStrides at h
  split at h
  · rw [if_neg ‹_›, doubleStrides_ok h]
  · cases h; rw [if_pos (not_not.mp ‹_›)]

theorem componentStrides_of_fit {T : Layout} {v : RawArrayView} (hf : T.size ≠ 0 → DoublesFit v.dim v.strides) :
    ∃ s, componentStrides T v = .ok s := by
  unfold componentStrides
  split
  · exact doubleStrides_of_fit (hf ‹_›)
  · exact ⟨_, rfl⟩

namespace RawArrayView

variable {C T : Layout} {v : RawArrayView}

/-- Whatever `split_complex` returns is the pair of views `Parts` describes, and it
returns only for the layout of `Complex<T>`. -/
theorem splitComplex_ok {c : Complex RawArrayView} (h : v.splitComplex C T = .ok c) :
    C.IsComplexOf T ∧ Parts T v c.re c.im := by
  obtain ⟨_, hc, h⟩ := bind_eq_ok.mp h
  obtain ⟨s, hs, h⟩ := bind_eq_ok.mp h
  cases h
  exact ⟨checkComplexLayout_eq_ok.mp hc, rfl, by simp only [offset, one_mul], rfl, rfl,
    componentStrides_ok hs, rfl⟩

theorem splitComplex_of_fit (hC : C.IsComplexOf T) (hf : T.size ≠ 0 → DoublesFit v.dim v.strides) :
    ∃ c, v.splitComplex C T = .ok c := by
  obtain ⟨s, hs⟩ := componentStrides_of_fit hf
  have hc : checkComplexLayout C T = .ok () := checkComplexLayout_eq_ok.mpr hC
  simp only [splitComplex, hc, hs, bind, Except.bind]
  exact ⟨_, rfl⟩

end RawArrayView

theorem RawArrayViewMut.splitComplex_eq (C T : Layout) (v : RawArrayViewMut) :
    v.splitComplex C T = (v.intoRawView.splitComplex C T).map fun c =>
      ⟨c.re.withRepr .mut, c.im.withRepr .mut⟩ := by
  simp only [splitComplex, bind, Except.bind, pure, Except.pure, Except.map]

theorem RawArrayViewMut.splitComplex_ok {C T : Layout} {v : RawArrayViewMut}
    {c : Complex RawArrayViewMut} (h : v.splitComplex C T = .ok c) : C.IsComplexOf T ∧ Parts T v c.re c.im := by
  rw [splitComplex_eq] at h
  cases hr : v.intoRawView.splitComplex C T with
  | error e => rw [hr] at h; cases h
  | ok c' =>
    rw [hr] at h
    cases h
    obtain ⟨hC, hp⟩ := RawArrayView.splitComplex_ok hr
    exact ⟨hC, hp.1, hp.2, hp.3, hp.4, hp.5, hp.6⟩

/-- With `M · 2t ≤ isize::MAX` for a `T` of size `t > 0`, no doubled stride leaves
`isize`: an axis longer than one has a stride of at most `M`. -/
theorem ArrayBase.doublesFit {R : RawViewRepr} (v : ArrayBase R) {t : Nat} (ht : t ≠ 0)
    (hb : v.maxAbsOffset * (2 * t) ≤ isizeMax) : DoublesFit v.dim v.strides := by
  intro b hd
  have h1 : |v.strides.getD b 0| ≤ v.maxAbsOffset := by simpa using v.single_le_maxAbsOffset hd
  have h0 : 0 ≤ v.maxAbsOffset := offsetOf_nonneg abs_mem_map_abs _
  have ht' : (1 : Int) ≤ t := by exact_mod_cast Nat.one_le_iff_ne_zero.mpr ht
  have := mul_le_mul_of_nonneg_left ht' h0
  rw [abs_mul, abs_two]
  linarith

/-! ### The contract -/

/-- What `split_complex` promises for a view `v` of `Complex<T>`: it returns the
two views `Parts` describes, and each element's real and imaginary parts lie at
the element's address and `size_of::<T>()` bytes after it. -/
def SplitComplexContract {R : RawViewRepr} (C T : Layout) (v : ArrayBase R)
    (res : Except Fault (Complex (ArrayBase R))) : Prop :=
  ∃ c, res = .ok c ∧ Parts T v c.re c.im ∧
    ∀ i ∈ indices v.dim, c.re.addr T i = v.addr C i ∧ c.im.addr T i = v.addr C i + T.size

theorem RawArrayView.splitComplex_contract {C T : Layout} {v : RawArrayView} (hC : C.IsComplexOf T)
    (hb : v.maxAbsOffset * (2 * T.size) ≤ isizeMax) : SplitComplexContract C T v (v.splitComplex C T) := by
  obtain ⟨c, hc⟩ := v.splitComplex_of_fit hC (fun ht => v.doublesFit ht hb)
  have hp := (splitComplex_ok hc).2
  exact ⟨c, hc, hp, fun i hi => hp.addr hC hi⟩

theorem SplitComplexContract.withRepr {R S : RawViewRepr} {C T : Layout} {v : ArrayBase R}
    {res : Except Fault (Complex (ArrayBase S))} (h : SplitComplexContract C T (v.withRepr S) res) :
    SplitComplexContract C T v (res.map fun c => ⟨c.re.withRepr R, c.im.withRepr R⟩) := by
  obtain ⟨c, rfl, hp, haddr⟩ := h
  exact ⟨_, rfl, ⟨hp.1, hp.2, hp.3, hp.4, hp.5, hp.6⟩, haddr⟩

theorem RawArrayViewMut.splitComplex_contract {C T : Layout} {v : RawArrayViewMut} (hC : C.IsComplexOf T)
    (hb : v.maxAbsOffset * (2 * T.size) ≤ isizeMax) : SplitComplexContract C T v (v.splitComplex C T) := by
  rw [splitComplex_eq]
  exact (RawArrayView.splitComplex_contract hC hb).withRepr

/-- **`split_complex` on either raw view.** For a view of `Complex<T>` whose movements
do not overflow, in elements or in bytes, `split_complex` returns the real and the
imaginary view over the same dimension and strides, with every element's parts at
its address and `size_of::<T>()` bytes further; for a zero-sized `T`, an axis of
extent at most one and an empty view alike. -/
theorem splitComplex_spec :
    (∀ (C T : Layout) (v : RawArrayView), C.IsComplexOf T → v.maxAbsOffset ≤ isizeMax →
      v.maxAbsOffset * (2 * T.size) ≤ isizeMax → SplitComplexContract C T v (v.splitComplex C T)) ∧
    (∀ (C T : Layout) (v : RawArrayViewMut), C.IsComplexOf T → v.maxAbsOffset ≤ isizeMax →
      v.maxAbsOffset * (2 * T.size) ≤ isizeMax → SplitComplexContract C T v (v.splitComplex C T)) :=
  ⟨fun _ _ _ hC _ hb => RawArrayView.splitComplex_contract hC hb,
    fun _ _ _ hC _ hb => RawArrayViewMut.splitComplex_contract hC hb⟩

/-- `Complex<f32>`: two four-byte components. -/
def complexWord : Layout := ⟨8, 4, by decide⟩

/-- Four complex pairs in a row at address 4096. -/
def pairs : RawArrayView := ⟨4096, [4], [1], rfl⟩

theorem splitComplex_spec_pairs :
    complexWord.IsComplexOf word ∧ pairs.maxAbsOffset ≤ isizeMax ∧
      pairs.maxAbsOffset * (2 * word.size) ≤ isizeMax ∧
      SplitComplexContract complexWord word pairs (pairs.splitComplex complexWord word) :=
  ⟨⟨rfl, rfl⟩, by decide, by decide,
    splitComplex_spec.1 complexWord word pairs ⟨rfl, rfl⟩ (by decide) (by decide)⟩

/-- The spec's second scenario: stride 2 for both views, the imaginary one a float further on. -/
example : pairs.splitComplex complexWord word =
    .ok ⟨⟨4096, [4], [2], rfl⟩, ⟨4100, [4], [2], rfl⟩⟩ := rfl

/-- The spec's third scenario: an empty view reuses the pointer; the empty axis keeps
its stride. -/
example : RawArrayView.splitComplex complexWord word ⟨4096, [0, 3], [3, 1], rfl⟩ =
    .ok ⟨⟨4096, [0, 3], [3, 2], rfl⟩, ⟨4096, [0, 3], [3, 2], rfl⟩⟩ := rfl

end RawViews
