import RawViews.Aliasing

/-! Building a raw view from a shape and a pointer, and promoting it to a checked view.

`from_shape_ptr` takes a `StrideShape`: a dimension with either the default strides,
row-major (`C`) or column-major (`F`), or strides the caller gives. In a debug build it
first asserts what it can of its safety contract: a non-null pointer; for given
strides, that they are non-negative and that the product of the non-zero extents and
the farthest movement fit in `isize`; for default strides, that the product does. The
assertions compute in `usize` with checked operations. A release build checks nothing.
The argument `debug` is `cfg!(debug_assertions)`.

`fromShapePtr_custom_debug`: the assertions on given strides are exactly the
conditions of validity that do not involve the allocation. Default strides number the elements one after another, so
over an allocation of exactly `len()` elements the view is valid, no two of its
elements share a byte and together they own the allocation (`fromShapePtr_default`);
every run of splits, decompositions and casts from such a view then hands the
allocation's bytes out among the live views (`runs_from_allocation`).

Promotion hands the descriptor over to a checked view; in a debug build it asserts an
aligned pointer, which the halves and components of an aligned view always have
(`derefInto_after_split`). -/
namespace RawViews

/-! ### Shapes -/

/-- `Strides<D>`: the strides a shape asks for. -/
inductive Strides where
  | c
  | f
  | custom (strides : List Int)
  deriving DecidableEq, Repr

/-- `StrideShape<D>`. Given strides are of the dimension's type `D`, so they have as
many axes as the dimension (for `IxDyn` this is the caller's to keep). -/
structure StrideShape where
  dim : List Nat
  strides : Strides
  custom_length : ∀ s, strides = .custom s → s.length = dim.length

/-- Row-major strides: each axis steps over the product of the extents after it. -/
def rowMajor : List Nat → List Int
  | [] => []
  | _ :: dim => (dimSize dim : Int) :: rowMajor dim

/-- Column-major strides of axes whose earlier extents multiply to `acc`: each axis
steps over the product of the extents before it. -/
def colMajor (acc : Nat) : List Nat → List Int
  | [] => []
  | d :: dim => (acc : Int) :: colMajor (acc * d) dim

/-- Modelled from the spec: `Dimension::default_strides` (not under src/), the
row-major strides, all zero when an extent is 0. -/
def defaultStrides (dim : List Nat) : List Int :=
  if 0 ∈ dim then List.replicate dim.length 0 else rowMajor dim

/-- Modelled from the spec: `Dimension::fortran_strides` (not under src/), the
column-major strides, all zero when an extent is 0. -/
def fortranStrides (dim : List Nat) : List Int :=
  if 0 ∈ dim then List.replicate dim.length 0 else colMajor 1 dim

/-- Modelled from the spec: `Strides::strides_for_dim` (not under src/). Its debug
assertion that given strides have the dimension's number of axes always holds here. -/
def Strides.stridesForDim : Strides → List Nat → List Int
  | .c, dim => defaultStrides dim
  | .f, dim => fortranStrides dim
  | .custom s, _ => s

@[simp] theorem length_rowMajor (dim : List Nat) : (rowMajor dim).length = dim.length := by
  induction dim <;> simp [rowMajor, *]

@[simp] theorem length_colMajor (acc : Nat) (dim : List Nat) : (colMajor acc dim).length = dim.length := by
  induction dim generalizing acc <;> simp [colMajor, *]

@[simp] theorem length_defaultStrides (dim : List Nat) : (defaultStrides dim).length = dim.length := by
  unfold defaultStrides; split <;> simp

@[simp] theorem length_fortranStrides (dim : List Nat) : (fortranStrides dim).length = dim.length := by
  unfold fortranStrides; split <;> simp

theorem StrideShape.length_stridesForDim (shape : StrideShape) :
    (shape.strides.stridesForDim shape.dim).length = shape.dim.length := by
  rcases shape with ⟨dim, _ | _ | s, h⟩
  · exact length_defaultStrides dim
  · exact length_fortranStrides dim
  · exact h s rfl

/-! ### The debug assertions -/

/-- The panic of `.unwrap()` on a `ShapeError` of the given kind. -/
def shapeError (kind description : String) : Fault :=
  .panic ("called `Result::unwrap()` on an `Err` value: ShapeError/" ++ kind ++ ": " ++ description)

/-- `from_kind(ErrorKind::Overflow)`, unwrapped. -/
def overflowError : Fault := shapeError "Overflow" "arithmetic overflow"

/-- Modelled from the spec: `dimension::strides_non_negative(strides).unwrap()` (not
under src/): every stride, read as `isize`, is non-negative. -/
def stridesNonNegative (strides : List Int) : Except Fault Unit :=
  if ∀ s ∈ strides, 0 ≤ s then pure () else .error (shapeError "Unsupported" "unsupported operation")

/-- `opt.ok_or_else(|| e)`: `None` becomes the error `e`. -/
def okOrElse {α : Type} (o : Option α) (e : Fault) : Except Fault α :=
  match o with
  | some a => .ok a
  | none => .error e

/-- Modelled from the spec: `dimension::size_of_shape_checked(dim).unwrap()` (not
under src/): the non-zero extents, multiplied from 1 by `checked_mul` on `usize`, must
not pass `isize::MAX`; the element count is returned. -/
def sizeOfShapeChecked (dim : List Nat) : Except Fault Nat := do
  let n ← okOrElse ((dim.filter (· ≠ 0)).foldlM usizeCheckedMul 1) overflowError
  if isizeMax < (n : Int) then .error overflowError else pure (dimSize dim)

/-- One turn of the `try_fold` in `max_abs_offset_check_overflow`: the farthest
movement along an axis, `d.saturating_sub(1).checked_mul(s.unsigned_abs())`, added to
the sum by `checked_add`. -/
def maxOffsetStep (acc : Nat) (ds : Nat × Int) : Option Nat :=
  (usizeCheckedMul (ds.1 - 1) ds.2.natAbs).bind (usizeCheckedAdd acc)

/-- Modelled from the spec: `dimension::max_abs_offset_check_overflow::<A, _>(dim,
strides).unwrap()` (not under src/): as many strides as axes; `size_of_shape_checked`;
then the farthest movement with every stride's magnitude, summed in `usize`, within
`isize::MAX` in elements and, multiplied by `checked_mul`, in bytes. It returns the
movement. -/
def maxAbsOffsetCheckOverflow (A : Layout) (dim : List Nat) (strides : List Int) : Except Fault Nat :=
  if dim.length ≠ strides.length then .error (shapeError "IncompatibleLayout" "incompatible memory layout")
  else do
    let _ ← sizeOfShapeChecked dim
    let m ← okOrElse ((dim.zip strides).foldlM maxOffsetStep 0) overflowError
    if isizeMax < (m : Int) then .error overflowError else do
    let bytes ← okOrElse (usizeCheckedMul m A.size) overflowError
    if isizeMax < (bytes : Int) then .error overflowError else pure m

/-- The assertions of `from_shape_ptr` under `cfg!(debug_assertions)`. -/
def fromShapePtrChecks (A : Layout) (shape : StrideShape) (ptr : Int) : Except Fault Unit :=
  if ptr = 0 then .error (.panic "The pointer must be non-null.") else
  match shape.strides with
  | .custom s => do
    stridesNonNegative s
    discard <| maxAbsOffsetCheckOverflow A shape.dim s
  | _ => discard <| sizeOfShapeChecked shape.dim

/-- `RawArrayView::from_shape_ptr` and `RawArrayViewMut::from_shape_ptr`, which have
one body. The debug assertion of `new_` that the pointer is non-null comes after the
same assertion here, so it never fails. -/
def ArrayBase.fromShapePtr {R : RawViewRepr} (debug : Bool) (A : Layout) (shape : StrideShape)
    (ptr : Int) : Except Fault (ArrayBase R) := do
  if debug then fromShapePtrChecks A shape ptr
  pure ⟨ptr, shape.dim, shape.strides.stridesForDim shape.dim, shape.length_stridesForDim⟩

/-- `RawArrayView::from_shape_ptr`. -/
def RawArrayView.fromShapePtr (debug : Bool) (A : Layout) (shape : StrideShape) (ptr : Int) :
    Except Fault RawArrayView :=
  ArrayBase.fromShapePtr debug A shape ptr

/-- `RawArrayViewMut::from_shape_ptr`. -/
def RawArrayViewMut.fromShapePtr (debug : Bool) (A : Layout) (shape : StrideShape) (ptr : Int) :
    Except Fault RawArrayViewMut :=
  ArrayBase.fromShapePtr debug A shape ptr

/-! ### What the checks compute -/

/-- The non-zero extents multiplied in `usize` give the product `sizeNonzero` counts,
or `None` exactly when it passes `usize::MAX`: no partial product fails on its own. -/
theorem foldlM_usizeCheckedMul (dim : List Nat) {acc : Nat} (hacc : acc ≤ usizeMax) :
    (dim.filter (· ≠ 0)).foldlM usizeCheckedMul acc = usizeChecked (acc * sizeNonzero dim) := by
  induction dim generalizing acc with
  | nil => simp [sizeNonzero, usizeChecked, hacc]
  | cons d dim ih =>
    by_cases hd : d = 0
    · simpa [hd, sizeNonzero] using ih hacc
    · rw [List.filter_cons_of_pos (by simpa using hd), List.foldlM_cons, sizeNonzero, if_neg hd,
        ← Nat.mul_assoc, usizeCheckedMul, usizeChecked]
      by_cases h : acc * d ≤ usizeMax
      · rw [if_pos h]
        exact ih h
      · have : usizeMax < acc * d * sizeNonzero dim :=
          lt_of_lt_of_le (not_le.mp h) (Nat.le_mul_of_pos_right _ (sizeNonzero_pos dim))
        rw [if_neg h]
        exact (usizeChecked_eq_none.mpr this).symm

/-- One turn of the movement sum is one checked addition of the axis's movement: when
the product overflows, so does the sum. -/
theorem maxOffsetStep_eq (acc : Nat) (ds : Nat × Int) :
    maxOffsetStep acc ds = usizeChecked (acc + (ds.1 - 1) * ds.2.natAbs) := by
  unfold maxOffsetStep usizeCheckedMul usizeCheckedAdd usizeChecked
  split_ifs <;> simp_all
  omega

/-- The sum of the farthest movements in `usize` is `M` with every stride's magnitude,
or `None` exactly when that passes `usize::MAX`. -/
theorem foldlM_maxOffsetStep (dim : List Nat) (strides : List Int) {acc : Nat} (hacc : acc ≤ usizeMax) :
    (dim.zip strides).foldlM maxOffsetStep acc =
      usizeChecked (acc + (offsetOf (lastIndex dim) (strides.map abs)).toNat) := by
  induction dim generalizing strides acc with
  | nil => simp [lastIndex, usizeChecked, hacc]
  | cons d dim ih =>
    cases strides with
    | nil => simp [lastIndex, usizeChecked, hacc]
    | cons t ts =>
      have hrest := offsetOf_nonneg (abs_mem_map_abs (s := ts)) (lastIndex dim)
      have hoff : ((d - 1 : Nat) : Int) * |t| = ((d - 1) * t.natAbs : Nat) := by
        rw [Nat.cast_mul, Int.natCast_natAbs]
      rw [List.zip_cons_cons, List.foldlM_cons, maxOffsetStep_eq]
      simp only [lastIndex, List.map_cons, offsetOf_cons]
      rw [← lastIndex, hoff, usizeChecked]
      by_cases h : acc + (d - 1) * t.natAbs ≤ usizeMax
      · rw [if_pos h]
        exact (ih ts h).trans (congrArg usizeChecked (by omega))
      · rw [if_neg h]
        exact (usizeChecked_eq_none.mpr (by omega)).symm

/-- A `usize` result compared with `isize::MAX`: overflowing `usize` is only part of
failing the comparison, so the check is on the exact value. -/
theorem okOrElse_usizeChecked_bind {α : Type} (n : Nat) (e : Fault) (f : Nat → Except Fault α) :
    (okOrElse (usizeChecked n) e >>= fun k => if isizeMax < (k : Int) then .error e else f k) =
      if (n : Int) ≤ isizeMax then f n else .error e := by
  by_cases h : (n : Int) ≤ isizeMax
  · have hn : n ≤ usizeMax := by unfold isizeMax at h; unfold usizeMax; omega
    simp [usizeChecked, okOrElse, hn, h, bind, Except.bind]
  · by_cases hn : n ≤ usizeMax <;> simp [usizeChecked, okOrElse, hn, h, bind, Except.bind, lt_of_not_le h]

/-- `size_of_shape_checked` returns the element count exactly when the product of the
non-zero extents fits in `isize`. -/
theorem sizeOfShapeChecked_eq (dim : List Nat) :
    sizeOfShapeChecked dim =
      if (sizeNonzero dim : Int) ≤ isizeMax then .ok (dimSize dim) else .error overflowError := by
  rw [sizeOfShapeChecked, foldlM_usizeCheckedMul dim (by decide), Nat.one_mul, okOrElse_usizeChecked_bind]
  rfl

/-- `max_abs_offset_check_overflow` returns exactly when the strides are as many as the
axes, the product of the non-zero extents fits in `isize` and so does `M` with every
stride's magnitude, in elements and in bytes; it returns that `M`. -/
theorem maxAbsOffsetCheckOverflow_eq_ok {A : Layout} {dim : List Nat} {strides : List Int} {m : Nat} :
    maxAbsOffsetCheckOverflow A dim strides = .ok m ↔ dim.length = strides.length ∧
      (sizeNonzero dim : Int) ≤ isizeMax ∧ offsetOf (lastIndex dim) (strides.map abs) ≤ isizeMax ∧
      offsetOf (lastIndex dim) (strides.map abs) * A.size ≤ isizeMax ∧
      m = (offsetOf (lastIndex dim) (strides.map abs)).toNat := by
  have hM := offsetOf_nonneg (abs_mem_map_abs (s := strides)) (lastIndex dim)
  unfold maxAbsOffsetCheckOverflow
  simp only [sizeOfShapeChecked_eq, foldlM_maxOffsetStep dim strides (Nat.zero_le _), Nat.zero_add,
    usizeCheckedMul, okOrElse_usizeChecked_bind, Int.toNat_of_nonneg hM, Nat.cast_mul]
  by_cases hl : dim.length = strides.length <;> by_cases hs : (sizeNonzero dim : Int) ≤ isizeMax <;>
    simp [hl, hs, bind, Except.bind]
  generalize offsetOf (lastIndex dim) (strides.map abs) = M at hM ⊢
  split_ifs <;> simp_all [pure, Except.pure]
  omega

theorem stridesNonNegative_eq_ok {s : List Int} {u : Unit} :
    stridesNonNegative s = .ok u ↔ ∀ t ∈ s, 0 ≤ t := by
  unfold stridesNonNegative; split <;> simp_all [pure, Except.pure]

/-- The view `from_shape_ptr` returns, and when: in a debug build, when its
assertions pass; in a release build, always. -/
theorem ArrayBase.fromShapePtr_eq_ok {R : RawViewRepr} {debug : Bool} {A : Layout}
    {shape : StrideShape} {ptr : Int} {v : ArrayBase R} :
    ArrayBase.fromShapePtr debug A shape ptr = .ok v ↔
      (debug = true → fromShapePtrChecks A shape ptr = .ok ()) ∧ v.ptr = ptr ∧
        v.dim = shape.dim ∧ v.strides = shape.strides.stridesForDim shape.dim := by
  have hv : (⟨ptr, shape.dim, _, shape.length_stridesForDim⟩ : ArrayBase R) = v ↔
      v.ptr = ptr ∧ v.dim = shape.dim ∧ v.strides = shape.strides.stridesForDim shape.dim := by
    constructor
    · rintro rfl; simp
    · rintro ⟨hp, hd, hs⟩; exact ext_fields hp.symm hd.symm hs.symm
  cases debug
  · simp [fromShapePtr, bind, Except.bind, pure, Except.pure, hv]
  · cases hc : fromShapePtrChecks A shape ptr <;>
      simp [fromShapePtr, hc, bind, Except.bind, pure, Except.pure, hv]

theorem discard_eq_ok {α : Type} {x : Except Fault α} : discard x = .ok () ↔ ∃ a, x = .ok a := by
  cases x <;> simp [discard, Functor.mapConst, Except.map]

/-- Given strides: the assertions are the non-null pointer, non-negative strides, the
product of the non-zero extents within `isize`, and the farthest movement within
`isize` in elements and in bytes. -/
theorem fromShapePtrChecks_custom {A : Layout} {shape : StrideShape} {s : List Int}
    (hs : shape.strides = .custom s) {ptr : Int} :
    fromShapePtrChecks A shape ptr = .ok () ↔ ptr ≠ 0 ∧ (∀ t ∈ s, 0 ≤ t) ∧
      (sizeNonzero shape.dim : Int) ≤ isizeMax ∧ offsetOf (lastIndex shape.dim) (s.map abs) ≤ isizeMax ∧
        offsetOf (lastIndex shape.dim) (s.map abs) * A.size ≤ isizeMax := by
  unfold fromShapePtrChecks
  rw [hs]
  by_cases hp : ptr = 0
  · simp [hp]
  · simp [hp, bind_eq_ok, stridesNonNegative_eq_ok, discard_eq_ok, maxAbsOffsetCheckOverflow_eq_ok,
      (shape.custom_length s hs).symm]

/-- Default strides: the assertions are the non-null pointer and the product of the
non-zero extents within `isize`. -/
theorem fromShapePtrChecks_default {A : Layout} {shape : StrideShape}
    (hs : shape.strides = .c ∨ shape.strides = .f) {ptr : Int} :
    fromShapePtrChecks A shape ptr = .ok () ↔ ptr ≠ 0 ∧ (sizeNonzero shape.dim : Int) ≤ isizeMax := by
  unfold fromShapePtrChecks
  by_cases hp : ptr = 0
  · simp [hp]
  · rcases hs with hs | hs <;> by_cases hz : (sizeNonzero shape.dim : Int) ≤ isizeMax <;>
      simp [hs, hp, hz, discard_eq_ok, sizeOfShapeChecked_eq]

/-! ### Strides that number the elements one after another -/

@[simp] theorem dimSize_nil : dimSize [] = 1 := rfl

theorem dimSize_cons (d : Nat) (dim : List Nat) : dimSize (d :: dim) = d * dimSize dim := by
  suffices h : ∀ (l : List Nat) (a : Nat), l.foldl (· * ·) a = a * l.foldl (· * ·) 1 by
    simpa [dimSize] using h dim d
  intro l
  induction l with
  | nil => simp
  | cons x l ih => intro a; rw [List.foldl_cons, List.foldl_cons, ih (a * x), ih (1 * x)]; ring

theorem dimSize_le_sizeNonzero (dim : List Nat) : dimSize dim ≤ sizeNonzero dim := by
  induction dim with
  | nil => simp [sizeNonzero]
  | cons d dim ih =>
    rw [dimSize_cons, sizeNonzero]
    split
    · simp [*]
    · exact Nat.mul_le_mul_left d ih

/-- Digits in a mixed radix: `x * P + o` with `0 ≤ o < P` determines `x` and `o`. -/
theorem radix_inj {x y P o o' : Int} (ho : 0 ≤ o) (ho' : o < P) (hp : 0 ≤ o') (hp' : o' < P)
    (h : x * P + o = y * P + o') : x = y ∧ o = o' := by
  have hxy : x = y := by
    rcases lt_trichotomy x y with hlt | heq | hgt
    · linarith [mul_le_mul_of_nonneg_right (Int.add_one_le_of_lt hlt) (ho.trans ho'.le)]
    · exact heq
    · linarith [mul_le_mul_of_nonneg_right (Int.add_one_le_of_lt hgt) (ho.trans ho'.le)]
  subst hxy
  exact ⟨rfl, by linarith⟩

theorem offsetOf_zeros (i : List Nat) (n : Nat) : offsetOf i (List.replicate n 0) = 0 := by
  induction i generalizing n with
  | nil => rfl
  | cons x i ih => cases n <;> simp [List.replicate_succ, ih]

theorem lastIndex_mem_indices {dim : List Nat} (h : 0 ∉ dim) : lastIndex dim ∈ indices dim := by
  induction dim with
  | nil => exact List.Forall₂.nil
  | cons d dim ih =>
    simp only [List.mem_cons, not_or] at h
    exact List.Forall₂.cons (show d - 1 < d by omega) (ih h.2)

/-- Strides `s` lay the elements of `dim` out one after another: the offsets of the
elements are `0, 1, …, len() - 1`, each taken once, and when there is no element no
movement leaves the pointer. -/
structure Contiguous (dim : List Nat) (s : List Int) : Prop where
  nonneg : ∀ t ∈ s, 0 ≤ t
  last_lt : offsetOf (lastIndex dim) s < (max (dimSize dim) 1 : Nat)
  inj : ∀ i ∈ indices dim, ∀ j ∈ indices dim, offsetOf i s = offsetOf j s → i = j
  surj : ∀ n < dimSize dim, ∃ i ∈ indices dim, offsetOf i s = n

/-- Zero strides number the elements of a dimension that has none. -/
theorem contiguous_zeros {dim : List Nat} (h : 0 ∈ dim) : Contiguous dim (List.replicate dim.length 0) where
  nonneg t ht := (List.eq_of_mem_replicate ht).ge
  last_lt := by rw [offsetOf_zeros]; exact_mod_cast lt_max_of_lt_right one_pos
  inj i hi := absurd h (not_mem_of_mem_indices hi)
  surj n hn := by
    have hz : dimSize dim = 0 := (foldl_mul_eq_zero_iff dim 1).mpr (.inr h)
    omega

section RowMajor

theorem rowMajor_nonneg (dim : List Nat) : ∀ t ∈ rowMajor dim, 0 ≤ t := by
  induction dim with
  | nil => simp [rowMajor]
  | cons d dim ih => simpa [rowMajor] using ih

theorem offsetOf_rowMajor_lt {i dim : List Nat} (hi : i ∈ indices dim) :
    offsetOf i (rowMajor dim) < dimSize dim := by
  induction hi with
  | nil => simp
  | @cons x d i dim hx hi ih =>
    have hx' : (x : Int) + 1 ≤ d := by exact_mod_cast hx
    simp only [rowMajor, offsetOf_cons, dimSize_cons, Nat.cast_mul]
    linarith [mul_le_mul_of_nonneg_right hx' (Int.ofNat_nonneg (dimSize dim))]

theorem offsetOf_rowMajor_inj {i j dim : List Nat} (hi : i ∈ indices dim) (hj : j ∈ indices dim)
    (h : offsetOf i (rowMajor dim) = offsetOf j (rowMajor dim)) : i = j := by
  induction hi generalizing j with
  | nil => exact (mem_indices_nil_iff.mp hj).symm
  | @cons x d i dim _ hi ih =>
    obtain ⟨y, j, -, hj', rfl⟩ := mem_indices_cons_iff.mp hj
    simp only [rowMajor, offsetOf_cons] at h
    obtain ⟨hxy, hij⟩ := radix_inj (offsetOf_nonneg (rowMajor_nonneg dim) i) (offsetOf_rowMajor_lt hi)
      (offsetOf_nonneg (rowMajor_nonneg dim) j) (offsetOf_rowMajor_lt hj') h
    rw [Nat.cast_inj.mp hxy, ih hj' hij]

theorem exists_offsetOf_rowMajor {dim : List Nat} {n : Nat} (hn : n < dimSize dim) :
    ∃ i ∈ indices dim, offsetOf i (rowMajor dim) = n := by
  induction dim generalizing n with
  | nil => exact ⟨[], List.Forall₂.nil, by simp_all⟩
  | cons d dim ih =>
    rw [dimSize_cons] at hn
    have hP : 0 < dimSize dim := Nat.pos_of_ne_zero (by rintro h; simp [h] at hn)
    obtain ⟨i, hi, ho⟩ := ih (Nat.mod_lt n hP)
    refine ⟨n / dimSize dim :: i, List.Forall₂.cons (Nat.div_lt_of_lt_mul (by rwa [mul_comm])) hi, ?_⟩
    simp only [rowMajor, offsetOf_cons, ho]
    exact_mod_cast Nat.div_add_mod' n (dimSize dim)

theorem contiguous_rowMajor {dim : List Nat} (h : 0 ∉ dim) : Contiguous dim (rowMajor dim) where
  nonneg := rowMajor_nonneg dim
  last_lt := (offsetOf_rowMajor_lt (lastIndex_mem_indices h)).trans_le (by exact_mod_cast le_max_left _ _)
  inj _ hi _ hj := offsetOf_rowMajor_inj hi hj
  surj _ hn := exists_offsetOf_rowMajor hn

end RowMajor

section ColMajor

theorem colMajor_eq_map (acc : Nat) (dim : List Nat) :
    colMajor acc dim = (colMajor 1 dim).map ((acc : Int) * ·) := by
  induction dim generalizing acc with
  | nil => rfl
  | cons d dim ih => simp [colMajor, ih (acc * d), ih d, Function.comp_def, mul_assoc]

theorem offsetOf_map_mul (c : Int) (i : List Nat) (s : List Int) :
    offsetOf i (s.map (c * ·)) = c * offsetOf i s := by
  induction i generalizing s with
  | nil => simp
  | cons x i ih => cases s <;> simp [ih]; ring

/-- Column-major offsets read an index tuple with its first axis least significant. -/
theorem offsetOf_colMajor_cons (x d : Nat) (i dim : List Nat) :
    offsetOf (x :: i) (colMajor 1 (d :: dim)) = x + d * offsetOf i (colMajor 1 dim) := by
  simp [colMajor, colMajor_eq_map d, offsetOf_map_mul]

theorem colMajor_nonneg (acc : Nat) (dim : List Nat) : ∀ t ∈ colMajor acc dim, 0 ≤ t := by
  induction dim generalizing acc with
  | nil => simp [colMajor]
  | cons d dim ih => simpa [colMajor] using ih _

theorem offsetOf_colMajor_lt {i dim : List Nat} (hi : i ∈ indices dim) :
    offsetOf i (colMajor 1 dim) < dimSize dim := by
  induction hi with
  | nil => simp
  | @cons x d i dim hx hi ih =>
    have hx' : (x : Int) + 1 ≤ d := by exact_mod_cast hx
    rw [offsetOf_colMajor_cons, dimSize_cons, Nat.cast_mul]
    linarith [mul_le_mul_of_nonneg_left (Int.add_one_le_of_lt ih) (Int.ofNat_nonneg d)]

theorem offsetOf_colMajor_inj {i j dim : List Nat} (hi : i ∈ indices dim) (hj : j ∈ indices dim)
    (h : offsetOf i (colMajor 1 dim) = offsetOf j (colMajor 1 dim)) : i = j := by
  induction hi generalizing j with
  | nil => exact (mem_indices_nil_iff.mp hj).symm
  | @cons x d i dim hx hi ih =>
    obtain ⟨y, j, hy, hj', rfl⟩ := mem_indices_cons_iff.mp hj
    rw [offsetOf_colMajor_cons, offsetOf_colMajor_cons] at h
    obtain ⟨hij, hxy⟩ := radix_inj (x := offsetOf i (colMajor 1 dim)) (y := offsetOf j (colMajor 1 dim))
      (P := d) (Int.ofNat_nonneg x) (by exact_mod_cast hx) (Int.ofNat_nonneg y) (by exact_mod_cast hy) (by linarith)
    rw [Nat.cast_inj.mp hxy, ih hj' hij]

theorem exists_offsetOf_colMajor {dim : List Nat} {n : Nat} (hn : n < dimSize dim) :
    ∃ i ∈ indices dim, offsetOf i (colMajor 1 dim) = n := by
  induction dim generalizing n with
  | nil => exact ⟨[], List.Forall₂.nil, by simp_all⟩
  | cons d dim ih =>
    rw [dimSize_cons] at hn
    have hd : 0 < d := Nat.pos_of_ne_zero (by rintro rfl; simp at hn)
    obtain ⟨i, hi, ho⟩ := ih (Nat.div_lt_of_lt_mul hn)
    refine ⟨n % d :: i, List.Forall₂.cons (Nat.mod_lt n hd) hi, ?_⟩
    rw [offsetOf_colMajor_cons, ho]
    exact_mod_cast Nat.mod_add_div n d

theorem contiguous_colMajor {dim : List Nat} (h : 0 ∉ dim) : Contiguous dim (colMajor 1 dim) where
  nonneg := colMajor_nonneg 1 dim
  last_lt := (offsetOf_colMajor_lt (lastIndex_mem_indices h)).trans_le (by exact_mod_cast le_max_left _ _)
  inj _ hi _ hj := offsetOf_colMajor_inj hi hj
  surj _ hn := exists_offsetOf_colMajor hn

end ColMajor

theorem contiguous_defaultStrides (dim : List Nat) : Contiguous dim (defaultStrides dim) := by
  unfold defaultStrides
  split
  · exact contiguous_zeros ‹_›
  · exact contiguous_rowMajor ‹_›

theorem contiguous_fortranStrides (dim : List Nat) : Contiguous dim (fortranStrides dim) := by
  unfold fortranStrides
  split
  · exact contiguous_zeros ‹_›
  · exact contiguous_colMajor ‹_›

/-! ### Views with contiguous strides -/

/-- An element at a later offset starts no earlier than the end of this one. -/
theorem mul_size_add_le {o o' : Int} (h : o < o') (e : Nat) : o * e + e ≤ o' * e := by
  linarith [mul_le_mul_of_nonneg_right (Int.add_one_le_of_lt h) (Int.ofNat_nonneg e)]

namespace Contiguous

variable {R : RawViewRepr} {A : Layout}

theorem maxOffset_lt {v : ArrayBase R} (hc : Contiguous v.dim v.strides) :
    v.maxOffset < (max v.len 1 : Nat) := hc.last_lt

theorem offsetOf_lt {v : ArrayBase R} (hc : Contiguous v.dim v.strides) {i : List Nat}
    (hi : i ∈ indices v.dim) : offsetOf i v.strides < v.len := by
  have hne : v.len ≠ 0 := fun h => not_mem_of_mem_indices hi ((v.len_eq_zero_iff).mp h)
  have hle := offsetOf_mono (le_lastIndex (movement_of_mem_indices hi)) hc.nonneg
  have hM := hc.maxOffset_lt
  rw [max_eq_left (Nat.one_le_iff_ne_zero.mpr hne)] at hM
  exact hle.trans_lt hM

/-- Over an allocation of exactly `len()` elements that fits in `isize`, a view with
contiguous strides is valid. -/
theorem valid {v : ArrayBase R} (hc : Contiguous v.dim v.strides)
    (hsize : (sizeNonzero v.dim : Int) ≤ isizeMax) (hbytes : (v.len * A.size : Int) ≤ isizeMax) :
    Valid A v.ptr (v.ptr + v.len * A.size) v := by
  have hM0 : 0 ≤ v.maxOffset := offsetOf_nonneg hc.nonneg _
  have hlen : (v.len : Int) ≤ sizeNonzero v.dim := by exact_mod_cast dimSize_le_sizeNonzero v.dim
  have he : (0 : Int) ≤ A.size := Int.ofNat_nonneg _
  have hM := hc.maxOffset_lt
  rw [valid_iff_bounds]
  rcases Nat.eq_zero_or_pos v.len with h0 | hpos
  · have hz : v.maxOffset = 0 := by rw [h0] at hM; simp at hM; omega
    have hempty : v.isEmpty = true := by simp [ArrayBase.isEmpty, h0]
    refine ⟨hc.nonneg, ?_, ?_, hsize, le_refl _, ?_, by simp [hempty]⟩ <;> simp [hz, h0, isizeMax]
  · rw [max_eq_left hpos] at hM
    have hMe := mul_size_add_le hM A.size
    refine ⟨hc.nonneg, by linarith, by linarith, hsize, le_refl _, by linarith, fun _ => by linarith⟩

/-- No two elements of a view with contiguous strides share a byte: their offsets
differ by at least one element. -/
theorem nonAliasing {v : RawArrayViewMut} (hc : Contiguous v.dim v.strides) :
    (Live.mk A v).NonAliasing := by
  rintro i j b ⟨hi, hib, hib'⟩ ⟨hj, hjb, hjb'⟩
  simp only [ArrayBase.addr, offset] at hib hib' hjb hjb'
  refine hc.inj i hi j hj (le_antisymm (not_lt.mp fun h => ?_) (not_lt.mp fun h => ?_))
  · linarith [mul_size_add_le h A.size]
  · linarith [mul_size_add_le h A.size]

/-- The bytes of a view with contiguous strides are the `len()` elements from its pointer. -/
theorem owns_iff {v : RawArrayViewMut} (hc : Contiguous v.dim v.strides) (b : Int) :
    (Live.mk A v).Owns b ↔ v.ptr ≤ b ∧ b < v.ptr + v.len * A.size := by
  constructor
  · rintro ⟨i, hi, h1, h2⟩
    have h0 := offsetOf_nonneg hc.nonneg i
    have hlt := mul_size_add_le (hc.offsetOf_lt hi) A.size
    simp only [ArrayBase.addr, offset] at h1 h2
    constructor <;> linarith [mul_nonneg h0 (Int.ofNat_nonneg A.size)]
  · rintro ⟨h1, h2⟩
    have he : (0 : Int) < A.size := by
      rcases Nat.eq_zero_or_pos A.size with h | h
      · simp [h] at h2; omega
      · exact_mod_cast h
    have hn0 : 0 ≤ (b - v.ptr) / A.size := Int.ediv_nonneg (by linarith) he.le
    have hnl : (b - v.ptr) / A.size < v.len := Int.ediv_lt_of_lt_mul he (by linarith)
    obtain ⟨i, hi, ho⟩ := hc.surj ((b - v.ptr) / A.size).toNat
      (by rw [← Int.ofNat_lt, Int.toNat_of_nonneg hn0]; exact hnl)
    have hlo := Int.ediv_mul_le (b - v.ptr) he.ne'
    have hhi := Int.lt_ediv_add_one_mul_self (b - v.ptr) he
    refine ⟨i, hi, ?_, ?_⟩ <;> simp only [ArrayBase.addr, offset, ho, Int.toNat_of_nonneg hn0] <;> linarith

end Contiguous

/-! ### `from_shape_ptr` -/

section FromShapePtr

variable {R : RawViewRepr} {debug : Bool} {A : Layout} {shape : StrideShape} {ptr : Int}

/-- Default strides number the elements one after another. -/
theorem fromShapePtr_contiguous {v : ArrayBase R} (hs : shape.strides = .c ∨ shape.strides = .f)
    (h : ArrayBase.fromShapePtr debug A shape ptr = .ok v) :
    Contiguous v.dim v.strides ∧ v.ptr = ptr ∧ v.dim = shape.dim := by
  obtain ⟨-, hp, hd, hst⟩ := ArrayBase.fromShapePtr_eq_ok.mp h
  refine ⟨?_, hp, hd⟩
  rw [hst, hd]
  rcases hs with hs | hs <;> rw [hs]
  · exact contiguous_defaultStrides _
  · exact contiguous_fortranStrides _

/-- With default strides, the product of the non-zero extents fits in `isize`: a debug
build asserts it, and a release build has it from the caller. -/
theorem fromShapePtr_size {v : ArrayBase R} (hs : shape.strides = .c ∨ shape.strides = .f)
    (h : ArrayBase.fromShapePtr debug A shape ptr = .ok v)
    (hsize : debug = true ∨ (sizeNonzero shape.dim : Int) ≤ isizeMax) :
    (sizeNonzero v.dim : Int) ≤ isizeMax := by
  obtain ⟨hc, -, hd, -⟩ := ArrayBase.fromShapePtr_eq_ok.mp h
  rw [hd]
  rcases hsize with hdbg | hsize
  · exact ((fromShapePtrChecks_default hs).mp (hc hdbg)).2
  · exact hsize

/-- **The debug assertions on given strides.** In a debug build, `from_shape_ptr` with
strides the caller gives returns exactly when the pointer is non-null, the strides are
non-negative, the product of the non-zero extents fits in `isize`, and so does the
farthest movement, in elements and in bytes: every condition of `Valid` but the two on
the allocation, which stay the caller's. The `usize` folds of the assertions never fail
on a value within `isize`. The view keeps the pointer, dimension and strides. -/
theorem fromShapePtr_custom_debug (A : Layout) (shape : StrideShape) (s : List Int)
    (hs : shape.strides = .custom s) (ptr : Int) (v : ArrayBase R) :
    ArrayBase.fromShapePtr true A shape ptr = .ok v ↔
      ptr ≠ 0 ∧ v.ptr = ptr ∧ v.dim = shape.dim ∧ v.strides = s ∧ (∀ t ∈ v.strides, 0 ≤ t) ∧
        (sizeNonzero v.dim : Int) ≤ isizeMax ∧ v.maxOffset ≤ isizeMax ∧ v.maxOffset * A.size ≤ isizeMax := by
  have habs : ∀ {t : List Int}, (∀ x ∈ t, 0 ≤ x) → t.map abs = t := fun ht =>
    (List.map_congr_left fun x hx => abs_of_nonneg (ht x hx)).trans (List.map_id _)
  rw [ArrayBase.fromShapePtr_eq_ok, fromShapePtrChecks_custom hs, hs]
  simp only [Strides.stridesForDim, ArrayBase.maxOffset, forall_const]
  constructor
  · rintro ⟨⟨hp, hn, hz, hM, hMe⟩, rfl, hd, rfl⟩
    rw [habs hn] at hM hMe
    exact ⟨hp, rfl, hd, rfl, hn, hd ▸ hz, hd ▸ hM, hd ▸ hMe⟩
  · rintro ⟨hp, rfl, hd, rfl, hn, hz, hM, hMe⟩
    rw [← hd, habs hn]
    exact ⟨⟨hp, hn, hz, hM, hMe⟩, rfl, rfl, rfl⟩

/-- Two rows of three words, with the row-major strides given. -/
def rowsShape : StrideShape := ⟨[2, 3], .custom [3, 1], fun _ h => by cases h; rfl⟩

theorem fromShapePtr_custom_debug_rows :
    rowsShape.strides = .custom [3, 1] ∧ ArrayBase.fromShapePtr true word rowsShape 4096 = .ok rows :=
  ⟨rfl, (fromShapePtr_custom_debug word rowsShape [3, 1] rfl 4096 rows).mpr
    ⟨by decide, rfl, rfl, rfl, by decide, by decide, by decide, by decide⟩⟩

/-- **Building a view over an allocation.** A mutable view that `from_shape_ptr` builds
with default strides, row-major or column-major, over an allocation of exactly its
`len()` elements, in either build, is valid for the allocation, no two of its elements
share a byte, and together they own exactly the allocation's bytes. -/
theorem fromShapePtr_default (debug : Bool) (A : Layout) (shape : StrideShape)
    (hs : shape.strides = .c ∨ shape.strides = .f) (ptr : Int) (v : RawArrayViewMut)
    (h : RawArrayViewMut.fromShapePtr debug A shape ptr = .ok v)
    (hsize : debug = true ∨ (sizeNonzero shape.dim : Int) ≤ isizeMax)
    (hbytes : (dimSize shape.dim * A.size : Int) ≤ isizeMax) :
    Valid A ptr (ptr + dimSize shape.dim * A.size) v ∧ (Live.mk A v).NonAliasing ∧
      ∀ b, (Live.mk A v).Owns b ↔ ptr ≤ b ∧ b < ptr + dimSize shape.dim * A.size := by
  obtain ⟨hc, rfl, hd⟩ := fromShapePtr_contiguous hs h
  have hsz := fromShapePtr_size hs h hsize
  have hlen : v.len = dimSize shape.dim := by rw [ArrayBase.len, hd]
  rw [← hlen] at hbytes ⊢
  exact ⟨hc.valid hsz hbytes, hc.nonAliasing, hc.owns_iff⟩

/-- Two words in a row, with default strides. -/
def pairShape : StrideShape := ⟨[2], .c, fun _ h => by cases h⟩

theorem fromShapePtr_default_pair :
    RawArrayViewMut.fromShapePtr true word pairShape 4096 = .ok twoWords.view ∧
      Valid word 4096 (4096 + dimSize pairShape.dim * word.size) twoWords.view ∧
      (Live.mk word twoWords.view).NonAliasing ∧
      ∀ b, (Live.mk word twoWords.view).Owns b ↔ 4096 ≤ b ∧ b < 4096 + dimSize pairShape.dim * word.size :=
  have h : RawArrayViewMut.fromShapePtr true word pairShape 4096 = .ok twoWords.view := rfl
  ⟨h, fromShapePtr_default true word pairShape (.inl rfl) 4096 twoWords.view h (.inl rfl) (by decide)⟩

/-- **Runs from an allocation.** From a mutable view that `from_shape_ptr` builds with
default strides over an allocation of exactly its `len()` elements, after any run of
`split_at`, `split_complex` and `cast`, every live view is valid for the allocation,
no two elements of live views share a byte, and together the live views own exactly
the allocation's bytes. -/
theorem runs_from_allocation (debug : Bool) (A : Layout) (shape : StrideShape)
    (hs : shape.strides = .c ∨ shape.strides = .f) (ptr : Int) (v : RawArrayViewMut)
    (h : RawArrayViewMut.fromShapePtr debug A shape ptr = .ok v)
    (hsize : debug = true ∨ (sizeNonzero shape.dim : Int) ≤ isizeMax)
    (hbytes : (dimSize shape.dim * A.size : Int) ≤ isizeMax) (S : List Live) (hS : Reachable ⟨A, v⟩ S) :
    (∀ w ∈ S, Valid w.elem ptr (ptr + dimSize shape.dim * A.size) w.view) ∧
      (∀ w ∈ S, w.NonAliasing) ∧ S.Pairwise Live.Disjoint ∧
        ∀ b, (∃ w ∈ S, w.Owns b) ↔ ptr ≤ b ∧ b < ptr + dimSize shape.dim * A.size := by
  obtain ⟨hc, rfl, hd⟩ := fromShapePtr_contiguous hs h
  have hsz := fromShapePtr_size hs h hsize
  have hlen : v.len = dimSize shape.dim := by rw [ArrayBase.len, hd]
  rw [← hlen] at hbytes ⊢
  have hinv := hS.inv (hc.valid hsz hbytes) (hc.nonAliasing (A := A))
  exact ⟨hinv.valid, hinv.nonAliasing, hinv.disjoint, fun b => (hinv.cover b).trans (hc.owns_iff b)⟩

theorem runs_from_allocation_halves :
    Reachable (Live.mk word twoWords.view) twoHalves ∧
      (∀ w ∈ twoHalves, Valid w.elem 4096 (4096 + dimSize pairShape.dim * word.size) w.view) ∧
      (∀ w ∈ twoHalves, w.NonAliasing) ∧ twoHalves.Pairwise Live.Disjoint ∧
      ∀ b, (∃ w ∈ twoHalves, w.Owns b) ↔ 4096 ≤ b ∧ b < 4096 + dimSize pairShape.dim * word.size :=
  have hS : Reachable (Live.mk word twoWords.view) twoHalves :=
    .step .init (.mk [] [] (@Op.splitAt twoWords 0 1 _ _ rfl))
  ⟨hS, runs_from_allocation true word pairShape (.inl rfl) 4096 twoWords.view rfl (.inl rfl) (by decide)
    twoHalves hS⟩

end FromShapePtr

/-! ### Promotion -/

/-- `ArrayView<'a, A, D>` (`mutable = false`) or `ArrayViewMut<'a, A, D>`: a view bound
to a lifetime, through which elements are read, or also written. The lifetime is the
caller's choice and is not modelled. -/
structure ArrayView (mutable : Bool) where
  ptr : Int
  dim : List Nat
  strides : List Int
  strides_length : strides.length = dim.length
  deriving DecidableEq

/-- Modelled from the spec: `is_aligned` (not under src/), the address is a multiple of
the alignment. -/
def isAligned (A : Layout) (ptr : Int) : Bool := ptr % A.align == 0

/-- `deref_into_view` and `deref_into_view_mut` (`mutable`), which have one body: a
debug assertion that the pointer is aligned, then `new` of the checked view with the
same pointer, dimension and strides. -/
def ArrayBase.derefInto {R : RawViewRepr} (mutable debug : Bool) (A : Layout) (v : ArrayBase R) :
    Except Fault (ArrayView mutable) :=
  if debug && !isAligned A v.ptr then .error (.panic "The pointer must be aligned.")
  else .ok ⟨v.ptr, v.dim, v.strides, v.strides_length⟩

/-- `RawArrayView::deref_into_view`. -/
def RawArrayView.derefIntoView (debug : Bool) (A : Layout) (v : RawArrayView) :
    Except Fault (ArrayView false) :=
  v.derefInto false debug A

/-- `RawArrayViewMut::deref_into_view`. -/
def RawArrayViewMut.derefIntoView (debug : Bool) (A : Layout) (v : RawArrayViewMut) :
    Except Fault (ArrayView false) :=
  v.derefInto false debug A

/-- `RawArrayViewMut::deref_into_view_mut`. -/
def RawArrayViewMut.derefIntoViewMut (debug : Bool) (A : Layout) (v : RawArrayViewMut) :
    Except Fault (ArrayView true) :=
  v.derefInto true debug A

/-- Promotion hands back the pointer, dimension and strides; only a debug build
refuses, and only a misaligned pointer. -/
theorem ArrayBase.derefInto_eq_ok {R : RawViewRepr} {mutable debug : Bool} {A : Layout}
    {v : ArrayBase R} {w : ArrayView mutable} :
    v.derefInto mutable debug A = .ok w ↔ (debug = true → isAligned A v.ptr = true) ∧
      w.ptr = v.ptr ∧ w.dim = v.dim ∧ w.strides = v.strides := by
  rcases w with ⟨p, d, s, hs⟩
  unfold derefInto
  cases debug <;> cases isAligned A v.ptr <;> simp [eq_comm, and_assoc]

theorem derefInto_of_aligned {R : RawViewRepr} {mutable debug : Bool} {A : Layout} {v : ArrayBase R}
    (h : isAligned A v.ptr = true) : ∃ w, v.derefInto mutable debug A = .ok w :=
  ⟨⟨v.ptr, v.dim, v.strides, v.strides_length⟩, by simp [ArrayBase.derefInto, h]⟩

theorem isAligned_iff {A : Layout} {p : Int} : isAligned A p = true ↔ (A.align : Int) ∣ p := by
  simp only [isAligned, beq_iff_eq, Int.dvd_iff_emod_eq_zero]

/-- A pointer moved by whole elements stays aligned when the element's size is a
multiple of its alignment. -/
theorem isAligned_offset {A : Layout} (hA : A.align ∣ A.size) {p : Int} (hp : isAligned A p = true)
    (n : Int) : isAligned A (p + n * A.size) = true := by
  rw [isAligned_iff] at hp ⊢
  exact dvd_add hp ((Int.natCast_dvd_natCast.mpr hA).mul_left n)

/-- Both halves of `split_at` start a whole number of elements from the view's pointer. -/
theorem RawArrayView.splitAt_ptr {A : Layout} {v l r : RawArrayView} {axis index : Nat}
    (h : v.splitAt A axis index = .ok (l, r)) : l.ptr = v.ptr ∧ ∃ n, r.ptr = v.ptr + n * A.size := by
  by_cases ha : axis < v.dim.length
  · rcases lt_trichotomy index (v.dim.getD axis 0) with hk | hk | hk
    · rw [v.splitAt_of_index_lt A ha hk] at h
      cases hs : strideOffset index (v.strides.getD axis 0) <;>
        simp only [hs, Except.map, reduceCtorEq, Except.ok.injEq, Prod.mk.injEq] at h
      obtain ⟨rfl, rfl⟩ := h
      exact ⟨rfl, _, rfl⟩
    · rw [v.splitAt_of_index_eq A ha hk] at h
      obtain ⟨rfl, rfl⟩ := Prod.mk.inj (Except.ok.inj h)
      exact ⟨rfl, 0, by simp [offset]⟩
    · rw [v.splitAt_of_index_gt A ha hk] at h
      cases h
  · rw [v.splitAt_of_axis_ge A (by omega)] at h
    cases h

theorem RawArrayViewMut.splitAt_ptr {A : Layout} {v l r : RawArrayViewMut} {axis index : Nat}
    (h : v.splitAt A axis index = .ok (l, r)) : l.ptr = v.ptr ∧ ∃ n, r.ptr = v.ptr + n * A.size := by
  rw [splitAt_eq] at h
  cases hr : v.intoRawView.splitAt A axis index with
  | error e => rw [hr] at h; cases h
  | ok lr =>
    rw [hr] at h
    obtain ⟨rfl, rfl⟩ := Prod.mk.inj (Except.ok.inj h)
    exact RawArrayView.splitAt_ptr hr

/-- **Promotion after a split.** In a debug build, promoting either half of `split_at`,
or either component of `split_complex`, of a mutable view whose pointer is aligned does
not panic, for element types whose size is a multiple of their alignment, as every Rust
type's is. -/
theorem derefInto_after_split (mutable : Bool) :
    (∀ (A : Layout) (v l r : RawArrayViewMut) (axis index : Nat), A.align ∣ A.size →
      isAligned A v.ptr = true → v.splitAt A axis index = .ok (l, r) →
      (∃ w, l.derefInto mutable true A = .ok w) ∧ ∃ w, r.derefInto mutable true A = .ok w) ∧
    (∀ (C T : Layout) (v : RawArrayViewMut) (c : Complex RawArrayViewMut), T.align ∣ T.size →
      isAligned C v.ptr = true → v.splitComplex C T = .ok c →
      (∃ w, c.re.derefInto mutable true T = .ok w) ∧ ∃ w, c.im.derefInto mutable true T = .ok w) := by
  refine ⟨fun A v l r axis index hA hv h => ?_, fun C T v c hT hv h => ?_⟩
  · obtain ⟨hl, n, hr⟩ := RawArrayViewMut.splitAt_ptr h
    exact ⟨derefInto_of_aligned (hl ▸ hv), derefInto_of_aligned (hr ▸ isAligned_offset hA hv n)⟩
  · obtain ⟨hC, hp⟩ := RawArrayViewMut.splitComplex_ok h
    have hvT : isAligned T v.ptr = true := by simpa [isAligned, hC.2] using hv
    refine ⟨derefInto_of_aligned (hp.re_ptr ▸ hvT), derefInto_of_aligned ?_⟩
    rw [hp.im_ptr]
    split
    · exact hvT
    · simpa using isAligned_offset hT hvT 1

theorem derefInto_after_split_pairs :
    word.align ∣ word.size ∧ isAligned complexWord 4096 = true ∧
      (∃ w, (⟨4096, [4], [2], rfl⟩ : RawArrayViewMut).derefInto true true word = .ok w) ∧
      ∃ w, (⟨4100, [4], [2], rfl⟩ : RawArrayViewMut).derefInto true true word = .ok w :=
  ⟨by decide, by decide, (derefInto_after_split true).2 complexWord word (pairs.withRepr .mut)
    ⟨⟨4096, [4], [2], rfl⟩, ⟨4100, [4], [2], rfl⟩⟩ (by decide) (by decide) rfl⟩

end RawViews
