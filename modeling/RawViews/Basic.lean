import Mathlib.Algebra.Order.Group.Abs
import Mathlib.Algebra.Order.Ring.Int

/-! Raw array views of `ndarray`, as descriptors.

A raw view (`impl_raw_views.rs`) is a pointer, a dimension and strides. It owns
nothing and never reads through its pointer, so it is modelled as the three values
alone: the pointer is a byte address, an extent is a `usize`, and a stride is the
`isize` reading of the `usize` the dimension type stores for it. Element types
enter only through their `Layout`, as `mem::size_of` and `mem::align_of` enter the
monomorphised code.

Arithmetic that the code does on `isize` is checked, as in a build with overflow
checks: a result outside `isize` is a panic. Where no check fails, a release build
computes the same values. -/
namespace RawViews

/-! ### Machine integers -/

/-- `isize::MAX` on the 64-bit targets the stubs are built for. -/
def isizeMax : Int := 2 ^ 63 - 1

/-- `isize::MIN`. -/
def isizeMin : Int := -2 ^ 63

/-- `usize::MAX`. -/
def usizeMax : Nat := 2 ^ 64 - 1

/-- How a call ends without a value: a panic and its message. -/
inductive Fault where
  | panic (msg : String)
  deriving DecidableEq, Repr

/-- `n as isize`: the two's complement reading of a `usize`. -/
def asIsize (n : Nat) : Int :=
  if n % 2 ^ 64 < 2 ^ 63 then (n % 2 ^ 64 : Nat) else (n % 2 ^ 64 : Nat) - 2 ^ 64

/-- `a * b` on `isize`, which panics on overflow. -/
def isizeMul (a b : Int) : Except Fault Int :=
  if isizeMin ≤ a * b ∧ a * b ≤ isizeMax then .ok (a * b)
  else .error (.panic "attempt to multiply with overflow")

/-- The result of a checked operation on `usize`: `None` past `usize::MAX`. -/
def usizeChecked (n : Nat) : Option Nat := if n ≤ usizeMax then some n else none

/-- `a.checked_mul(b)` on `usize`. -/
def usizeCheckedMul (a b : Nat) : Option Nat := usizeChecked (a * b)

/-- `a.checked_add(b)` on `usize`. -/
def usizeCheckedAdd (a b : Nat) : Option Nat := usizeChecked (a + b)

/-- The panic of a failed `assert_eq!(left, right)` on two `usize` values, as the
standard library prints it; `msg` is `": "` and the call's own message, or empty. -/
def assertEqFailed (msg : String) (left right : Nat) : Fault :=
  .panic ("assertion `left == right` failed" ++ msg ++ "\n  left: " ++ toString left ++
    "\n right: " ++ toString right)

/-- The panic of indexing a sequence of length `len` at `index`, past its end. -/
def indexOutOfBounds (len index : Nat) : Fault :=
  .panic ("index out of bounds: the len is " ++ toString len ++ " but the index is " ++ toString index)

@[simp] theorem usizeChecked_eq_some {n m : Nat} : usizeChecked n = some m ↔ n ≤ usizeMax ∧ n = m := by
  unfold usizeChecked; split <;> simp_all

@[simp] theorem usizeChecked_eq_none {n : Nat} : usizeChecked n = none ↔ usizeMax < n := by
  unfold usizeChecked; split <;> simp_all

/-- A computation in `Except` that returns went through each of its steps. -/
theorem bind_eq_ok {ε α β : Type} {x : Except ε α} {f : α → Except ε β} {b : β} :
    x >>= f = .ok b ↔ ∃ a, x = .ok a ∧ f a = .ok b := by
  cases x <;> simp [bind, Except.bind]

theorem asIsize_of_le {n : Nat} (h : (n : Int) ≤ isizeMax) : asIsize n = n := by
  have hn : n < 2 ^ 63 := by unfold isizeMax at h; omega
  have hmod : n % 2 ^ 64 = n := Nat.mod_eq_of_lt (by omega)
  rw [asIsize, hmod, if_pos hn]

theorem isizeMul_of_abs_le {a b : Int} (h : |a * b| ≤ isizeMax) : isizeMul a b = .ok (a * b) := by
  rw [abs_le] at h
  unfold isizeMul isizeMax isizeMin at *
  rw [if_pos (by omega)]

theorem isizeMul_eq_ok {a b c : Int} (h : isizeMul a b = .ok c) : c = a * b := by
  unfold isizeMul at h
  split at h <;> cases h
  rfl

/-! ### Element types -/

/-- What the code reads of an element type: `mem::size_of` and `mem::align_of`.
Rust bounds the size of every type by `isize::MAX`. -/
structure Layout where
  size : Nat
  align : Nat
  size_le : (size : Int) ≤ isizeMax

/-- `C` is the layout of `Complex<T>`: `repr(C)` with the two fields `re: T` and
`im: T`, so twice the size of `T` and its alignment. -/
def Layout.IsComplexOf (C T : Layout) : Prop := C.size = 2 * T.size ∧ C.align = T.align

/-- `num_complex::Complex`, here only as the pair that `split_complex` returns. -/
structure Complex (α : Type) where
  re : α
  im : α

/-- `ptr.offset(count)` (and `ptr.add(count)`) on a pointer to `A`: `count`
elements of `A` further on. The call requires `count * size_of::<A>()` to fit in
`isize` and the result to stay in the allocation; nothing checks either. -/
def offset (A : Layout) (ptr count : Int) : Int := ptr + count * A.size

/-! ### Raw views -/

/-- Modelled from the spec: `Dimension::size()` (not under src/), the product of the
extents as it folds them. -/
def dimSize (dim : List Nat) : Nat := dim.foldl (· * ·) 1

/-- The two raw representations: `RawViewRepr<*const A>` and `RawViewRepr<*mut A>`. -/
inductive RawViewRepr where
  | const
  | mut
  deriving DecidableEq, Repr

/-- `ArrayBase<RawViewRepr<_>, D>`. Dimension and strides are of the one type `D`,
so they have the same number of axes. -/
structure ArrayBase (R : RawViewRepr) where
  ptr : Int
  dim : List Nat
  strides : List Int
  strides_length : strides.length = dim.length
  deriving DecidableEq

abbrev RawArrayView := ArrayBase .const

abbrev RawArrayViewMut := ArrayBase .mut

namespace ArrayBase

variable {R : RawViewRepr}

/-- `new(ptr, dim, strides)` of the other representation, from a view's fields. -/
def withRepr (v : ArrayBase R) (S : RawViewRepr) : ArrayBase S :=
  ⟨v.ptr, v.dim, v.strides, v.strides_length⟩

@[simp] theorem withRepr_ptr (v : ArrayBase R) (S) : (v.withRepr S).ptr = v.ptr := rfl
@[simp] theorem withRepr_dim (v : ArrayBase R) (S) : (v.withRepr S).dim = v.dim := rfl
@[simp] theorem withRepr_strides (v : ArrayBase R) (S) : (v.withRepr S).strides = v.strides := rfl

theorem ext_fields {v w : ArrayBase R} (hp : v.ptr = w.ptr) (hd : v.dim = w.dim)
    (hs : v.strides = w.strides) : v = w := by
  cases v; cases w; simp_all

/-- Modelled from the spec: `len_of(axis)` (ndarray's `impl_methods.rs`, not under
src/) is `self.dim[axis]`, the extent of `axis`; an axis past the last one panics as
indexing does, with the number of axes and the axis. -/
def lenOf (v : ArrayBase R) (axis : Nat) : Except Fault Nat :=
  match v.dim[axis]? with
  | some n => .ok n
  | none => .error (indexOutOfBounds v.dim.length axis)

/-- Modelled from the spec: `len()`, the number of elements, `self.dim.size()`. -/
def len (v : ArrayBase R) : Nat := dimSize v.dim

/-- Modelled from the spec: `is_empty()`, the view addresses no element. -/
def isEmpty (v : ArrayBase R) : Bool := v.len == 0

theorem lenOf_of_lt (v : ArrayBase R) {axis : Nat} (h : axis < v.dim.length) :
    v.lenOf axis = .ok v.dim[axis] := by
  simp [lenOf, h]

theorem lenOf_of_le (v : ArrayBase R) {axis : Nat} (h : v.dim.length ≤ axis) :
    v.lenOf axis = .error (indexOutOfBounds v.dim.length axis) := by
  simp [lenOf, List.getElem?_eq_none h]

end ArrayBase

/-- `RawArrayViewMut::into_raw_view`. -/
def RawArrayViewMut.intoRawView (v : RawArrayViewMut) : RawArrayView := v.withRepr .const

/-- Modelled from the spec: `dimension::stride_offset` (not under src/), the offset
`index * stride` in elements of the right half of a split, as the `isize` product
`(n as isize) * (stride as isize)`. -/
def strideOffset (n : Nat) (stride : Int) : Except Fault Int := isizeMul (asIsize n) stride

/-! ### `cast` -/

/-- `RawArrayView::cast::<B>` and `RawArrayViewMut::cast::<B>`, which have one body:
the sizes must agree, and the pointer, dimension and strides are kept. -/
def ArrayBase.cast {R : RawViewRepr} (A B : Layout) (v : ArrayBase R) : Except Fault (ArrayBase R) :=
  if B.size = A.size then .ok ⟨v.ptr, v.dim, v.strides, v.strides_length⟩
  else .error (assertEqFailed ": size mismatch in raw view cast" B.size A.size)

/-- `RawArrayView::cast`. -/
def RawArrayView.cast (A B : Layout) (v : RawArrayView) : Except Fault RawArrayView :=
  ArrayBase.cast A B v

/-- `RawArrayViewMut::cast`. -/
def RawArrayViewMut.cast (A B : Layout) (v : RawArrayViewMut) : Except Fault RawArrayViewMut :=
  ArrayBase.cast A B v

theorem ArrayBase.cast_eq_ok_iff {R : RawViewRepr} (A B : Layout) (v w : ArrayBase R) :
    v.cast A B = .ok w ↔ B.size = A.size ∧ w = v := by
  cases v
  unfold ArrayBase.cast
  split <;> simp_all [eq_comm]

end RawViews
