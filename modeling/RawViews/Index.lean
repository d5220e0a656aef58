import RawViews.Basic
import Mathlib.Data.List.Forall2
import Mathlib.Data.List.GetD
import Mathlib.Data.Set.Defs
import Mathlib.Algebra.Order.Ring.Abs
import Mathlib.Tactic.Linarith
import Mathlib.Tactic.Ring

/-! What a raw view addresses.

Element `i` of a view, an index tuple with one index per axis below that axis's
extent, lies `offsetOf i strides` elements past the pointer. The safety contract of
`from_shape_ptr` speaks of a larger set of tuples, the pointers "generated by
moving along all axes": an axis of extent zero still has the index 0 to move to,
so a movement index is below `max(dim[b], 1)` (`movementDim`).

The lemmas here are about lists alone; `SplitAt`, `SplitComplex` and `Valid` use
them to move between a view's tuples and its halves'. -/
namespace RawViews

/-- The index tuples of `dim`: one index per axis, below the axis's extent. -/
def indices (dim : List Nat) : Set (List Nat) := {i | List.Forall₂ (· < ·) i dim}

/-- `Σ_b i[b] * s[b]`, the offset of index `i` in elements. -/
def offsetOf : List Nat → List Int → Int
  | x :: i, s :: ss => x * s + offsetOf i ss
  | _, _ => 0

/-- The extents a pointer moves along: an axis of extent zero keeps the index 0. -/
def movementDim (dim : List Nat) : List Nat := dim.map (max · 1)

/-- The farthest movement, `max(dim[b], 1) - 1` on every axis. -/
def lastIndex (dim : List Nat) : List Nat := dim.map (· - 1)

namespace ArrayBase

variable {R : RawViewRepr}

/-- Byte address of element `i` of `v`, for elements of layout `A`. -/
def addr (A : Layout) (v : ArrayBase R) (i : List Nat) : Int := v.ptr + offsetOf i v.strides * A.size

/-- `M = Σ_b (max(dim[b], 1) - 1) * s[b]`: the farthest movement, in elements. -/
def maxOffset (v : ArrayBase R) : Int := offsetOf (lastIndex v.dim) v.strides

/-- `M` with the magnitude of every stride. -/
def maxAbsOffset (v : ArrayBase R) : Int := offsetOf (lastIndex v.dim) (v.strides.map abs)

end ArrayBase

@[simp] theorem offsetOf_cons (x : Nat) (i : List Nat) (s : Int) (ss : List Int) :
    offsetOf (x :: i) (s :: ss) = x * s + offsetOf i ss := rfl

@[simp] theorem offsetOf_nil_left (ss : List Int) : offsetOf [] ss = 0 := rfl

@[simp] theorem offsetOf_nil_right (i : List Nat) : offsetOf i [] = 0 := by
  cases i <;> rfl

theorem mem_indices_nil_iff {i : List Nat} : i ∈ indices [] ↔ i = [] := List.forall₂_nil_right_iff

theorem mem_indices_cons_iff {i : List Nat} {d : Nat} {dim : List Nat} :
    i ∈ indices (d :: dim) ↔ ∃ x i', x < d ∧ i' ∈ indices dim ∧ i = x :: i' :=
  List.forall₂_cons_right_iff

/-- Every index tuple of `dim`, in row-major order. -/
def allIndices : List Nat → List (List Nat)
  | [] => [[]]
  | d :: dim => (List.range d).flatMap fun x => (allIndices dim).map (x :: ·)

theorem mem_allIndices {i dim : List Nat} : i ∈ allIndices dim ↔ i ∈ indices dim := by
  induction dim generalizing i with
  | nil => simp [allIndices, mem_indices_nil_iff]
  | cons d dim ih =>
    simp only [allIndices, List.mem_flatMap, List.mem_range, List.mem_map, ih, mem_indices_cons_iff]
    constructor
    · rintro ⟨x, hx, i', hi', rfl⟩
      exact ⟨x, i', hx, hi', rfl⟩
    · rintro ⟨x, i', hx, hi', rfl⟩
      exact ⟨x, hx, i', hi', rfl⟩

theorem length_of_mem_indices {i dim : List Nat} (h : i ∈ indices dim) : i.length = dim.length :=
  List.Forall₂.length_eq h

theorem foldl_mul_eq_zero_iff (l : List Nat) (a : Nat) : l.foldl (· * ·) a = 0 ↔ a = 0 ∨ 0 ∈ l := by
  induction l generalizing a with
  | nil => simp
  | cons x l ih => simp only [List.foldl_cons, ih, Nat.mul_eq_zero, List.mem_cons]; tauto

/-- A view is empty exactly when one of its extents is 0. -/
theorem ArrayBase.len_eq_zero_iff {R : RawViewRepr} (v : ArrayBase R) : v.len = 0 ↔ 0 ∈ v.dim := by
  simp [ArrayBase.len, dimSize, foldl_mul_eq_zero_iff]

theorem not_mem_of_mem_indices {i dim : List Nat} (hi : i ∈ indices dim) : 0 ∉ dim := by
  induction hi with
  | nil => simp
  | cons hx _ ih => simp only [List.mem_cons, not_or]; exact ⟨by omega, ih⟩

theorem ArrayBase.isEmpty_eq_false_iff {R : RawViewRepr} (v : ArrayBase R) :
    v.isEmpty = false ↔ 0 ∉ v.dim := by
  simp [ArrayBase.isEmpty, v.len_eq_zero_iff]

/-- A view that has an element is not empty. -/
theorem ArrayBase.isEmpty_eq_false {R : RawViewRepr} (v : ArrayBase R) {i : List Nat}
    (hi : i ∈ indices v.dim) : v.isEmpty = false := by
  simpa [ArrayBase.isEmpty, v.len_eq_zero_iff] using not_mem_of_mem_indices hi

/-- The product of the non-zero extents. -/
def sizeNonzero : List Nat → Nat
  | [] => 1
  | d :: dim => (if d = 0 then 1 else d) * sizeNonzero dim

theorem sizeNonzero_pos (dim : List Nat) : 0 < sizeNonzero dim := by
  induction dim with
  | nil => simp [sizeNonzero]
  | cons d dim ih =>
    simp only [sizeNonzero]
    split
    · omega
    · exact Nat.mul_pos (Nat.pos_of_ne_zero ‹_›) ih

/-! ### Setting one axis -/

section SetAxis

variable {α β : Type} {R : α → β → Prop}

theorem forall₂_set {l : List α} {d : List β} (h : List.Forall₂ R l d) (a : Nat) {x : α} {y : β}
    (hxy : R x y) : List.Forall₂ R (l.set a x) (d.set a y) := by
  induction h generalizing a with
  | nil => exact .nil
  | cons hr _ ih => cases a with
    | zero => exact .cons hxy ‹_›
    | succ a => exact .cons hr (ih a)

theorem getD_set_self {l : List α} {a : Nat} (ha : a < l.length) (x d : α) :
    (l.set a x).getD a d = x := by
  simp [ha]

theorem set_getD_self (l : List α) (a : Nat) (d : α) : l.set a (l.getD a d) = l := by
  induction l generalizing a with
  | nil => rfl
  | cons y l ih => cases a with
    | zero => rfl
    | succ a => simp only [List.set_cons_succ, List.getD_cons_succ, ih]

theorem set_set_getD (l : List α) (a : Nat) (x d : α) : (l.set a x).set a (l.getD a d) = l := by
  rw [List.set_set, set_getD_self]

theorem forall₂_getD {l : List α} {d : List β} (h : List.Forall₂ R l d) {a : Nat}
    (ha : a < d.length) (x₀ : α) (y₀ : β) : R (l.getD a x₀) (d.getD a y₀) := by
  induction h generalizing a with
  | nil => simp at ha
  | cons hr _ ih => cases a with
    | zero => exact hr
    | succ a => exact ih (by simpa using ha)

end SetAxis

theorem zero_mem_set {dim : List Nat} {a y : Nat} (h : 0 ∈ dim) (hy : y ≤ dim.getD a 0) :
    0 ∈ dim.set a y := by
  induction dim generalizing a with
  | nil => cases h
  | cons d dim ih =>
    cases a with
    | zero =>
      rcases List.mem_cons.mp h with h | h
      · exact List.mem_cons.mpr (.inl (by simp at hy; omega))
      · exact List.mem_cons_of_mem _ h
    | succ a =>
      rcases List.mem_cons.mp h with h | h
      · exact List.mem_cons.mpr (.inl h)
      · exact List.mem_cons_of_mem _ (ih h hy)

/-- Lowering one extent lowers the product of the non-zero extents. -/
theorem sizeNonzero_set_le {dim : List Nat} {a y : Nat} (hy : y ≤ dim.getD a 0) :
    sizeNonzero (dim.set a y) ≤ sizeNonzero dim := by
  induction dim generalizing a with
  | nil => simp [sizeNonzero]
  | cons d dim ih =>
    cases a with
    | zero =>
      simp only [List.set_cons_zero, sizeNonzero, List.getD_cons_zero] at hy ⊢
      apply Nat.mul_le_mul_right
      split_ifs <;> omega
    | succ a => exact Nat.mul_le_mul_left _ (ih hy)

theorem indices_mono {d d' : List Nat} (h : List.Forall₂ (· ≤ ·) d' d) : indices d' ⊆ indices d := by
  intro i hi
  induction h generalizing i with
  | nil => exact hi
  | cons hxy _ ih =>
    obtain ⟨x, i', hx, hi', rfl⟩ := mem_indices_cons_iff.mp hi
    exact .cons (by omega) (ih hi')

theorem getD_movementDim {dim : List Nat} {a : Nat} (ha : a < dim.length) :
    (movementDim dim).getD a 0 = max (dim.getD a 0) 1 := by
  simp [movementDim, ha]

/-- Lowering one extent shrinks the movements. -/
theorem movementDim_set_le {dim : List Nat} {a y : Nat} (ha : a < dim.length) (hy : y ≤ dim.getD a 0) :
    List.Forall₂ (· ≤ ·) (movementDim (dim.set a y)) (movementDim dim) := by
  have := forall₂_set ((List.forall₂_same (l := movementDim dim)).mpr fun x _ => le_refl x) a
    (show max y 1 ≤ (movementDim dim).getD a 0 by rw [getD_movementDim ha]; omega)
  rw [set_getD_self] at this
  simpa [movementDim, List.map_set] using this

/-- Moving index `i` along axis `a` to `x` moves its offset by `x - i[a]` strides. -/
theorem offsetOf_set {i : List Nat} {s : List Int} {a : Nat} (x : Nat) (hs : i.length = s.length) :
    offsetOf (i.set a x) s + i.getD a 0 * s.getD a 0 = offsetOf i s + x * s.getD a 0 := by
  induction i generalizing s a with
  | nil => cases s <;> simp_all
  | cons y i ih =>
    cases s with
    | nil => simp at hs
    | cons t s =>
      cases a with
      | zero => simp only [List.set_cons_zero, offsetOf_cons, List.getD_cons_zero]; ring
      | succ a =>
        have := ih (s := s) (a := a) (by simpa using hs)
        simp only [List.set_cons_succ, offsetOf_cons, List.getD_cons_succ]
        linarith

@[simp] theorem offsetOf_replicate_zero (n : Nat) (s : List Int) : offsetOf (List.replicate n 0) s = 0 := by
  induction n generalizing s with
  | zero => rfl
  | succ n ih => cases s <;> simp [List.replicate_succ, ih]

/-- The offset along a single axis. -/
theorem offsetOf_single (s : List Int) (a x : Nat) :
    offsetOf ((List.replicate s.length 0).set a x) s = x * s.getD a 0 := by
  have h0 : (List.replicate s.length 0).getD a 0 = 0 := by
    simp only [List.getD_eq_getElem?_getD, List.getElem?_replicate]
    split <;> rfl
  have := offsetOf_set (i := List.replicate s.length 0) (s := s) (a := a) x (by simp)
  rw [h0, offsetOf_replicate_zero] at this
  simpa using this

/-! ### Bounds -/

theorem zeros_mem_movement (dim : List Nat) : List.replicate dim.length 0 ∈ indices (movementDim dim) := by
  induction dim with
  | nil => exact .nil
  | cons d dim ih => exact .cons (lt_max_of_lt_right Nat.one_pos) ih

/-- The tuple that is `k` on `axis` and 0 elsewhere is a movement when `k` is a
place of `axis`. -/
theorem single_mem_movement {dim : List Nat} {a k : Nat} (hk : k < dim.getD a 0) :
    (List.replicate dim.length 0).set a k ∈ indices (movementDim dim) := by
  have ha : a < dim.length := by
    by_contra h
    rw [List.getD_eq_default _ _ (not_lt.mp h)] at hk
    exact Nat.not_lt_zero _ hk
  have hm := getD_movementDim ha
  have := forall₂_set (zeros_mem_movement dim) a (show k < (movementDim dim).getD a 0 by omega)
  rwa [set_getD_self] at this

theorem offsetOf_nonneg {s : List Int} (hs : ∀ t ∈ s, 0 ≤ t) (i : List Nat) : 0 ≤ offsetOf i s := by
  induction i generalizing s with
  | nil => simp
  | cons x i ih =>
    cases s with
    | nil => simp
    | cons t s =>
      simp only [List.mem_cons, forall_eq_or_imp] at hs
      simp only [offsetOf_cons]
      linarith [ih hs.2, mul_nonneg (Int.ofNat_nonneg x) hs.1]

/-- With non-negative strides the offset grows with the index. -/
theorem offsetOf_mono {i j : List Nat} {s : List Int} (hij : List.Forall₂ (· ≤ ·) i j)
    (hs : ∀ t ∈ s, 0 ≤ t) : offsetOf i s ≤ offsetOf j s := by
  induction hij generalizing s with
  | nil => rfl
  | @cons x y i j hxy _ ih =>
    cases s with
    | nil => simp
    | cons t s =>
      simp only [List.mem_cons, forall_eq_or_imp] at hs
      simp only [offsetOf_cons]
      have := mul_le_mul_of_nonneg_right (Int.ofNat_le.mpr hxy) hs.1
      linarith [ih hs.2]

theorem abs_mem_map_abs {s : List Int} : ∀ t ∈ s.map abs, 0 ≤ t := by
  simp

theorem getD_map_abs (s : List Int) (a : Nat) : (s.map abs).getD a 0 = |s.getD a 0| := by
  simp only [List.getD_eq_getElem?_getD, List.getElem?_map]
  cases s[a]? <;> simp

/-! ### Movements -/

theorem movement_of_mem_indices {i dim : List Nat} (h : i ∈ indices dim) : i ∈ indices (movementDim dim) := by
  induction h with
  | nil => exact .nil
  | cons hx _ ih => exact .cons (lt_max_of_lt_left hx) ih

theorem lastIndex_mem_movement (dim : List Nat) : lastIndex dim ∈ indices (movementDim dim) := by
  induction dim with
  | nil => exact .nil
  | cons d dim ih => exact .cons (by simp only [max_def]; split <;> omega) ih

theorem le_lastIndex {i dim : List Nat} (h : i ∈ indices (movementDim dim)) :
    List.Forall₂ (· ≤ ·) i (lastIndex dim) := by
  induction dim generalizing i with
  | nil => cases h; exact .nil
  | cons d dim ih =>
    obtain ⟨x, i', hx, hi', rfl⟩ := mem_indices_cons_iff.mp h
    exact .cons (show x ≤ d - 1 by simp only [max_def] at hx; split at hx <;> omega) (ih hi')

/-- A place `k` of `axis` moves the pointer by at most `M`, counted in magnitudes. -/
theorem ArrayBase.single_le_maxAbsOffset {R : RawViewRepr} (v : ArrayBase R) {a k : Nat}
    (hk : k < v.dim.getD a 0) : k * |v.strides.getD a 0| ≤ v.maxAbsOffset := by
  have hs := offsetOf_single (v.strides.map abs) a k
  rw [List.length_map, v.strides_length, getD_map_abs] at hs
  rw [← hs]
  exact offsetOf_mono (le_lastIndex (single_mem_movement hk)) abs_mem_map_abs

end RawViews
