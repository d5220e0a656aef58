import RawViews.Index
import Mathlib.Data.Set.Function
import Mathlib.Tactic.LinearCombination

/-! `split_at`.

`RawArrayView::split_at(axis, index)` cuts a view in two along `axis`: the left
half keeps the first `index` places, the right half the rest, both with the
original strides. The right half's pointer moves `index * stride` elements, except
when `index` is the whole extent: then it stays, since a pointer past the end of
the allocation may not be formed. `RawArrayViewMut::split_at` goes through
`into_raw_view` and rewraps the halves.

`splitAt_contract` is the whole behaviour: the call panics exactly when the axis
or the index is out of range, and otherwise `splitIndex` sends the view's index
tuples one to one onto the halves', keeping every element's address. -/
namespace RawViews

namespace ArrayBase

variable {R : RawViewRepr}

/-- `new_(ptr, dim, strides)` with the extent of `axis` set to `n` (`set_axis`). -/
def setAxis (v : ArrayBase R) (ptr : Int) (axis n : Nat) : ArrayBase R :=
  ⟨ptr, v.dim.set axis n, v.strides, by simp [v.strides_length]⟩

@[simp] theorem setAxis_ptr (v : ArrayBase R) (p : Int) (axis n : Nat) : (v.setAxis p axis n).ptr = p := rfl
@[simp] theorem setAxis_dim (v : ArrayBase R) (p : Int) (axis n : Nat) :
    (v.setAxis p axis n).dim = v.dim.set axis n := rfl
@[simp] theorem setAxis_strides (v : ArrayBase R) (p : Int) (axis n : Nat) :
    (v.setAxis p axis n).strides = v.strides := rfl

end ArrayBase

/-- `RawArrayView::split_at`. `self.strides.axis(axis)` reads the stride of an axis
that `len_of` has already found. -/
def RawArrayView.splitAt (A : Layout) (v : RawArrayView) (axis index : Nat) :
    Except Fault (RawArrayView × RawArrayView) := do
  let len ← v.lenOf axis
  unless index ≤ len do
    throw (.panic "assertion failed: index <= self.len_of(axis)")
  let rightPtr ← if index = len then pure v.ptr else do
    let off ← strideOffset index (v.strides.getD axis 0)
    pure (offset A v.ptr off)
  pure (v.setAxis v.ptr axis index, v.setAxis rightPtr axis (len - index))

/-- `RawArrayViewMut::split_at`. -/
def RawArrayViewMut.splitAt (A : Layout) (v : RawArrayViewMut) (axis index : Nat) :
    Except Fault (RawArrayViewMut × RawArrayViewMut) := do
  let (left, right) ← v.intoRawView.splitAt A axis index
  pure (left.withRepr .mut, right.withRepr .mut)

/-! ### The four outcomes -/

namespace RawArrayView

variable (A : Layout) (v : RawArrayView) {axis index : Nat}

theorem splitAt_of_axis_ge (h : v.dim.length ≤ axis) :
    v.splitAt A axis index = .error (indexOutOfBounds v.dim.length axis) := by
  simp [splitAt, v.lenOf_of_le h, bind, Except.bind]

theorem splitAt_of_index_gt (ha : axis < v.dim.length) (h : v.dim.getD axis 0 < index) :
    v.splitAt A axis index = .error (.panic "assertion failed: index <= self.len_of(axis)") := by
  rw [List.getD_eq_getElem _ _ ha] at h
  simp [splitAt, Nat.not_le.mpr h, v.lenOf_of_lt ha, bind, Except.bind, throw, throwThe, MonadExceptOf.throw]

theorem splitAt_of_index_eq (ha : axis < v.dim.length) (h : index = v.dim.getD axis 0) :
    v.splitAt A axis index = .ok (v.setAxis v.ptr axis index, v.setAxis v.ptr axis 0) := by
  rw [List.getD_eq_getElem _ _ ha] at h
  subst h
  simp [splitAt, v.lenOf_of_lt ha, bind, Except.bind, pure, Except.pure]

theorem splitAt_of_index_lt (ha : axis < v.dim.length) (h : index < v.dim.getD axis 0) :
    v.splitAt A axis index = (strideOffset index (v.strides.getD axis 0)).map fun off =>
      (v.setAxis v.ptr axis index, v.setAxis (offset A v.ptr off) axis (v.dim.getD axis 0 - index)) := by
  rw [List.getD_eq_getElem _ _ ha] at h ⊢
  simp only [splitAt, v.lenOf_of_lt ha, bind, Except.bind, h.le, h.ne, if_true, if_false]
  cases strideOffset index (v.strides.getD axis 0) <;> rfl

end RawArrayView

theorem RawArrayViewMut.splitAt_eq (A : Layout) (v : RawArrayViewMut) (axis index : Nat) :
    v.splitAt A axis index = (v.intoRawView.splitAt A axis index).map fun lr =>
      (lr.1.withRepr .mut, lr.2.withRepr .mut) := by
  simp only [splitAt, bind, Except.bind, pure, Except.pure, Except.map]

/-- `stride_offset(n, stride)` is the product `n * stride` while that product's
magnitude fits in `isize`: a stride of 0 absorbs any wrapped `n as isize`, and any
other stride keeps `n` itself in range. -/
theorem strideOffset_of_le {n : Nat} {s : Int} (h : n * |s| ≤ isizeMax) :
    strideOffset n s = .ok (n * s) := by
  by_cases hs : s = 0
  · subst hs
    simp [strideOffset, isizeMul, isizeMin, isizeMax]
  · have hn : (n : Int) ≤ isizeMax := le_trans (le_mul_of_one_le_right (Int.ofNat_nonneg n)
      (Int.one_le_abs hs)) h
    rw [strideOffset, asIsize_of_le hn]
    exact isizeMul_of_abs_le (by rwa [abs_mul, Nat.abs_cast])

/-! ### Index tuples of the halves -/

/-- Where index tuple `i` of a view goes when `axis` is split at `index`: the left
half keeps it, the right half takes it `index` places lower along `axis`. -/
def splitIndex (axis index : Nat) (i : List Nat) : List Nat ⊕ List Nat :=
  if i.getD axis 0 < index then .inl i else .inr (i.set axis (i.getD axis 0 - index))

/-- The way back: a tuple of the left half is the view's own, one of the right half
moves up again by `index` along `axis`. -/
def joinIndex (axis index : Nat) : List Nat ⊕ List Nat → List Nat
  | .inl j => j
  | .inr j => j.set axis (j.getD axis 0 + index)

section Halves

variable {dim : List Nat} {axis index : Nat}

theorem getD_set_axis (ha : axis < dim.length) (n : Nat) : (dim.set axis n).getD axis 0 = n :=
  getD_set_self ha n 0

theorem getD_lt_of_mem_indices {i : List Nat} (hi : i ∈ indices dim) (ha : axis < dim.length) :
    i.getD axis 0 < dim.getD axis 0 :=
  forall₂_getD hi ha 0 0

theorem mem_indices_set_of_lt {i : List Nat} (hi : i ∈ indices dim) (h : i.getD axis 0 < index) :
    i ∈ indices (dim.set axis index) := by
  have := forall₂_set hi axis h
  rwa [set_getD_self] at this

/-- The split sends the index tuples of `dim` into those of the two halves. -/
theorem splitIndex_mapsTo (ha : axis < dim.length) :
    Set.MapsTo (splitIndex axis index) (indices dim)
      (Sum.inl '' indices (dim.set axis index) ∪
        Sum.inr '' indices (dim.set axis (dim.getD axis 0 - index))) := by
  intro i hi
  unfold splitIndex
  split_ifs with h
  · exact .inl ⟨i, mem_indices_set_of_lt hi h, rfl⟩
  · have := getD_lt_of_mem_indices hi ha
    exact .inr ⟨_, forall₂_set hi axis (show i.getD axis 0 - index < dim.getD axis 0 - index by omega), rfl⟩

theorem joinIndex_mapsTo (ha : axis < dim.length) (hk : index ≤ dim.getD axis 0) :
    Set.MapsTo (joinIndex axis index)
      (Sum.inl '' indices (dim.set axis index) ∪
        Sum.inr '' indices (dim.set axis (dim.getD axis 0 - index))) (indices dim) := by
  have ha' : ∀ n, axis < (dim.set axis n).length := by simpa using ha
  rintro _ (⟨j, hj, rfl⟩ | ⟨j, hj, rfl⟩)
  · have hlt := getD_lt_of_mem_indices hj (ha' index)
    rw [getD_set_axis ha] at hlt
    have hj' := forall₂_set hj axis (show j.getD axis 0 < dim.getD axis 0 by omega)
    rwa [set_getD_self, set_set_getD] at hj'
  · have hlt := getD_lt_of_mem_indices hj (ha' _)
    rw [getD_set_axis ha] at hlt
    have hj' := forall₂_set hj axis (show j.getD axis 0 + index < dim.getD axis 0 by omega)
    rwa [set_set_getD] at hj'

theorem joinIndex_splitIndex (ha : axis < dim.length) :
    Set.LeftInvOn (joinIndex axis index) (splitIndex axis index) (indices dim) := by
  intro i hi
  have hil : axis < i.length := by rw [length_of_mem_indices hi]; exact ha
  unfold splitIndex
  split_ifs with h
  · rfl
  · simp only [joinIndex, getD_set_self hil, List.set_set, Nat.sub_add_cancel (not_lt.mp h),
      set_getD_self]

theorem splitIndex_joinIndex (ha : axis < dim.length) :
    Set.RightInvOn (joinIndex axis index) (splitIndex axis index)
      (Sum.inl '' indices (dim.set axis index) ∪
        Sum.inr '' indices (dim.set axis (dim.getD axis 0 - index))) := by
  have ha' : ∀ n, axis < (dim.set axis n).length := by simpa using ha
  rintro _ (⟨j, hj, rfl⟩ | ⟨j, hj, rfl⟩)
  · have hlt := getD_lt_of_mem_indices hj (ha' index)
    rw [getD_set_axis ha] at hlt
    exact if_pos hlt
  · have hjl : axis < j.length := by rw [length_of_mem_indices hj]; exact ha' _
    simp only [joinIndex, splitIndex, getD_set_self hjl, List.set_set, Nat.add_sub_cancel,
      set_getD_self]
    rw [if_neg (by omega)]

/-- `splitIndex` is a bijection from the tuples of `dim` onto the disjoint union of
the halves' tuples, with `joinIndex` its inverse. -/
theorem splitIndex_bijOn (ha : axis < dim.length) (hk : index ≤ dim.getD axis 0) :
    Set.BijOn (splitIndex axis index) (indices dim)
      (Sum.inl '' indices (dim.set axis index) ∪
        Sum.inr '' indices (dim.set axis (dim.getD axis 0 - index))) :=
  ⟨splitIndex_mapsTo ha, (joinIndex_splitIndex ha).injOn,
    (splitIndex_joinIndex ha).surjOn (joinIndex_mapsTo ha hk)⟩

end Halves

/-- The halves of a successful `split_at(axis, index)` of `v`. -/
structure Halves {R : RawViewRepr} (A : Layout) (v : ArrayBase R) (axis index : Nat)
    (l r : ArrayBase R) : Prop where
  left_ptr : l.ptr = v.ptr
  left_dim : l.dim = v.dim.set axis index
  left_strides : l.strides = v.strides
  right_ptr : r.ptr =
    if index < v.dim.getD axis 0 then v.ptr + index * v.strides.getD axis 0 * A.size else v.ptr
  right_dim : r.dim = v.dim.set axis (v.dim.getD axis 0 - index)
  right_strides : r.strides = v.strides

section Addresses

variable {R : RawViewRepr} {A : Layout} {v l r : ArrayBase R} {axis index : Nat}

theorem ArrayBase.addr_eq_of {w : ArrayBase R} (hp : w.ptr = v.ptr) (hs : w.strides = v.strides)
    (j : List Nat) : w.addr A j = v.addr A j := by
  simp [ArrayBase.addr, hp, hs]

/-- A tuple of the right half lies where its `joinIndex` lies in `v`. -/
theorem Halves.addr_right (h : Halves A v axis index l r) (hk : index < v.dim.getD axis 0)
    {j : List Nat} (hj : j.length = v.dim.length) :
    r.addr A j = v.addr A (joinIndex axis index (.inr j)) := by
  have key := offsetOf_set (i := j) (s := v.strides) (a := axis) (j.getD axis 0 + index)
    (by rw [hj, v.strides_length])
  simp only [joinIndex, ArrayBase.addr, offset, h.right_ptr, if_pos hk, h.right_strides]
  push_cast at key
  linear_combination (-(A.size : Int)) * key

/-- Every element of `v` sits at the same address in the half `splitIndex` puts it in. -/
theorem Halves.addr_splitIndex (h : Halves A v axis index l r) (ha : axis < v.dim.length)
    {i : List Nat} (hi : i ∈ indices v.dim) :
    Sum.elim (l.addr A) (r.addr A) (splitIndex axis index i) = v.addr A i := by
  have hinv : joinIndex axis index (splitIndex axis index i) = i := joinIndex_splitIndex ha hi
  unfold splitIndex at hinv ⊢
  split_ifs at hinv ⊢ with hlt
  · exact ArrayBase.addr_eq_of h.left_ptr h.left_strides i
  · have hk : index < v.dim.getD axis 0 := by have := getD_lt_of_mem_indices hi ha; omega
    rw [Sum.elim_inr, h.addr_right hk (by simp [length_of_mem_indices hi]), hinv]

end Addresses

/-! ### The contract -/

/-- What `split_at(axis, index)` on `v` promises of its result `res`: it panics
exactly when `axis` or `index` is out of range; otherwise its halves are as
`Halves` says, `splitIndex` is a bijection from the tuples of `v` onto those of the
halves, and it keeps every element's address. -/
def SplitAtContract {R : RawViewRepr} (A : Layout) (v : ArrayBase R) (axis index : Nat)
    (res : Except Fault (ArrayBase R × ArrayBase R)) : Prop :=
  ((∃ msg, res = .error (.panic msg)) ↔ v.dim.length ≤ axis ∨ v.dim.getD axis 0 < index) ∧
  ∀ l r, res = .ok (l, r) → Halves A v axis index l r ∧
    Set.BijOn (splitIndex axis index) (indices v.dim) (Sum.inl '' indices l.dim ∪ Sum.inr '' indices r.dim) ∧
    ∀ i ∈ indices v.dim, Sum.elim (l.addr A) (r.addr A) (splitIndex axis index i) = v.addr A i

theorem RawArrayView.splitAt_ok (A : Layout) (v : RawArrayView) {axis index : Nat}
    (ha : axis < v.dim.length) (hk : index ≤ v.dim.getD axis 0) (hv : v.maxAbsOffset ≤ isizeMax) :
    ∃ l r, v.splitAt A axis index = .ok (l, r) ∧ Halves A v axis index l r := by
  rcases hk.lt_or_eq with hk | hk
  · have hs := strideOffset_of_le ((v.single_le_maxAbsOffset hk).trans hv)
    rw [v.splitAt_of_index_lt A ha hk, hs]
    exact ⟨_, _, rfl, rfl, rfl, rfl, (if_pos hk).symm, rfl, rfl⟩
  · rw [v.splitAt_of_index_eq A ha hk]
    exact ⟨_, _, rfl, rfl, rfl, rfl, (if_neg (by omega)).symm, by rw [hk, Nat.sub_self]; rfl, rfl⟩

theorem RawArrayView.splitAt_contract (A : Layout) (v : RawArrayView) (axis index : Nat)
    (hv : v.maxAbsOffset ≤ isizeMax) : SplitAtContract A v axis index (v.splitAt A axis index) := by
  by_cases ha : axis < v.dim.length
  · by_cases hk : index ≤ v.dim.getD axis 0
    · obtain ⟨l, r, hres, hh⟩ := v.splitAt_ok A ha hk hv
      rw [hres]
      refine ⟨⟨(fun ⟨_, h⟩ => by cases h), (fun h => by omega)⟩, ?_⟩
      rintro l' r' ⟨⟩
      refine ⟨hh, ?_, fun i hi => hh.addr_splitIndex ha hi⟩
      rw [hh.left_dim, hh.right_dim]
      exact splitIndex_bijOn ha hk
    · rw [v.splitAt_of_index_gt A ha (by omega)]
      exact ⟨⟨(fun _ => .inr (by omega)), fun _ => ⟨_, rfl⟩⟩, fun _ _ h => by cases h⟩
  · rw [v.splitAt_of_axis_ge A (by omega)]
    exact ⟨⟨(fun _ => .inl (by omega)), fun _ => ⟨_, rfl⟩⟩, fun _ _ h => by cases h⟩

/-- A contract about the fields of a view holds of the view in either representation. -/
theorem SplitAtContract.withRepr {R S : RawViewRepr} {A : Layout} {v : ArrayBase R} {axis index : Nat}
    {res : Except Fault (ArrayBase S × ArrayBase S)} (h : SplitAtContract A (v.withRepr S) axis index res) :
    SplitAtContract A v axis index (res.map fun lr => (lr.1.withRepr R, lr.2.withRepr R)) := by
  obtain ⟨hpanic, hok⟩ := h
  cases res with
  | error e => exact ⟨by simpa [Except.map] using hpanic, fun _ _ h => by cases h⟩
  | ok lr =>
    obtain ⟨hh, hb, haddr⟩ := hok lr.1 lr.2 rfl
    refine ⟨by simpa [Except.map] using hpanic, ?_⟩
    rintro _ _ ⟨⟩
    exact ⟨⟨hh.1, hh.2, hh.3, hh.4, hh.5, hh.6⟩, hb, haddr⟩

theorem RawArrayViewMut.splitAt_contract (A : Layout) (v : RawArrayViewMut) (axis index : Nat)
    (hv : v.maxAbsOffset ≤ isizeMax) : SplitAtContract A v axis index (v.splitAt A axis index) := by
  rw [splitAt_eq]
  exact (v.intoRawView.splitAt_contract A axis index hv).withRepr

/-- **`split_at` on either raw view.** For every view whose movements do not overflow,
`split_at(axis, index)` panics exactly when the axis or the index is out of range,
and otherwise returns halves whose tuples are the view's, one to one, at the same
addresses. -/
theorem splitAt_spec :
    (∀ (A : Layout) (v : RawArrayView) (axis index : Nat), v.maxAbsOffset ≤ isizeMax →
      SplitAtContract A v axis index (v.splitAt A axis index)) ∧
    (∀ (A : Layout) (v : RawArrayViewMut) (axis index : Nat), v.maxAbsOffset ≤ isizeMax →
      SplitAtContract A v axis index (v.splitAt A axis index)) :=
  ⟨RawArrayView.splitAt_contract, RawArrayViewMut.splitAt_contract⟩

/-- Four-byte elements, as `i32` or `f32`. -/
def word : Layout := ⟨4, 4, by decide⟩

/-- A 2 × 3 row-major view at address 4096. -/
def rows : RawArrayView := ⟨4096, [2, 3], [3, 1], rfl⟩

theorem splitAt_spec_rows :
    rows.maxAbsOffset ≤ isizeMax ∧ SplitAtContract word rows 0 1 (rows.splitAt word 0 1) :=
  ⟨by decide, splitAt_spec.1 word rows 0 1 (by decide)⟩

/-- The split of the spec's first scenario: two 1 × 3 halves, the right one three
elements (twelve bytes) further on. -/
example : rows.splitAt word 0 1 = .ok (⟨4096, [1, 3], [3, 1], rfl⟩, ⟨4108, [1, 3], [3, 1], rfl⟩) := rfl

end RawViews
