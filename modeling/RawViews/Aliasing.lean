import RawViews.Valid

/-! Live mutable views never alias.

Start from one `RawArrayViewMut` valid for an allocation, whose elements own
disjoint bytes, and replace live views one at a time by what `split_at`,
`split_complex` or `cast` returns (`Step`). `live_views_partition`: after any run
the elements of all live views own pairwise disjoint bytes, within a view and across
views, and together exactly the bytes of the first view.

The proof is one invariant, `Inv`: every live view is valid, no two of its elements
share a byte, no two live views share a byte, and together they cover the first
view. What an operation returns `Replaces` the view it consumed (`Op.replaces`), and
`Inv.replace` carries the invariant over the rest of the live views. -/
namespace RawViews

/-- A live mutable view and the layout of its elements. -/
structure Live where
  elem : Layout
  view : RawArrayViewMut

namespace Live

/-- Byte `b` lies in element `i` of `w`. -/
def Holds (w : Live) (i : List Nat) (b : Int) : Prop :=
  i ∈ indices w.view.dim ∧ w.view.addr w.elem i ≤ b ∧ b < w.view.addr w.elem i + w.elem.size

/-- Byte `b` lies in some element of `w`. -/
def Owns (w : Live) (b : Int) : Prop := ∃ i, w.Holds i b

/-- No two elements of `w` share a byte. -/
def NonAliasing (w : Live) : Prop := ∀ i j b, w.Holds i b → w.Holds j b → i = j

/-- `w` and `w'` share no byte. -/
def Disjoint (w w' : Live) : Prop := ∀ b, w.Owns b → w'.Owns b → False

/-- Two elements' byte ranges are apart when neither starts before the other ends. -/
theorem nonAliasing_iff (w : Live) : w.NonAliasing ↔
    ∀ i ∈ allIndices w.view.dim, ∀ j ∈ allIndices w.view.dim, i ≠ j → w.elem.size = 0 ∨
      w.view.addr w.elem i + w.elem.size ≤ w.view.addr w.elem j ∨
      w.view.addr w.elem j + w.elem.size ≤ w.view.addr w.elem i := by
  simp only [mem_allIndices]
  constructor
  · intro h i hi j hj hne
    by_contra hc
    push_neg at hc
    obtain ⟨he, hij, hji⟩ := hc
    have he' : (0 : Int) < w.elem.size := by exact_mod_cast Nat.pos_of_ne_zero he
    refine hne (h i j (max (w.view.addr w.elem i) (w.view.addr w.elem j)) ⟨hi, ?_⟩ ⟨hj, ?_⟩) <;>
      constructor <;> simp only [le_max_iff, max_lt_iff] <;> omega
  · rintro h i j b ⟨hi, hb₁, hb₂⟩ ⟨hj, hb₃, hb₄⟩
    by_contra hne
    rcases h i hi j hj hne with he | hij | hji
    · rw [he, Nat.cast_zero, add_zero] at hb₂
      omega
    · omega
    · omega

instance : DecidablePred NonAliasing := fun w => decidable_of_iff _ w.nonAliasing_iff.symm

end Live

/-- The views `new` may take the place of `w` in the allocation `[lo, hi]`: they are
valid, none aliases itself or another, and they own exactly the bytes of `w`. -/
structure Replaces (lo hi : Int) (w : Live) (new : List Live) : Prop where
  valid : ∀ x ∈ new, Valid x.elem lo hi x.view
  nonAliasing : ∀ x ∈ new, x.NonAliasing
  disjoint : new.Pairwise Live.Disjoint
  cover : ∀ b, (∃ x ∈ new, x.Owns b) ↔ w.Owns b

theorem Replaces.pair {lo hi : Int} {w l r : Live} (hl : Valid l.elem lo hi l.view)
    (hr : Valid r.elem lo hi r.view) (nl : l.NonAliasing) (nr : r.NonAliasing) (hd : l.Disjoint r)
    (hc : ∀ b, l.Owns b ∨ r.Owns b ↔ w.Owns b) : Replaces lo hi w [l, r] where
  valid := by simp [hl, hr]
  nonAliasing := by simp [nl, nr]
  disjoint := by simp [hd]
  cover b := by simpa using hc b

/-! ### `split_at`: a partition of the elements -/

section Partition

variable {w l r : Live} {f : List Nat → List Nat ⊕ List Nat}

/-- `f` deals the elements of `w` out to `l` and `r`, one to one and at the same
addresses, all elements of one size. -/
structure Partition (w l r : Live) (f : List Nat → List Nat ⊕ List Nat) : Prop where
  bij : Set.BijOn f (indices w.view.dim) (Sum.inl '' indices l.view.dim ∪ Sum.inr '' indices r.view.dim)
  addr : ∀ i ∈ indices w.view.dim,
    Sum.elim (l.view.addr l.elem) (r.view.addr r.elem) (f i) = w.view.addr w.elem i
  size_left : l.elem.size = w.elem.size
  size_right : r.elem.size = w.elem.size

/-- Byte `b` lies in element `x` of `l` or of `r`. -/
def HoldsIn (l r : Live) (b : Int) : List Nat ⊕ List Nat → Prop :=
  Sum.elim (l.Holds · b) (r.Holds · b)

theorem Partition.holds_iff (h : Partition w l r f) {i : List Nat} (hi : i ∈ indices w.view.dim)
    (b : Int) : w.Holds i b ↔ HoldsIn l r b (f i) := by
  have haddr := h.addr i hi
  rcases h.bij.mapsTo hi with ⟨i', hi', he⟩ | ⟨j', hj', he⟩
  · rw [← he] at haddr ⊢
    simp only [HoldsIn, Sum.elim_inl, Live.Holds] at haddr ⊢
    simp [haddr, h.size_left, hi, hi']
  · rw [← he] at haddr ⊢
    simp only [HoldsIn, Sum.elim_inr, Live.Holds] at haddr ⊢
    simp [haddr, h.size_right, hi, hj']

theorem Partition.holds_of (h : Partition w l r f) {x : List Nat ⊕ List Nat}
    (hx : x ∈ Sum.inl '' indices l.view.dim ∪ Sum.inr '' indices r.view.dim) {b : Int}
    (hb : HoldsIn l r b x) : ∃ i, f i = x ∧ w.Holds i b := by
  obtain ⟨i, hi, rfl⟩ := h.bij.surjOn hx
  exact ⟨i, rfl, (h.holds_iff hi b).mpr hb⟩

theorem Partition.holds_left (h : Partition w l r f) {i : List Nat} {b : Int} (hb : l.Holds i b) :
    ∃ i₀, f i₀ = .inl i ∧ w.Holds i₀ b :=
  h.holds_of (.inl ⟨i, hb.1, rfl⟩) hb

theorem Partition.holds_right (h : Partition w l r f) {j : List Nat} {b : Int} (hb : r.Holds j b) :
    ∃ j₀, f j₀ = .inr j ∧ w.Holds j₀ b :=
  h.holds_of (.inr ⟨j, hb.1, rfl⟩) hb

/-- The two sides of a partition of a view without aliasing have none, share no
byte, and own the view's bytes. -/
theorem Partition.replaces (h : Partition w l r f) (hw : w.NonAliasing) :
    l.NonAliasing ∧ r.NonAliasing ∧ l.Disjoint r ∧ ∀ b, l.Owns b ∨ r.Owns b ↔ w.Owns b := by
  refine ⟨fun i j b hi hj => ?_, fun i j b hi hj => ?_, fun b ⟨i, hi⟩ ⟨j, hj⟩ => ?_, fun b => ⟨?_, ?_⟩⟩
  · obtain ⟨i₀, hfi, hi₀⟩ := h.holds_left hi
    obtain ⟨j₀, hfj, hj₀⟩ := h.holds_left hj
    exact Sum.inl.inj (hfi.symm.trans ((hw _ _ b hi₀ hj₀) ▸ hfj))
  · obtain ⟨i₀, hfi, hi₀⟩ := h.holds_right hi
    obtain ⟨j₀, hfj, hj₀⟩ := h.holds_right hj
    exact Sum.inr.inj (hfi.symm.trans ((hw _ _ b hi₀ hj₀) ▸ hfj))
  · obtain ⟨i₀, hfi, hi₀⟩ := h.holds_left hi
    obtain ⟨j₀, hfj, hj₀⟩ := h.holds_right hj
    cases hfi.symm.trans ((hw _ _ b hi₀ hj₀) ▸ hfj)
  · rintro (⟨i, hi⟩ | ⟨j, hj⟩)
    · obtain ⟨i₀, -, hi₀⟩ := h.holds_left hi
      exact ⟨i₀, hi₀⟩
    · obtain ⟨j₀, -, hj₀⟩ := h.holds_right hj
      exact ⟨j₀, hj₀⟩
  · rintro ⟨i, hi⟩
    have := (h.holds_iff hi.1 b).mp hi
    cases hfi : f i with
    | inl i' => rw [hfi] at this; exact .inl ⟨i', this⟩
    | inr j' => rw [hfi] at this; exact .inr ⟨j', this⟩

end Partition

/-! ### What each operation returns -/

section Operations

variable {lo hi : Int}

/-- What one operation does to a live view `w`: the views that take its place. -/
inductive Op : Live → List Live → Prop
  | splitAt {w : Live} {axis index : Nat} {l r : RawArrayViewMut}
      (h : w.view.splitAt w.elem axis index = .ok (l, r)) : Op w [⟨w.elem, l⟩, ⟨w.elem, r⟩]
  | splitComplex {w : Live} {T : Layout} {c : Complex RawArrayViewMut}
      (h : w.view.splitComplex w.elem T = .ok c) : Op w [⟨T, c.re⟩, ⟨T, c.im⟩]
  | cast {w : Live} {B : Layout} {v : RawArrayViewMut}
      (h : w.view.cast w.elem B = .ok v) : Op w [⟨B, v⟩]

theorem replaces_splitAt {w : Live} {axis index : Nat} {l r : RawArrayViewMut}
    (h : w.view.splitAt w.elem axis index = .ok (l, r)) (hv : Valid w.elem lo hi w.view)
    (hn : w.NonAliasing) : Replaces lo hi w [⟨w.elem, l⟩, ⟨w.elem, r⟩] := by
  have hc := RawArrayViewMut.splitAt_contract w.elem w.view axis index
    (hv.maxAbsOffset_eq ▸ hv.maxOffset_le)
  rw [h] at hc
  obtain ⟨hpanic, hok⟩ := hc
  have hrange : ¬(w.view.dim.length ≤ axis ∨ w.view.dim.getD axis 0 < index) := fun hr => by
    obtain ⟨_, he⟩ := hpanic.mpr hr
    cases he
  obtain ⟨hh, hbij, haddr⟩ := hok l r rfl
  have ha : axis < w.view.dim.length := by omega
  have hk : index ≤ w.view.dim.getD axis 0 := by omega
  obtain ⟨nl, nr, hd, hcov⟩ :=
    Partition.replaces (w := w) (l := ⟨w.elem, l⟩) (r := ⟨w.elem, r⟩) ⟨hbij, haddr, rfl, rfl⟩ hn
  exact .pair (hh.valid_left hv ha hk) (hh.valid_right hv ha hk) nl nr hd hcov

section SplitComplex

variable {C T : Layout} {v re im : RawArrayViewMut}

theorem holds_re (hC : C.IsComplexOf T) (hp : Parts T v re im) {i : List Nat} {b : Int} :
    (⟨T, re⟩ : Live).Holds i b ↔ i ∈ indices v.dim ∧ v.addr C i ≤ b ∧ b < v.addr C i + T.size := by
  simp only [Live.Holds, hp.re_dim]
  exact and_congr_right fun hi => by rw [hp.addr_re hC (movement_of_mem_indices hi)]

theorem holds_im (hC : C.IsComplexOf T) (hp : Parts T v re im) {i : List Nat} {b : Int} :
    (⟨T, im⟩ : Live).Holds i b ↔
      i ∈ indices v.dim ∧ v.addr C i + T.size ≤ b ∧ b < v.addr C i + T.size + T.size := by
  simp only [Live.Holds, hp.im_dim]
  exact and_congr_right fun hi => by
    rw [hp.addr_im hC (v.isEmpty_eq_false hi) (movement_of_mem_indices hi)]

theorem replaces_splitComplex {w : Live} {c : Complex RawArrayViewMut}
    (h : w.view.splitComplex w.elem T = .ok c) (hv : Valid w.elem lo hi w.view) (hn : w.NonAliasing) :
    Replaces lo hi w [⟨T, c.re⟩, ⟨T, c.im⟩] := by
  obtain ⟨hC, hp⟩ := RawArrayViewMut.splitComplex_ok h
  have hw : ∀ i b, w.Holds i b ↔ i ∈ indices w.view.dim ∧ w.view.addr w.elem i ≤ b ∧
      b < w.view.addr w.elem i + T.size + T.size := by
    intro i b
    simp only [Live.Holds, hC.1]
    push_cast
    rw [add_assoc, ← two_mul]
  have hre : ∀ i b, (⟨T, c.re⟩ : Live).Holds i b → w.Holds i b := fun i b hb => by
    rw [holds_re hC hp] at hb
    rw [hw]
    exact ⟨hb.1, hb.2.1, by linarith [hb.2.2]⟩
  have him : ∀ i b, (⟨T, c.im⟩ : Live).Holds i b → w.Holds i b := fun i b hb => by
    rw [holds_im hC hp] at hb
    rw [hw]
    exact ⟨hb.1, by linarith [hb.2.1], hb.2.2⟩
  refine .pair (hp.valid_re hC hv) (hp.valid_im hC hv)
    (fun i j b hi hj => hn i j b (hre i b hi) (hre j b hj))
    (fun i j b hi hj => hn i j b (him i b hi) (him j b hj)) (fun b ⟨i, hi⟩ ⟨j, hj⟩ => ?_) fun b => ⟨?_, ?_⟩
  · have hij := hn i j b (hre i b hi) (him j b hj)
    subst hij
    rw [holds_re hC hp] at hi
    rw [holds_im hC hp] at hj
    linarith [hi.2.2, hj.2.1]
  · rintro (⟨i, hi⟩ | ⟨i, hi⟩)
    · exact ⟨i, hre i b hi⟩
    · exact ⟨i, him i b hi⟩
  · rintro ⟨i, hi⟩
    rw [hw] at hi
    by_cases hb : b < w.view.addr w.elem i + T.size
    · exact .inl ⟨i, (holds_re hC hp).mpr ⟨hi.1, hi.2.1, hb⟩⟩
    · exact .inr ⟨i, (holds_im hC hp).mpr ⟨hi.1, by linarith, hi.2.2⟩⟩

end SplitComplex

theorem replaces_cast {w : Live} {B : Layout} {v : RawArrayViewMut} (h : w.view.cast w.elem B = .ok v)
    (hv : Valid w.elem lo hi w.view) (hn : w.NonAliasing) : Replaces lo hi w [⟨B, v⟩] := by
  obtain ⟨hB, rfl⟩ := (ArrayBase.cast_eq_ok_iff _ _ _ _).mp h
  have hh : ∀ i b, (⟨B, w.view⟩ : Live).Holds i b ↔ w.Holds i b := fun i b => by
    simp [Live.Holds, ArrayBase.addr, offset, hB]
  have hn' : (⟨B, w.view⟩ : Live).NonAliasing := fun i j b hi hj =>
    hn i j b ((hh i b).mp hi) ((hh j b).mp hj)
  refine ⟨by simpa using hv.of_size_eq hB, by simpa using hn', List.pairwise_singleton _ _, fun b => ?_⟩
  simp only [List.mem_singleton, exists_eq_left, Live.Owns, hh]

/-- An operation on a valid view without aliasing returns views that may replace it. -/
theorem Op.replaces {w : Live} {new : List Live} (hop : Op w new) (hv : Valid w.elem lo hi w.view)
    (hn : w.NonAliasing) : Replaces lo hi w new := by
  cases hop with
  | splitAt h => exact replaces_splitAt h hv hn
  | splitComplex h => exact replaces_splitComplex h hv hn
  | cast h => exact replaces_cast h hv hn

end Operations

/-! ### Runs -/

/-- One step of a run: one live view is replaced by what an operation returns. -/
inductive Step : List Live → List Live → Prop
  | mk (pre post : List Live) {w : Live} {new : List Live} (h : Op w new) :
      Step (pre ++ w :: post) (pre ++ new ++ post)

/-- The lists of live views a run from the single view `v₀` reaches. -/
inductive Reachable (v₀ : Live) : List Live → Prop
  | init : Reachable v₀ [v₀]
  | step {S S' : List Live} : Reachable v₀ S → Step S S' → Reachable v₀ S'

/-- The invariant of a run from `v₀` in the allocation `[lo, hi]`. -/
structure Inv (lo hi : Int) (v₀ : Live) (S : List Live) : Prop where
  valid : ∀ w ∈ S, Valid w.elem lo hi w.view
  nonAliasing : ∀ w ∈ S, w.NonAliasing
  disjoint : S.Pairwise Live.Disjoint
  cover : ∀ b, (∃ w ∈ S, w.Owns b) ↔ v₀.Owns b

namespace Inv

variable {lo hi : Int} {v₀ : Live}

theorem init (hv : Valid v₀.elem lo hi v₀.view) (hn : v₀.NonAliasing) : Inv lo hi v₀ [v₀] where
  valid := by simpa using hv
  nonAliasing := by simpa using hn
  disjoint := List.pairwise_singleton _ _
  cover b := by simp

/-- Replacing a live view by views that own exactly its bytes keeps the invariant;
the other live views are untouched. -/
theorem replace {pre post new : List Live} {w : Live} (h : Inv lo hi v₀ (pre ++ w :: post))
    (hr : Replaces lo hi w new) : Inv lo hi v₀ (pre ++ new ++ post) := by
  have hsub : ∀ x ∈ new, ∀ b, x.Owns b → w.Owns b := fun x hx b hb => (hr.cover b).mp ⟨x, hx, hb⟩
  have hmem : ∀ x ∈ pre ++ new ++ post, x ∈ new ∨ x ∈ pre ++ w :: post := by
    intro x hx
    simp only [List.mem_append, List.mem_cons] at hx ⊢
    tauto
  have hp := h.disjoint
  rw [List.pairwise_append, List.pairwise_cons] at hp
  obtain ⟨hpre, ⟨hwpost, hpost⟩, hcross⟩ := hp
  refine ⟨fun x hx => (hmem x hx).elim (hr.valid x) (h.valid x),
    fun x hx => (hmem x hx).elim (hr.nonAliasing x) (h.nonAliasing x), ?_, fun b => ?_⟩
  · rw [List.append_assoc, List.pairwise_append, List.pairwise_append]
    refine ⟨hpre, ⟨hr.disjoint, hpost, fun x hx y hy b hxb => hwpost y hy b (hsub x hx b hxb)⟩,
      fun a ha x hx b hab hxb => ?_⟩
    rcases List.mem_append.mp hx with hx | hx
    · exact hcross a ha w (List.mem_cons_self _ _) b hab (hsub x hx b hxb)
    · exact hcross a ha x (List.mem_cons_of_mem _ hx) b hab hxb
  · rw [← h.cover b]
    simp only [List.mem_append, List.mem_cons, or_and_right, exists_or, exists_eq_left]
    rw [hr.cover b, or_assoc]

theorem step {S S' : List Live} (h : Inv lo hi v₀ S) (hs : Step S S') : Inv lo hi v₀ S' := by
  cases hs with
  | @mk pre post w new hop =>
    have hw : w ∈ pre ++ w :: post := List.mem_append_right _ (List.mem_cons_self _ _)
    exact h.replace (hop.replaces (h.valid w hw) (h.nonAliasing w hw))

/-! Every call the runs allow is a step: on a live view of a run, `split_at` with
its axis and index in range, `split_complex` of elements `Complex<T>` and `cast` to a
type of the same size all return. -/

variable {pre post : List Live} {w : Live}

theorem step_splitAt (h : Inv lo hi v₀ (pre ++ w :: post)) {axis index : Nat}
    (ha : axis < w.view.dim.length) (hk : index ≤ w.view.dim.getD axis 0) :
    ∃ l r, Step (pre ++ w :: post) (pre ++ [⟨w.elem, l⟩, ⟨w.elem, r⟩] ++ post) := by
  obtain ⟨-, l, r, hres, -⟩ :=
    (RawArrayViewMut.opsKeepValid (h.valid w (by simp))).split_at axis index ha hk
  exact ⟨l, r, .mk pre post (.splitAt hres)⟩

theorem step_splitComplex (h : Inv lo hi v₀ (pre ++ w :: post)) {T : Layout}
    (hC : w.elem.IsComplexOf T) :
    ∃ c : Complex RawArrayViewMut, Step (pre ++ w :: post) (pre ++ [⟨T, c.re⟩, ⟨T, c.im⟩] ++ post) := by
  obtain ⟨-, c, hres, -⟩ := (RawArrayViewMut.opsKeepValid (h.valid w (by simp))).split_complex T hC
  exact ⟨c, .mk pre post (.splitComplex hres)⟩

theorem step_cast (h : Inv lo hi v₀ (pre ++ w :: post)) {B : Layout} (hB : B.size = w.elem.size) :
    ∃ v, Step (pre ++ w :: post) (pre ++ [⟨B, v⟩] ++ post) := by
  obtain ⟨v, hres, -⟩ := (RawArrayViewMut.opsKeepValid (h.valid w (by simp))).cast B hB
  exact ⟨v, .mk pre post (.cast hres)⟩

end Inv

theorem Reachable.inv {lo hi : Int} {v₀ : Live} {S : List Live} (hS : Reachable v₀ S)
    (hv : Valid v₀.elem lo hi v₀.view) (hn : v₀.NonAliasing) : Inv lo hi v₀ S := by
  induction hS with
  | init => exact .init hv hn
  | step _ hs ih => exact ih.step hs

/-- **Live mutable views never alias.** From one mutable view valid for an allocation
and without aliasing, after any run of `split_at`, `split_complex` and `cast`, no two
elements of live views share a byte, within a view or across views, and together
they own exactly the bytes of the first view. -/
theorem live_views_partition (lo hi : Int) (v₀ : Live) (hv : Valid v₀.elem lo hi v₀.view)
    (hn : v₀.NonAliasing) (S : List Live) (hS : Reachable v₀ S) :
    (∀ w ∈ S, w.NonAliasing) ∧ S.Pairwise Live.Disjoint ∧ ∀ b, (∃ w ∈ S, w.Owns b) ↔ v₀.Owns b :=
  have h := hS.inv hv hn
  ⟨h.nonAliasing, h.disjoint, h.cover⟩

/-- Two four-byte elements in a row at address 4096. -/
def twoWords : Live := ⟨word, ⟨4096, [2], [1], rfl⟩⟩

/-- The halves of `twoWords` split at index 1. -/
def twoHalves : List Live := [⟨word, ⟨4096, [1], [1], rfl⟩⟩, ⟨word, ⟨4100, [1], [1], rfl⟩⟩]

theorem live_views_partition_halves :
    Valid twoWords.elem 4096 4104 twoWords.view ∧ twoWords.NonAliasing ∧ Reachable twoWords twoHalves ∧
      ((∀ w ∈ twoHalves, w.NonAliasing) ∧ twoHalves.Pairwise Live.Disjoint ∧
        ∀ b, (∃ w ∈ twoHalves, w.Owns b) ↔ twoWords.Owns b) :=
  have hS : Reachable twoWords twoHalves := .step .init (.mk [] [] (@Op.splitAt twoWords 0 1 _ _ rfl))
  ⟨by decide, by decide, hS, live_views_partition 4096 4104 twoWords (by decide) (by decide) twoHalves hS⟩

end RawViews
