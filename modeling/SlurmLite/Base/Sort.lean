import Mathlib

/-!
# Sorting with a comparison that changes its arguments

A C comparison function receives pointers, and may leave other values behind
than it compared. `ok` says which elements it may be given, and `touched x x'`
that `x'` is `x` after any number of comparisons.

* **Specification** (`Sorts`): the result rearranges the input, up to what the
  comparisons did to its elements, and is in order when the comparison is
  consistent: its answers are those of one total order on the input, whatever
  earlier comparisons did.
* **Instance** (`insertionSort_sorts`): insertion sort, threading what each
  comparison leaves behind, meets the specification.
-/

namespace Base.Sort

variable {α : Type} (cmp : α → α → Int × α × α) (touched : α → α → Prop) (ok : α → Prop)

/-- The answers of a comparison are those of the total order `le`, also for
elements that earlier comparisons changed. -/
structure Answers (le : α → α → Prop) (xs : List α) : Prop where
  total : ∀ x ∈ xs, ∀ y ∈ xs, le x y ∨ le y x
  trans : ∀ x ∈ xs, ∀ y ∈ xs, ∀ z ∈ xs, le x y → le y z → le x z
  decides : ∀ x ∈ xs, ∀ y ∈ xs, ∀ x' y', touched x x' → touched y y' →
    ((cmp x' y').1 ≤ 0 ↔ le x y)

/-- The comparison is that of some total order. -/
def Consistent (xs : List α) : Prop := ∃ le, Answers cmp touched le xs

/-- What is documented of `qsort`. -/
structure Sorts (qsort : List α → List α) : Prop where
  rearranges : ∀ xs, (∀ x ∈ xs, ok x) → ∃ ys, ys.Perm xs ∧ List.Forall₂ touched ys (qsort xs)
  sorted : ∀ xs, (∀ x ∈ xs, ok x) → Consistent cmp touched xs →
    (qsort xs).Pairwise fun x y => (cmp x y).1 ≤ 0

variable {cmp touched ok}

theorem Answers.mono {le : α → α → Prop} {xs ys : List α} (h : Answers cmp touched le xs)
    (hsub : ∀ y ∈ ys, y ∈ xs) : Answers cmp touched le ys :=
  ⟨fun x hx y hy => h.total x (hsub x hx) y (hsub y hy),
    fun x hx y hy z hz => h.trans x (hsub x hx) y (hsub y hy) z (hsub z hz),
    fun x hx y hy => h.decides x (hsub x hx) y (hsub y hy)⟩

/-- The order of the originals is the order of what they were changed to. -/
theorem Answers.pairwise {le : α → α → Prop} {xs xs' : List α}
    (hxs : List.Forall₂ touched xs xs') (h : Answers cmp touched le xs)
    (hord : xs.Pairwise le) : xs'.Pairwise fun x y => (cmp x y).1 ≤ 0 := by
  induction hxs with
  | nil => exact .nil
  | @cons x x' xs xs' hx hrest ih =>
    obtain ⟨hall, hord⟩ := List.pairwise_cons.mp hord
    refine List.pairwise_cons.mpr ⟨fun w' hw' => ?_, ?_⟩
    · obtain ⟨i, hi, rfl⟩ := List.getElem_of_mem hw'
      have hi' : i < xs.length := by rw [hrest.length_eq]; exact hi
      have hw : touched xs[i] xs'[i] := hrest.get hi' hi
      exact (h.decides x (by simp) xs[i] (by simp) _ _ hx hw).mpr
        (hall _ (List.getElem_mem hi'))
    · exact ih (h.mono fun y hy => by simp [hy]) hord

/-! ## Insertion sort -/

variable (cmp) in
/-- Insert `x` before the first element it does not exceed. -/
def insertBy (x : α) : List α → List α
  | [] => [x]
  | y :: ys =>
    let c := cmp x y
    if c.1 ≤ 0 then c.2.1 :: c.2.2 :: ys else c.2.2 :: insertBy c.2.1 ys

variable (cmp) in
/-- Insertion sort. -/
def insertionSort : List α → List α
  | [] => []
  | x :: xs => insertBy cmp x (insertionSort xs)

section
variable (hok : ∀ x y, touched x y → ok x → ok y)
  (htrans : ∀ x y z, touched x y → touched y z → touched x z)
  (hcmp : ∀ x y, ok x → ok y → touched x (cmp x y).2.1 ∧ touched y (cmp x y).2.2)
include hok htrans hcmp

/-- Inserting what `x` was changed to into what `ys` was changed to. -/
theorem insertBy_touched {x x' : α} {ys ys' : List α} (hx : touched x x')
    (hys : List.Forall₂ touched ys ys') (hxs : ∀ z ∈ x :: ys, ok z) :
    ∃ zs, zs.Perm (x :: ys) ∧ List.Forall₂ touched zs (insertBy cmp x' ys') ∧
      ∀ le, Answers cmp touched le (x :: ys) → ys.Pairwise le → zs.Pairwise le := by
  induction hys generalizing x x' with
  | nil =>
    refine ⟨[x], .refl _, .cons hx .nil, ?_⟩
    intro le _ _
    exact List.pairwise_singleton le x
  | @cons y y' ys ys' hy hrest ih =>
    obtain ⟨hx', hy'⟩ := hcmp x' y' (hok _ _ hx (hxs x (by simp)))
      (hok _ _ hy (hxs y (by simp)))
    have hxt := htrans _ _ _ hx hx'
    have hyt := htrans _ _ _ hy hy'
    have hsub : ∀ z ∈ x :: ys, z ∈ x :: y :: ys := by
      intro z hz
      rcases List.mem_cons.mp hz with rfl | hz
      · simp
      · simp [hz]
    by_cases hle : (cmp x' y').1 ≤ 0
    · refine ⟨x :: y :: ys, .refl _, ?_, ?_⟩
      · rw [insertBy, if_pos hle]
        exact .cons hxt (.cons hyt hrest)
      · intro le h hord
        have hxy : le x y := (h.decides x (by simp) y (by simp) x' y' hx hy).mp hle
        refine List.pairwise_cons.mpr ⟨fun z hz => ?_, hord⟩
        rcases List.mem_cons.mp hz with rfl | hz
        · exact hxy
        · exact h.trans x (by simp) y (by simp) z (by simp [hz]) hxy
            ((List.pairwise_cons.mp hord).1 z hz)
    · obtain ⟨zs, hperm, hzs, hsort⟩ := ih hxt fun z hz => hxs z (hsub z hz)
      refine ⟨y :: zs, (hperm.cons y).trans (List.Perm.swap x y ys), ?_, ?_⟩
      · rw [insertBy, if_neg hle]
        exact .cons hyt hzs
      · intro le h hord
        have hnot : ¬ le x y := fun hxy =>
          hle ((h.decides x (by simp) y (by simp) x' y' hx hy).mpr hxy)
        have hyx : le y x := (h.total x (by simp) y (by simp)).resolve_left hnot
        obtain ⟨hyall, hys⟩ := List.pairwise_cons.mp hord
        refine List.pairwise_cons.mpr ⟨fun z hz => ?_, hsort le (h.mono hsub) hys⟩
        rcases List.mem_cons.mp (hperm.mem_iff.mp hz) with rfl | hz
        · exact hyx
        · exact hyall z hz

/-- Insertion sort meets the specification of `qsort`. -/
theorem insertionSort_sorts (hrefl : ∀ x, touched x x) :
    Sorts cmp touched ok (insertionSort cmp) := by
  have hall : ∀ xs, (∀ x ∈ xs, ok x) →
      ∃ zs, zs.Perm xs ∧ List.Forall₂ touched zs (insertionSort cmp xs) ∧
        ∀ le, Answers cmp touched le xs → zs.Pairwise le := by
    intro xs
    induction xs with
    | nil => exact fun _ => ⟨[], .refl _, .nil, fun _ _ => .nil⟩
    | cons x xs ih =>
      intro hxs
      obtain ⟨ys, hperm, hys, hsort⟩ := ih fun z hz => hxs z (by simp [hz])
      have hcons : ∀ z ∈ x :: ys, z ∈ x :: xs := fun z hz => (hperm.cons x).mem_iff.mp hz
      obtain ⟨zs, hperm', hzs, hins⟩ := insertBy_touched hok htrans hcmp (hrefl x) hys
        fun z hz => hxs z (hcons z hz)
      refine ⟨zs, hperm'.trans (hperm.cons x), hzs, fun le h => ?_⟩
      exact hins le (h.mono hcons) (hsort le (h.mono fun z hz => by simp [hz]))
  refine ⟨fun xs hxs => ?_, fun xs hxs hcons => ?_⟩
  · obtain ⟨zs, hperm, hzs, -⟩ := hall xs hxs
    exact ⟨zs, hperm, hzs⟩
  · obtain ⟨le, h⟩ := hcons
    obtain ⟨zs, hperm, hzs, hsort⟩ := hall xs hxs
    exact (h.mono fun z hz => hperm.mem_iff.mp hz).pairwise hzs (hsort le h)

end

end Base.Sort
