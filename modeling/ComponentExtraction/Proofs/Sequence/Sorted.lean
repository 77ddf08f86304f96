import ComponentExtraction.Sequence.Sorted
import Mathlib.Data.List.Pairwise

/-!
# What sorting keeps

Sorting rearranges a list, and puts its elements in order where the comparison
is total and transitive. A list whose order is already strict is therefore what
sorting any rearrangement of it gives. Elements that are tied keep their order
(`filter_sort`), and an ordered list is determined by the order of the tied ones
(`eq_of_filter_key`).
-/

namespace ComponentExtraction

namespace Sequence

variable {α : Type} {le : α → α → Bool} {xs ys : List α}

theorem perm_insertSorted (le : α → α → Bool) (x : α) (xs : List α) :
    (insertSorted le x xs).Perm (x :: xs) := by
  induction xs with
  | nil => exact .refl _
  | cons y ys ih =>
    rw [insertSorted]
    split
    · exact .refl _
    · exact (ih.cons y).trans (.swap x y ys)

theorem perm_sort (le : α → α → Bool) (xs : List α) : (sort le xs).Perm xs := by
  induction xs with
  | nil => exact .refl _
  | cons x xs ih => exact (perm_insertSorted le x (sort le xs)).trans (ih.cons x)

theorem before_or_behind {lt : α → α → Prop} {x y : α} (ordered : xs.Pairwise lt) (hx : x ∈ xs)
    (hy : y ∈ xs) (differ : x ≠ y) : lt x y ∨ lt y x := by
  have : Std.Symm fun x y => lt x y ∨ lt y x := ⟨fun _ _ => Or.symm⟩
  have either : xs.Pairwise fun x y => lt x y ∨ lt y x := ordered.imp .inl
  exact either.forall hx hy differ

section Stable

variable {p : α → Bool}

theorem filter_insertSorted {x : α} (tied : ∀ y, p x = true → p y = true → le x y = true)
    (ys : List α) : (insertSorted le x ys).filter p = (x :: ys).filter p := by
  induction ys with
  | nil => rfl
  | cons y ys ih =>
    rw [insertSorted]
    split
    · rfl
    · next behind =>
      -- What the element moves past is not tied with it.
      have passed : p x = true → p y = false := fun hx =>
        Bool.eq_false_iff.mpr fun hy => behind (tied y hx hy)
      rw [List.filter_cons, ih]
      cases hx : p x with
      | true => simp [hx, passed hx]
      | false => simp only [List.filter_cons, hx, Bool.false_eq_true, if_false]

/-- Sorting keeps the order of elements that are tied. -/
theorem filter_sort (tied : ∀ x y, p x = true → p y = true → le x y = true) (xs : List α) :
    (sort le xs).filter p = xs.filter p := by
  induction xs with
  | nil => rfl
  | cons x xs ih =>
    rw [sort, filter_insertSorted (tied x), List.filter_cons, ih, ← List.filter_cons]

variable {κ : Type} [DecidableEq κ]

theorem mem_iff_of_filter_key (key : α → κ)
    (same : ∀ k, xs.filter (fun x => key x = k) = ys.filter fun y => key y = k) (x : α) :
    x ∈ xs ↔ x ∈ ys := by
  have member := congrArg (x ∈ ·) (same (key x))
  simpa using member

/-- In an ordered list only elements with the same key can change places. -/
theorem eq_of_filter_key (key : α → κ)
    (antisymm : ∀ x y, le x y = true → le y x = true → key x = key y)
    (ordered : xs.Pairwise fun x y => le x y = true)
    (ordered' : ys.Pairwise fun x y => le x y = true)
    (same : ∀ k, xs.filter (fun x => key x = k) = ys.filter fun y => key y = k) : xs = ys := by
  induction xs generalizing ys with
  | nil =>
    refine (List.eq_nil_iff_forall_not_mem.mpr fun y member => ?_).symm
    exact absurd ((mem_iff_of_filter_key key same y).mpr member) List.not_mem_nil
  | cons x xs ih =>
    have listed := mem_iff_of_filter_key key same
    cases ys with
    | nil => exact absurd ((listed x).mp List.mem_cons_self) List.not_mem_nil
    | cons y ys =>
      obtain ⟨first, later⟩ := List.pairwise_cons.mp ordered
      obtain ⟨first', later'⟩ := List.pairwise_cons.mp ordered'
      have heads : x = y := by
        rcases List.mem_cons.mp ((listed x).mp List.mem_cons_self) with rfl | behind
        · rfl
        · rcases List.mem_cons.mp ((listed y).mpr List.mem_cons_self) with rfl | behind'
          · rfl
          · have tied := antisymm x y (first y behind') (first' x behind)
            have front := same (key x)
            rw [List.filter_cons_of_pos (by simp),
              List.filter_cons_of_pos (by simp [tied])] at front
            exact (List.cons.inj front).1
      subst heads
      have rest : ∀ k, xs.filter (fun x => key x = k) = ys.filter fun y => key y = k := by
        intro k
        have front := same k
        rw [List.filter_cons, List.filter_cons] at front
        split at front
        · exact (List.cons.inj front).2
        · exact front
      rw [ih later later' rest]

end Stable

section Order

variable (total : ∀ x y, le x y = true ∨ le y x = true)
variable (trans : ∀ x y z, le x y = true → le y z = true → le x z = true)

include total trans

theorem pairwise_insertSorted (x : α) (sorted : xs.Pairwise fun y z => le y z = true) :
    (insertSorted le x xs).Pairwise fun y z => le y z = true := by
  induction xs with
  | nil => exact List.pairwise_singleton _ _
  | cons y ys ih =>
    obtain ⟨first, rest⟩ := List.pairwise_cons.mp sorted
    rw [insertSorted]
    split
    · next before =>
      refine List.Pairwise.cons ?_ sorted
      intro z member
      rcases List.mem_cons.mp member with rfl | member
      · exact before
      · exact trans x y z before (first z member)
    · next behind =>
      refine List.Pairwise.cons ?_ (ih rest)
      intro z member
      rcases List.mem_cons.mp ((perm_insertSorted le x ys).subset member) with rfl | member
      · exact (total z y).resolve_left behind
      · exact first z member

theorem pairwise_sort (xs : List α) : (sort le xs).Pairwise fun y z => le y z = true := by
  induction xs with
  | nil => exact .nil
  | cons x xs ih => exact pairwise_insertSorted total trans x ih

/-- A strictly ordered list is what sorting gives for every rearrangement of it. -/
theorem sort_eq_of_perm {lt : α → α → Prop} (perm : xs.Perm ys) (ordered : ys.Pairwise lt)
    (weaken : ∀ x y, lt x y → le x y = true) (asymm : ∀ x y, lt x y → ¬ le y x = true) :
    sort le xs = ys := by
  refine ((perm_sort le xs).trans perm).eq_of_pairwise ?_ (pairwise_sort total trans xs)
    (ordered.imp fun before => weaken _ _ before)
  intro x y member member' forth back
  by_cases same : x = y
  · exact same
  · have listed := ((perm_sort le xs).trans perm).subset member
    rcases before_or_behind ordered listed member' same with before | behind
    · exact absurd back (asymm x y before)
    · exact absurd forth (asymm y x behind)

end Order

end Sequence

end ComponentExtraction
