import ComponentExtraction.Sequence.Distinct

/-!
# What keeping the first of each key keeps

An element survives `Sequence.distinctBy` exactly when it is the first of its
key, so looking a key up in the shortened list is looking it up in the whole
list. A list whose elements are determined by their keys loses nothing but
repetitions.
-/

namespace ComponentExtraction

namespace Sequence

variable {α κ : Type} [DecidableEq κ] {key : α → κ} {x : α} {xs : List α}

@[simp] theorem distinctBy_nil : distinctBy key [] = [] := rfl

@[simp] theorem distinctBy_cons :
    distinctBy key (x :: xs) = x :: (distinctBy key xs).filter fun y => key y ≠ key x := rfl

/-- Later elements give way to the first one of their key, and to no other. -/
theorem find?_distinctBy (key : α → κ) (xs : List α) (k : κ) :
    (distinctBy key xs).find? (fun y => key y = k) = xs.find? fun y => key y = k := by
  induction xs with
  | nil => rfl
  | cons x xs ih =>
    by_cases first : key x = k
    · rw [distinctBy_cons, List.find?_cons_of_pos (by simpa using first),
        List.find?_cons_of_pos (by simpa using first)]
    · have kept : ∀ y, (decide (decide (key y ≠ key x) = true ∧ decide (key y = k) = true)) =
          decide (key y = k) := by
        intro y
        by_cases same : key y = k
        · have other : key y ≠ key x := fun equal => first (equal ▸ same)
          simp only [same, decide_true, and_true]
          simpa [same] using other
        · simp [same]
      rw [distinctBy_cons, List.find?_cons_of_neg (by simpa using first),
        List.find?_cons_of_neg (by simpa using first), List.find?_filter]
      simp only [kept, ih]

/-- The elements that are kept are those that a search for their key finds. -/
theorem mem_distinctBy_iff :
    x ∈ distinctBy key xs ↔ xs.find? (fun y => key y = key x) = some x := by
  constructor
  · intro member
    induction xs with
    | nil => exact absurd member List.not_mem_nil
    | cons y xs ih =>
      rw [distinctBy_cons, List.mem_cons, List.mem_filter] at member
      rcases member with rfl | ⟨later, differ⟩
      · exact List.find?_cons_of_pos (by simp)
      · have passed : ¬ key y = key x := fun same => of_decide_eq_true differ same.symm
        rw [List.find?_cons_of_neg (by simpa using passed)]
        exact ih later
  · intro found
    rw [← find?_distinctBy] at found
    exact List.mem_of_find?_eq_some found

theorem mem_of_mem_distinctBy (member : x ∈ distinctBy key xs) : x ∈ xs :=
  List.mem_of_find?_eq_some (mem_distinctBy_iff.mp member)

theorem nodup_map_distinctBy (key : α → κ) (xs : List α) : ((distinctBy key xs).map key).Nodup := by
  induction xs with
  | nil => exact List.nodup_nil
  | cons x xs ih =>
    rw [distinctBy_cons, List.map_cons, List.nodup_cons]
    refine ⟨?_, ih.sublist (List.filter_sublist.map key)⟩
    intro listed
    obtain ⟨y, member, same⟩ := List.mem_map.mp listed
    exact of_decide_eq_true (List.mem_filter.mp member).2 same

theorem mem_map_distinctBy_iff {k : κ} : k ∈ (distinctBy key xs).map key ↔ k ∈ xs.map key := by
  induction xs with
  | nil => rfl
  | cons x xs ih =>
    rw [distinctBy_cons, List.map_cons, List.map_cons, List.mem_cons, List.mem_cons, ← ih]
    by_cases first : k = key x
    · simp [first]
    · have kept : ∀ y, key y = k → key y ≠ key x := fun y same other => first (same ▸ other)
      simp only [first, false_or, List.mem_map, List.mem_filter, decide_eq_true_eq]
      constructor
      · rintro ⟨y, ⟨member, -⟩, same⟩
        exact ⟨y, member, same⟩
      · rintro ⟨y, member, same⟩
        exact ⟨y, ⟨member, kept y same⟩, same⟩

/-- What is kept stays in order: up to where an element stands, no later one is met. -/
theorem pairwise_distinctBy (key : α → κ) (xs : List α) :
    (distinctBy key xs).Pairwise fun x y =>
      ∃ front, front <+: xs ∧ x ∈ front ∧ ∀ z ∈ front, key z ≠ key y := by
  induction xs with
  | nil => exact .nil
  | cons x xs ih =>
    rw [distinctBy_cons]
    have apart : ∀ y ∈ (distinctBy key xs).filter (fun y => key y ≠ key x), key x ≠ key y := by
      intro y member same
      exact of_decide_eq_true (List.mem_filter.mp member).2 same.symm
    constructor
    · intro y member
      exact ⟨[x], ⟨xs, rfl⟩, List.mem_singleton_self x,
        List.forall_mem_singleton.mpr (apart y member)⟩
    · apply (ih.filter _).imp_of_mem
      rintro y z - member ⟨front, front_prefix, listed, absent⟩
      exact ⟨x :: front, (List.prefix_cons_inj x).mpr front_prefix, List.mem_cons_of_mem x listed,
        List.forall_mem_cons.mpr ⟨apart z member, absent⟩⟩

theorem distinctBy_sublist (key : α → κ) (xs : List α) : (distinctBy key xs).Sublist xs := by
  induction xs with
  | nil => exact .slnil
  | cons x xs ih =>
    rw [distinctBy_cons]
    exact (List.filter_sublist.trans ih).cons_cons x

/-- A relation that holds in order between elements of different keys holds in order
between all elements that are kept. -/
theorem pairwise_distinctBy_of_ne {R : α → α → Prop}
    (ordered : xs.Pairwise fun x y => key x = key y ∨ R x y) : (distinctBy key xs).Pairwise R := by
  have apart : (distinctBy key xs).Pairwise fun x y => key x ≠ key y :=
    List.pairwise_map.mp (nodup_map_distinctBy key xs)
  refine (apart.and (ordered.sublist (distinctBy_sublist key xs))).imp ?_
  rintro x y ⟨differ, same | related⟩
  · exact absurd same differ
  · exact related

/-- Where the key determines the element, every element is kept. -/
theorem mem_distinctBy_of_injective (determined : ∀ y ∈ xs, ∀ z ∈ xs, key y = key z → y = z) :
    x ∈ distinctBy key xs ↔ x ∈ xs := by
  refine ⟨mem_of_mem_distinctBy, fun member => mem_distinctBy_iff.mpr ?_⟩
  cases found : xs.find? fun y => key y = key x with
  | none =>
    have absent := List.find?_eq_none.mp found x member
    simp at absent
  | some y =>
    have same : key y = key x := by simpa using List.find?_some found
    rw [determined y (List.mem_of_find?_eq_some found) x member same]

end Sequence

end ComponentExtraction
