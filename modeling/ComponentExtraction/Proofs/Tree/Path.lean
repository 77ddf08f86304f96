import ComponentExtraction.Proofs.Tree.Heads

/-!
# Ways down the first children

Whatever follows a reference or a call in its chain becomes its parent, of which it is
the first child. So the parts of a chain stand on one way down first children, which
ends at a leaf (`Occurrence.Leads`). Of the nodes of some kinds on such a way there is an
innermost one, and all nodes of these kinds on the way have the same
(`Occurrence.IsInnermost`).

What lies below a node but not on its way stands behind all of the way that does not lie
above it.
-/

namespace ComponentExtraction

open Node

namespace Occurrence

variable {t : Template} {o p q m : Occurrence} {accept : Kind → Bool}

theorem eq_or_below_of_address {path : Address} (address_eq : o.address = path ++ p.address) :
    o.address = p.address ∨ o.Below p := by
  cases path with
  | nil => exact .inl address_eq
  | cons position path => exact .inr ⟨position, path, address_eq⟩

theorem leftmostLeaf_eq_of_first (first : p.node.children[0]? = some o.node)
    (address_eq : o.address = 0 :: p.address) : p.leftmostLeaf = o.leftmostLeaf := by
  obtain ⟨address, kind, span, children⟩ := p
  cases children with
  | nil => exact absurd first (by simp)
  | cons child children =>
    simp only [children_mk, List.getElem?_cons_zero, Option.some.injEq] at first
    rw [leftmostLeaf, leftmostLeaf, address_eq, ← first]
    rfl

/-- One occurrence is another one, or is reached from it through first
children. On such a way lie the parts of one chain of members and calls. -/
def Leads (o p : Occurrence) : Prop :=
  ∃ path : Address, (∀ position ∈ path, position = 0) ∧ p.address = path ++ o.address

mutual

theorem exists_zeros_leafAddress (address : Address) (node : Node) :
    ∃ path, (∀ position ∈ path, position = 0) ∧ leafAddress address node = path ++ address := by
  cases node with
  | mk kind span children => exact exists_zeros_leafAddressAll address children

theorem exists_zeros_leafAddressAll (address : Address) (nodes : List Node) :
    ∃ path, (∀ position ∈ path, position = 0) ∧ leafAddressAll address nodes = path ++ address := by
  cases nodes with
  | nil => exact ⟨[], by simp, rfl⟩
  | cons node nodes =>
    obtain ⟨path, zeros, path_eq⟩ := exists_zeros_leafAddress (0 :: address) node
    refine ⟨path ++ [0], ?_, ?_⟩
    · exact List.forall_mem_append.mpr ⟨zeros, by simp⟩
    · rw [leafAddressAll, path_eq, List.append_assoc]
      rfl

end

theorem Leads.leftmostLeaf_eq (h : o.Leads p) (ho : t.Contains o) (hp : t.Contains p) :
    o.leftmostLeaf = p.leftmostLeaf := by
  obtain ⟨path, zeros, address_eq⟩ := h
  induction path generalizing p with
  | nil => rw [ho.ext hp address_eq.symm]
  | cons position path ih =>
    obtain ⟨rfl, zeros'⟩ := List.forall_mem_cons.mp zeros
    obtain ⟨above, above_held, above_eq, child⟩ := hp.exists_parent address_eq
    rw [ih above_held zeros' above_eq]
    exact leftmostLeaf_eq_of_first child (by rw [address_eq, above_eq]; rfl)

theorem exists_leftmostLeaf (o : Occurrence) : ∃ path, o.leftmostLeaf = path ++ o.address := by
  obtain ⟨path, -, leaf_eq⟩ := exists_zeros_leafAddress o.address o.node
  exact ⟨path, leaf_eq⟩

namespace Leads

theorem refl (o : Occurrence) : o.Leads o :=
  ⟨[], by simp, rfl⟩

theorem trans (h : o.Leads p) (h' : p.Leads q) : o.Leads q := by
  obtain ⟨path, zeros, p_eq⟩ := h
  obtain ⟨path', zeros', q_eq⟩ := h'
  exact ⟨path' ++ path, List.forall_mem_append.mpr ⟨zeros', zeros⟩, by simp [p_eq, q_eq]⟩

theorem suffix (h : o.Leads p) : o.address <:+ p.address := by
  obtain ⟨path, -, address_eq⟩ := h
  exact ⟨path, address_eq.symm⟩

theorem eq_or_below (h : o.Leads p) (ho : t.Contains o) (hp : t.Contains p) :
    p = o ∨ p.Below o := by
  obtain ⟨path, -, address_eq⟩ := h
  exact (eq_or_below_of_address address_eq).imp_left (hp.ext ho)

/-- Of two nodes on the way down from a third one leads to the other. -/
theorem total (h : o.Leads p) (h' : o.Leads q) : p.Leads q ∨ q.Leads p := by
  obtain ⟨path, zeros, p_eq⟩ := h
  obtain ⟨path', zeros', q_eq⟩ := h'
  rw [List.eq_replicate_of_mem zeros] at p_eq
  rw [List.eq_replicate_of_mem zeros'] at q_eq
  have later : ∀ {n m : Nat} {x y : Occurrence}, n ≤ m →
      x.address = List.replicate n 0 ++ o.address →
      y.address = List.replicate m 0 ++ o.address → x.Leads y := by
    intro n m x y less x_eq y_eq
    refine ⟨List.replicate (m - n) 0, fun _ member => List.eq_of_mem_replicate member, ?_⟩
    rw [x_eq, y_eq, ← List.append_assoc, List.replicate_append_replicate,
      Nat.sub_add_cancel less]
  rcases Nat.le_total path.length path'.length with less | less
  · exact .inl (later less p_eq q_eq)
  · exact .inr (later less q_eq p_eq)

theorem of_between (h : o.Leads q) (below : p.Below o) (above : q = p ∨ q.Below p) :
    o.Leads p := by
  obtain ⟨path, zeros, q_eq⟩ := h
  obtain ⟨i, between, p_eq⟩ := below
  obtain ⟨path', q_eq'⟩ : ∃ path', q.address = path' ++ p.address := by
    rcases above with rfl | ⟨j, path', q_eq'⟩
    · exact ⟨[], rfl⟩
    · exact ⟨j :: path', q_eq'⟩
  refine ⟨i :: between, fun position member => zeros position ?_, p_eq⟩
  have path_eq : path = path' ++ i :: between := by
    refine List.append_cancel_right (?_ : path ++ o.address = path' ++ i :: between ++ o.address)
    rw [← q_eq, q_eq', p_eq, List.append_assoc]
  rw [path_eq]
  exact List.mem_append_right path' member

/-- A node on the way down is the start of the way, or the first child of another node
on it. -/
theorem cases_last (h : o.Leads p) (ho : t.Contains o) (hp : t.Contains p) : p = o ∨
    ∃ above, t.Contains above ∧ o.Leads above ∧ p.address = 0 :: above.address ∧
      above.node.children[0]? = some p.node := by
  obtain ⟨path, zeros, address_eq⟩ := h
  cases path with
  | nil => exact .inl (hp.ext ho address_eq)
  | cons position path =>
    obtain ⟨rfl, zeros'⟩ := List.forall_mem_cons.mp zeros
    obtain ⟨above, held, above_eq, child⟩ := hp.exists_parent address_eq
    exact .inr ⟨above, held, ⟨path, zeros', above_eq⟩, by rw [address_eq, above_eq]; rfl, child⟩

/-- A way down never enters the arguments of a call, nor the name of a pipe. -/
theorem kind_leads (h : o.Leads p) (headed : Everywhere Headed t.root) (ho : t.Contains o)
    (hp : t.Contains p) (lower : p ≠ o) : p.kind.leads = true := by
  rcases h.cases_last ho hp with same | ⟨above, held, -, -, child⟩
  · exact absurd same lower
  · refine (headed.of_contains held).here.leads _ ?_
    rw [List.head?_eq_getElem?]
    exact child

end Leads

theorem exists_leaf (held : t.Contains o) : ∃ leaf, t.Contains leaf ∧
    leaf.address = o.leftmostLeaf ∧ o.Leads leaf ∧ leaf.node.children = [] := by
  -- Induction on how far above its first leaf a node stands.
  induction distance_eq : o.leftmostLeaf.length - o.address.length using Nat.strongRecOn
    generalizing o with
  | _ distance ih =>
    cases children_eq : o.node.children with
    | nil =>
      obtain ⟨address, kind, span, children⟩ := o
      cases children_eq
      exact ⟨_, held, rfl, .refl _, rfl⟩
    | cons first rest =>
      have found : o.node.children[0]? = some first := by rw [children_eq]; rfl
      let child : Occurrence := ⟨0 :: o.address, first⟩
      have child_held : t.Contains child := by
        rw [Template.Contains, Template.node?_cons, held]
        exact found
      have leaf_eq : o.leftmostLeaf = child.leftmostLeaf := leftmostLeaf_eq_of_first found rfl
      obtain ⟨path, path_eq⟩ := child.exists_leftmostLeaf
      have shorter : child.leftmostLeaf.length - child.address.length < distance := by
        rw [← distance_eq, leaf_eq, path_eq, List.length_append]
        simp only [child, List.length_cons]
        omega
      obtain ⟨leaf, leaf_held, address_eq, leads, ends⟩ := ih _ shorter child_held rfl
      refine ⟨leaf, leaf_held, address_eq.trans leaf_eq.symm, Leads.trans ⟨[0], by simp, rfl⟩ leads,
        ends⟩

/-- What does not change on the way from a node up to the start of its way down is the
same at both. -/
theorem Leads.eq_of_climb {α : Type} {f : Address → α} (h : o.Leads p) (ho : t.Contains o)
    (hp : t.Contains p) (steps : ∀ q, t.Contains q → o.Leads q → q.Below o →
      ∀ parent, q.address = 0 :: parent → f q.address = f parent) : f p.address = f o.address := by
  have ⟨path, zeros, address_eq⟩ := h
  induction path generalizing p with
  | nil => rw [address_eq, List.nil_append]
  | cons position path ih =>
    rcases h.cases_last ho hp with rfl | ⟨above, held, leads, above_eq, -⟩
    · rfl
    · have zeros' := (List.forall_mem_cons.mp zeros).2
      rw [steps p hp h ⟨position, path, address_eq⟩ _ above_eq]
      refine ih leads held zeros' ?_
      rw [above_eq, List.cons_append, List.cons.injEq] at address_eq
      exact address_eq.2

/-- Of the nodes of accepted kinds on the way down from a node, one is the innermost. -/
structure IsInnermost (t : Template) (accept : Kind → Bool) (o m : Occurrence) : Prop where
  contains : t.Contains m
  leads : o.Leads m
  accepted : accept m.kind = true
  last : ∀ p, t.Contains p → m.Leads p → accept p.kind = true → p = m

theorem exists_isInnermost (accept : Kind → Bool) (held : t.Contains o) (accepted : accept o.kind = true) :
    ∃ m, IsInnermost t accept o m := by
  -- Induction on how far above its first leaf a node stands.
  induction distance_eq : o.leftmostLeaf.length - o.address.length using Nat.strongRecOn
    generalizing o with
  | _ distance ih =>
    by_cases deeper : ∃ p, t.Contains p ∧ o.Leads p ∧ accept p.kind = true ∧ p ≠ o
    · obtain ⟨p, hp, leads, accepted', lower⟩ := deeper
      have below := (leads.eq_or_below held hp).resolve_left lower
      have leaf_eq := leads.leftmostLeaf_eq held hp
      obtain ⟨path, path_eq⟩ := p.exists_leftmostLeaf
      have shorter : p.leftmostLeaf.length - p.address.length < distance := by
        have := below.length_lt
        rw [← distance_eq, leaf_eq, path_eq, List.length_append]
        omega
      obtain ⟨m, innermost⟩ := ih _ shorter hp accepted' rfl
      exact ⟨m, innermost.contains, leads.trans innermost.leads, innermost.accepted,
        innermost.last⟩
    · refine ⟨o, held, .refl o, accepted, fun p hp leads accepted' => ?_⟩
      exact Classical.byContradiction fun lower => deeper ⟨p, hp, leads, accepted', lower⟩

namespace IsInnermost

variable {m' : Occurrence}

theorem unique (h : IsInnermost t accept o m) (h' : IsInnermost t accept o m') : m = m' := by
  rcases h.leads.total h'.leads with leads | leads
  · exact (h.last m' h'.contains leads h'.accepted).symm
  · exact h'.last m h.contains leads h.accepted

theorem of_leads (h : IsInnermost t accept p m) (leads : o.Leads p) : IsInnermost t accept o m :=
  ⟨h.contains, leads.trans h.leads, h.accepted, h.last⟩

theorem of_accepted (h : IsInnermost t accept o m) (leads : o.Leads p) (hp : t.Contains p)
    (accepted : accept p.kind = true) : IsInnermost t accept p m := by
  refine ⟨h.contains, ?_, h.accepted, h.last⟩
  rcases leads.total h.leads with forth | back
  · exact forth
  · rw [h.last p hp back accepted]
    exact .refl m

theorem rejected (h : IsInnermost t accept o m) (hp : t.Contains p) (leads : m.Leads p)
    (below : p.Below m) : accept p.kind = false := by
  refine Bool.eq_false_iff.mpr fun accepted => ?_
  cases h.last p hp leads accepted
  exact absurd below.length_lt (Nat.lt_irrefl _)

theorem of_rejected (hm : t.Contains m) (leads : o.Leads m) (accepted : accept m.kind = true)
    (rejected : ∀ p, t.Contains p → m.Leads p → p.Below m → accept p.kind = false) :
    IsInnermost t accept o m := by
  refine ⟨hm, leads, accepted, fun p hp onward accepted' => ?_⟩
  refine (onward.eq_or_below hm hp).resolve_right fun below => ?_
  exact absurd accepted' (by simp [rejected p hp onward below])

theorem self (h : IsInnermost t accept o m) : IsInnermost t accept m m :=
  ⟨h.contains, .refl m, h.accepted, h.last⟩

theorem eq_or_below (h : IsInnermost t accept o m) (ho : t.Contains o) : m = o ∨ m.Below o :=
  h.leads.eq_or_below ho h.contains

end IsInnermost

/-- What lies below a node but is not led to starts later. -/
theorem start_lt_of_not_leads (mirrors : t.Mirrors) (ho : t.Contains o) (hp : t.Contains p)
    (below : p.Below o) (astray : ¬ o.Leads p) : o.span.start < p.span.start := by
  obtain ⟨position, path, address_eq⟩ := below
  have turns : ∃ i ∈ position :: path, i ≠ 0 := by
    obtain ⟨i, kept⟩ := Classical.not_forall.mp
      fun zeros => astray ⟨position :: path, zeros, address_eq⟩
    exact ⟨i, Classical.not_imp.mp kept⟩
  clear astray
  -- Induction on the way up: either the last step leaves the first children, or an
  -- earlier one does.
  induction path generalizing p position with
  | nil =>
    obtain ⟨above, above_held, above_eq, child⟩ := hp.exists_parent address_eq
    cases above_held.ext ho above_eq
    cases position with
    | zero => simp at turns
    | succ position => exact mirrors.start_lt_of_later_child ho child
  | cons next path ih =>
    obtain ⟨above, above_held, above_eq, child⟩ := hp.exists_parent address_eq
    have covered := mirrors.covers_of_below ho above_held ⟨next, path, above_eq⟩
    have inside := mirrors.covers_of_child above_held child
    cases position with
    | zero =>
      obtain ⟨i, member, nonzero⟩ := turns
      have later : i ∈ next :: path := (List.mem_cons.mp member).resolve_left nonzero
      have := ih above_held next above_eq ⟨i, later, nonzero⟩
      omega
    | succ position =>
      have := mirrors.start_lt_of_later_child above_held child
      omega

/-- What stands further down the first children of a node ends before its later
children start. -/
theorem stop_le_start_of_turn (mirrors : t.Mirrors) (ho : t.Contains o) (hm : t.Contains m)
    (leads : o.Leads m) (lower : m ≠ o) {position : Nat}
    (child : o.node.children[position + 1]? = some p.node) : m.span.stop ≤ p.span.start := by
  obtain ⟨path, zeros, address_eq⟩ := leads
  rcases List.eq_nil_or_concat path with rfl | ⟨path, last, rfl⟩
  · exact absurd (hm.ext ho address_eq) lower
  · obtain rfl : last = 0 := zeros last (by simp)
    obtain ⟨first, first_held, first_eq, relation⟩ :=
      hm.exists_above (show m.address = path ++ 0 :: o.address by simpa using address_eq)
    obtain ⟨above, above_held, above_eq, first_child⟩ := first_held.exists_parent first_eq
    cases above_held.ext ho above_eq
    have covered := mirrors.covers first_held hm relation
    have ordered := mirrors.stop_le_start_of_children ho first_child child (Nat.succ_pos position)
    exact Nat.le_trans covered.2 ordered

/-- What lies below a node but not on its way down stands behind every node on the way
that does not lie above it. -/
theorem stop_le_start_of_not_leads (mirrors : t.Mirrors) (ho : t.Contains o) (hp : t.Contains p)
    (hm : t.Contains m) (below : p.Below o) (astray : ¬ o.Leads p) (leads : o.Leads m)
    (apart : ¬ p.Below m) : m.span.stop ≤ p.span.start := by
  obtain ⟨position, path, address_eq⟩ := below
  -- Induction on the way up from `p` to where it leaves the first children.
  induction path generalizing p position with
  | nil =>
    obtain ⟨above, above_held, above_eq, child⟩ := hp.exists_parent address_eq
    cases above_held.ext ho above_eq
    cases position with
    | zero => exact absurd ⟨[0], by simp, address_eq⟩ astray
    | succ position =>
      refine stop_le_start_of_turn mirrors ho hm leads ?_ child
      rintro rfl
      exact apart ⟨position + 1, [], address_eq⟩
  | cons next path ih =>
    obtain ⟨above, above_held, above_eq, child⟩ := hp.exists_parent address_eq
    have step : p.Below above := .of_child (by rw [address_eq, above_eq]; rfl)
    have apart' : ¬ above.Below m := fun higher => apart (step.trans higher)
    by_cases reached : o.Leads above
    · -- Here the way is left, and `m` stands further down.
      have onward : above.Leads m := by
        refine (leads.total reached).resolve_left fun higher => ?_
        rcases higher.eq_or_below hm above_held with rfl | lower
        · exact apart step
        · exact apart' lower
      cases position with
      | zero =>
        exact absurd (reached.trans ⟨[0], by simp, by rw [address_eq, above_eq]; rfl⟩) astray
      | succ position =>
        refine stop_le_start_of_turn mirrors above_held hm onward ?_ child
        rintro rfl
        exact apart step
    · have covered := mirrors.covers_of_child above_held child
      exact Nat.le_trans (ih above_held reached apart' next above_eq) covered.1

end Occurrence

end ComponentExtraction
