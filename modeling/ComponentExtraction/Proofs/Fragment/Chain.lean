import ComponentExtraction.Proofs.Fragment.Calls
import ComponentExtraction.Proofs.Tree.Enumeration

/-!
# What stands for a chain

The parts of a chain of members, keys and calls stand on one way down first children, and
its innermost reference or call decides for all of them. A call that is replaced is the
innermost call of its way down (`mem_topLevelCalls_iff_isTopLevelCall`). A reference is stood
for by the innermost reference of its chain, unless a call comes below that one or it is not
bindable (`topLevelReference?_of_isInnermost`).

So each way down has at most one node in the lists of a fragment. As walks follow the source,
these lists are in the order of the source, and no two of their nodes start together
(`pairwise_start_lt`).
-/

namespace ComponentExtraction

open Node Occurrence

namespace Fragment

variable {t : Template} {o p q m m' root : Occurrence} {accept : Kind → Bool}

/-- Of nodes that a walk meets one after the other, what is innermost on the way down from
the later one is the same as for the earlier one, or starts later. -/
theorem eq_or_start_lt_of_isInnermost (mirrors : t.Mirrors) (ho : t.Contains o) (hp : t.Contains p)
    (walked : p.Below o ∨ o.span.stop ≤ p.span.start) (innermost : IsInnermost t accept o m)
    (innermost' : IsInnermost t accept p m') (accepted : accept p.kind = true)
    (solid : m.node.Solid) : m = m' ∨ m.span.start < m'.span.start := by
  have solid : m.span.start < m.span.stop := solid
  have outer := mirrors.covers ho innermost.contains (innermost.eq_or_below ho)
  have inner := mirrors.covers hp innermost'.contains (innermost'.eq_or_below hp)
  rcases walked with below | behind
  · by_cases leads : o.Leads p
    · exact .inl ((innermost.of_accepted leads hp accepted).unique innermost')
    · -- Behind the way down, or below a part of it that does not lead there.
      by_cases lower : p.Below m
      · have := start_lt_of_not_leads mirrors innermost.contains hp lower
          fun onward => leads (innermost.leads.trans onward)
        exact .inr (by omega)
      · have := stop_le_start_of_not_leads mirrors ho hp innermost.contains below leads
          innermost.leads lower
        exact .inr (by omega)
  · exact .inr (by omega)

/-- What is innermost on the ways down from some nodes below a root is listed in the order of
the source, each node once. -/
theorem pairwise_start_lt (accept : Kind → Bool) (mirrors : t.Mirrors) (held : t.Contains root)
    {keep : Occurrence → Bool} {find : Occurrence → Option Occurrence}
    (accepted : ∀ o, keep o = true → accept o.kind = true)
    (found : ∀ o m, t.Contains o → keep o = true → find o = some m →
      IsInnermost t accept o m ∧ m.node.Solid) :
    (Sequence.distinctBy Occurrence.address
      ((root.descendants.filter keep).filterMap find)).Pairwise
        fun m m' => m.span.start < m'.span.start := by
  apply Sequence.pairwise_distinctBy_of_ne
  refine List.pairwise_filterMap.mpr (((mirrors.pairwise_descendants held).filter _).imp_of_mem ?_)
  intro o p listed listed' walked m m_eq m' m'_eq
  obtain ⟨below, kept⟩ := List.mem_filter.mp listed
  obtain ⟨below', kept'⟩ := List.mem_filter.mp listed'
  have ho := contains_of_mem_descendants held below
  have hp := contains_of_mem_descendants held below'
  obtain ⟨innermost, solid⟩ := found o m ho kept m_eq
  obtain ⟨innermost', -⟩ := found p m' hp kept' m'_eq
  refine (eq_or_start_lt_of_isInnermost mirrors ho hp walked innermost innermost'
    (accepted p kept') solid).imp_left ?_
  rintro rfl
  rfl

/-- A call below `root` that no other one precedes in its chain, with no arguments between the
two. -/
structure IsTopLevelCall (t : Template) (root o : Occurrence) : Prop where
  below : o.Below root
  outside : ∀ list, t.Contains list → o.Below list → list.Below root → list.kind ≠ .argumentList
  innermost : IsInnermost t Kind.isCall o o

/-- The innermost call of a chain is in arguments only if the whole chain is. -/
theorem IsTopLevelCall.of_isInnermost (headed : Everywhere Headed t.root)
    (rooted : t.Contains root) (held : t.Contains o) (below : o.Below root)
    (call : o.kind.isCall = true) (outside : isInsideArguments t root o = false)
    (innermost : IsInnermost t Kind.isCall o m) : IsTopLevelCall t root m := by
  refine ⟨?_, ?_, innermost.self⟩
  · rcases innermost.eq_or_below held with rfl | lower
    · exact below
    · exact lower.trans below
  · intro list list_held lower inside arguments
    have differ : list ≠ o := by
      rintro rfl
      exact absurd call (by simp [arguments, Kind.isCall])
    rcases List.suffix_or_suffix_of_suffix lower.suffix innermost.leads.suffix with above | inner
    · obtain ⟨path, path_eq⟩ := above
      have higher : o.Below list := (eq_or_below_of_address path_eq.symm).resolve_left
        fun same => differ (list_held.ext held same.symm)
      have inside' := (isInsideArguments_iff held rooted below).mpr
        ⟨list, list_held, higher, inside, arguments⟩
      exact absurd (outside.symm.trans inside') (by simp)
    · obtain ⟨path, path_eq⟩ := inner
      have between : list.Below o := (eq_or_below_of_address path_eq.symm).resolve_left
        fun same => differ (list_held.ext held same)
      have leads := (innermost.leads.of_between between (.inr lower)).kind_leads headed held list_held
        differ
      exact absurd leads (by simp [arguments, Kind.leads])

theorem mem_topLevelCalls_iff_isTopLevelCall (headed : Everywhere Headed t.root)
    (rooted : t.Contains root) : p ∈ topLevelCalls t root ↔ IsTopLevelCall t root p := by
  rw [mem_topLevelCalls_iff]
  constructor
  · rintro ⟨o, listed, call, outside, found⟩
    obtain ⟨held, below⟩ := (mem_descendants_iff rooted).mp listed
    exact .of_isInnermost headed rooted held below call outside
      (isInnermost_of_nearestCall? held call found)
  · intro topLevel
    have held := topLevel.innermost.contains
    refine ⟨p, (mem_descendants_iff rooted).mpr ⟨held, topLevel.below⟩, topLevel.innermost.accepted,
      ?_, nearestCall?_of_isInnermost held topLevel.innermost⟩
    rw [← Bool.not_eq_true, isInsideArguments_iff held rooted topLevel.below]
    rintro ⟨list, list_held, above, inside, arguments⟩
    exact topLevel.outside list list_held above inside arguments

theorem IsTopLevelCall.start_lt (h : IsTopLevelCall t root o) (mirrors : t.Mirrors)
    (h' : IsTopLevelCall t root p) (below : p.Below o) : o.span.start < p.span.start := by
  apply start_lt_of_not_leads mirrors h.innermost.contains h'.innermost.contains below
  intro leads
  cases h.innermost.last p h'.innermost.contains leads h'.innermost.accepted
  exact absurd below.length_lt (Nat.lt_irrefl _)

def isChainKind (kind : Kind) : Bool :=
  kind.isReference || kind.isCall

/-- Going up passes over a node that is neither a reference nor a call nor the name of a
pipe, and is not the boundary. -/
theorem bindableAbove?_other {boundary : Option Address} {position i j : Nat} {parent : Address}
    (held : t.Contains o) (address_eq : o.address = position :: parent)
    (inside : some o.address ≠ boundary) (other : isChainKind o.kind = false)
    (pipe : o.kind.isPipeReference = false) :
    bindableAbove? t boundary (i :: o.address) = bindableAbove? t boundary (j :: parent) := by
  obtain ⟨reference, call⟩ : o.kind.isReference = false ∧ o.kind.isCall = false := by
    simpa [isChainKind] using other
  have unbindable : isBindable t o = false := by rw [isBindable, reference, Bool.false_and]
  rw [bindableAbove?, if_neg inside, held.occurrence?_eq]
  simp only [pipe, call, unbindable]
  rw [address_eq]
  rfl

/-- Nothing on the way down from a reference is the boundary of its search. -/
theorem ne_boundary_of_leads (leads : o.Leads p) : some p.address ≠ parentAddress? o.address := by
  have longer := leads.suffix.length_le
  cases address_eq : o.address with
  | nil => simp [parentAddress?]
  | cons position parent =>
    intro same
    rw [Option.some.inj same, address_eq, List.length_cons] at longer
    omega

/-- Above the innermost part of its chain, a reference that is not bindable finds only the call
that it belongs to. -/
theorem bindableAbove?_eq_none (headed : Everywhere Headed t.root) (held : t.Contains o)
    (hm : t.Contains m) (leads : o.Leads m) (starts : o.kind.isReference = true)
    (reference : m.kind.isReference = true) (unbindable : isBindable t m = false) :
    bindableAbove? t (parentAddress? o.address) m.address = none := by
  rcases leads.cases_last held hm with rfl | ⟨above, above_held, leads', above_eq, -⟩
  · cases m.address with
    | nil => rfl
    | cons position parent => rw [bindableAbove?, parentAddress?, if_pos rfl]
  · have leading : isLeadingCall t above = true := by
      rw [isBindable, reference, above_held.parent?_eq above_eq] at unbindable
      simp only [Bool.true_and, Bool.or_eq_false_iff, Bool.not_eq_false'] at unbindable
      exact unbindable.2
    have call : above.kind = .call := by
      refine (kind_of_isLeadingCall leading).resolve_right fun arguments => ?_
      have differ : above ≠ o := by
        rintro rfl
        exact absurd starts (by simp [arguments, Kind.isReference])
      have leads := leads'.kind_leads headed held above_held differ
      exact absurd leads (by simp [arguments, Kind.leads])
    rw [above_eq, bindableAbove?, if_neg (ne_boundary_of_leads leads'), above_held.occurrence?_eq]
    simp [call, Kind.isCall]

/-- The innermost reference or call of a chain stands for its references, if it is a bindable
reference. -/
theorem topLevelReference?_eq_ite (shaped : Every Shaped t.root)
    (headed : Everywhere Headed t.root) (held : t.Contains o)
    (reference : o.kind.isReference = true) (innermost : IsInnermost t isChainKind o m) :
    topLevelReference? t o = if isBindable t m = true then some m else none := by
  have hm := innermost.contains
  have chain : m.kind.isReference = true ∨ m.kind.isCall = true := by
    simpa [isChainKind] using innermost.accepted
  -- The search starts above a leaf, and the innermost part is none.
  obtain ⟨leaf, leaf_held, leaf_eq, leads, ends⟩ := exists_leaf hm
  obtain ⟨above, above_held, leads', above_eq, -⟩ := (leads.cases_last hm leaf_held).resolve_left <| by
    rintro rfl
    exact (shaped.of_contains hm).children_ne_nil chain ends
  have passed : ∀ q, t.Contains q → m.Leads q → q.Below m → ∀ parent, q.address = 0 :: parent →
      bindableAbove? t (parentAddress? o.address) (0 :: q.address) =
        bindableAbove? t (parentAddress? o.address) (0 :: parent) := by
    intro q hq onward below parent address_eq
    have onWay := innermost.leads.trans onward
    have differ : q ≠ o := by
      rintro rfl
      have := innermost.leads.suffix.length_le
      have := below.length_lt
      omega
    have other : isChainKind q.kind = false := innermost.rejected hq onward below
    exact bindableAbove?_other hq address_eq (ne_boundary_of_leads onWay) other
      (Kind.not_isPipeReference_of_leads (onWay.kind_leads headed held hq differ))
  have climb := leads'.eq_of_climb (f := fun address => bindableAbove? t (parentAddress? o.address)
    (0 :: address)) hm above_held passed
  rw [topLevelReference?_eq shaped held reference, innermost.leads.leftmostLeaf_eq held hm, ← leaf_eq,
    above_eq, climb, bindableAbove?, if_neg (ne_boundary_of_leads innermost.leads),
    hm.occurrence?_eq]
  rcases chain with reference' | call
  · obtain ⟨name, kind_eq⟩ := Kind.isReference_iff.mp reference'
    cases bindable : isBindable t m with
    | true => simp [kind_eq, Kind.isPipeReference, Kind.isCall, bindable]
    | false =>
      simpa [kind_eq, Kind.isPipeReference, Kind.isCall, bindable] using
        bindableAbove?_eq_none headed held hm innermost.leads reference reference' bindable
  · have unbindable : isBindable t m = false := by
      rw [isBindable, Kind.isCall_iff.mp call]
      rfl
    simp [call, unbindable]

theorem isInnermost_of_topLevelReference? (shaped : Every Shaped t.root)
    (headed : Everywhere Headed t.root) (held : t.Contains o)
    (reference : o.kind.isReference = true) (found : topLevelReference? t o = some p) :
    IsInnermost t isChainKind o p ∧ isBindable t p = true := by
  obtain ⟨m, innermost⟩ := exists_isInnermost isChainKind held
    (by simp [isChainKind, reference])
  rw [topLevelReference?_eq_ite shaped headed held reference innermost] at found
  obtain ⟨bindable, same⟩ := Option.ite_none_right_eq_some.mp found
  cases same
  exact ⟨innermost, bindable⟩

/-- A reference stands for its chain: it is bindable, and no call comes further down. -/
structure StandsForChain (t : Template) (o : Occurrence) : Prop where
  bindable : isBindable t o = true
  uncalled : ∀ call, t.Contains call → o.Leads call → call.Below o → call.kind ≠ .call

/-- An innermost reference with no call further down is the innermost part of its chain. -/
theorem isInnermost_chain_iff (innermost : IsInnermost t Kind.isReference o m) :
    IsInnermost t isChainKind o m ↔
      ∀ call, t.Contains call → m.Leads call → call.Below m → call.kind ≠ .call := by
  constructor
  · intro last call held leads below call_kind
    have rejected := last.rejected held leads below
    exact absurd rejected (by simp [isChainKind, call_kind, Kind.isCall])
  · intro uncalled
    refine .of_rejected innermost.contains innermost.leads
      (by simp [isChainKind, innermost.accepted]) fun p hp leads below => ?_
    have noCall : p.kind.isCall = false :=
      Bool.eq_false_iff.mpr fun call => uncalled p hp leads below (Kind.isCall_iff.mp call)
    simp [isChainKind, noCall, innermost.rejected hp leads below]

theorem topLevelReference?_of_isInnermost (shaped : Every Shaped t.root)
    (headed : Everywhere Headed t.root) (held : t.Contains o)
    (reference : o.kind.isReference = true) (innermost : IsInnermost t Kind.isReference o m) :
    (StandsForChain t m → topLevelReference? t o = some m) ∧
      (¬ StandsForChain t m → topLevelReference? t o = none) := by
  obtain ⟨x, part⟩ := exists_isInnermost isChainKind held (by simp [isChainKind, reference])
  have answer := topLevelReference?_eq_ite shaped headed held reference part
  constructor
  · rintro ⟨bindable, uncalled⟩
    cases part.unique ((isInnermost_chain_iff innermost).mpr uncalled)
    rw [answer, if_pos bindable]
  · intro fails
    rw [answer, if_neg]
    intro bindable
    -- What is bindable is a reference, so it would be the innermost one.
    have accepted := isReference_of_isBindable bindable
    have innermost' : IsInnermost t Kind.isReference o x :=
      ⟨part.contains, part.leads, accepted, fun p hp leads reference =>
        part.last p hp leads (by simp [isChainKind, reference])⟩
    cases innermost.unique innermost'
    apply fails
    exact ⟨bindable, (isInnermost_chain_iff innermost).mp part⟩

end Fragment

end ComponentExtraction
