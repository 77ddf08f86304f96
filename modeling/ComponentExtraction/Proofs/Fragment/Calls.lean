import ComponentExtraction.Proofs.Fragment.Reference

/-!
# Where the calls that are replaced stand

A call that is replaced is the innermost call of its chain: descending through
first children only, no other call comes below it. So if one such call lies below
another, the way down to it leaves the first children somewhere, and it starts
later (`start_lt_of_nearestCall?`).
-/

namespace ComponentExtraction

open Node Occurrence

namespace Fragment

variable {t : Template} {o p q m root : Occurrence}

/-- Climbing from the first leaf finds the innermost call. -/
theorem nearestCall?_of_isInnermost (held : t.Contains o)
    (innermost : IsInnermost t Kind.isCall o m) : nearestCall? t o.leftmostLeaf = some m := by
  have hm := innermost.contains
  obtain ⟨leaf, leaf_held, leaf_eq, leads, -⟩ := exists_leaf hm
  rw [innermost.leads.leftmostLeaf_eq held hm, ← leaf_eq,
    leads.eq_of_climb (f := nearestCall? t) hm leaf_held ?_]
  · exact nearestCall?_call hm innermost.accepted
  · intro q hq leads below parent address_eq
    rw [address_eq]
    exact nearestCall?_other hq address_eq (innermost.rejected hq leads below)

theorem isInnermost_of_nearestCall? (held : t.Contains o) (call : o.kind.isCall = true)
    (found : nearestCall? t o.leftmostLeaf = some m) : IsInnermost t Kind.isCall o m := by
  obtain ⟨m', innermost⟩ := exists_isInnermost Kind.isCall held call
  cases (nearestCall?_of_isInnermost held innermost).symm.trans found
  exact innermost

/-- A call that is replaced lies below the expression, and is what climbing from
its first leaf finds. -/
theorem of_mem_topLevelCalls (held : t.Contains root) (member : p ∈ topLevelCalls t root) :
    t.Contains p ∧ p.kind.isCall = true ∧ p.Below root ∧
      nearestCall? t p.leftmostLeaf = some p := by
  obtain ⟨o, below, call, -, found⟩ := mem_topLevelCalls_iff.mp member
  obtain ⟨o_held, o_below⟩ := (mem_descendants_iff held).mp below
  have innermost := isInnermost_of_nearestCall? o_held call found
  refine ⟨innermost.contains, innermost.accepted, ?_,
    nearestCall?_of_isInnermost innermost.contains innermost.self⟩
  rcases innermost.eq_or_below o_held with same | lower
  · exact same ▸ o_below
  · exact lower.trans o_below

/-- Of two nested calls that are replaced the inner one starts later. -/
theorem start_lt_of_nearestCall? (mirrors : t.Mirrors) (hp : t.Contains p) (hq : t.Contains q)
    (below : q.Below p) (innermost : nearestCall? t p.leftmostLeaf = some p)
    (innermost' : nearestCall? t q.leftmostLeaf = some q) : p.span.start < q.span.start := by
  refine Occurrence.start_lt_of_not_leads mirrors hp hq below ?_
  intro leads
  rw [leads.leftmostLeaf_eq hp hq, innermost'] at innermost
  cases innermost
  exact absurd below.length_lt (Nat.lt_irrefl _)

theorem kind_of_isLeadingCall (leading : isLeadingCall t o = true) :
    o.kind = .call ∨ o.kind = .argumentList := by
  unfold isLeadingCall at leading
  split at leading
  · next kind_eq => exact .inl kind_eq
  · next kind_eq => exact .inr kind_eq
  · exact absurd leading (by simp)

theorem isInsideArguments_iff (held : t.Contains o) (rooted : t.Contains root)
    (below : o.Below root) : isInsideArguments t root o = true ↔
      ∃ list, t.Contains list ∧ o.Below list ∧ list.Below root ∧ list.kind = .argumentList := by
  rw [isInsideArguments, List.any_eq_true]
  constructor
  · rintro ⟨list, member, kind_eq⟩
    obtain ⟨held', above, inside⟩ := (Occurrence.mem_ancestors_below_iff held rooted below).mp member
    exact ⟨list, held', above, inside, by simpa using kind_eq⟩
  · rintro ⟨list, held', above, inside, kind_eq⟩
    exact ⟨list, (Occurrence.mem_ancestors_below_iff held rooted below).mpr ⟨held', above, inside⟩,
      by simpa using kind_eq⟩

theorem isInsideArguments_of_below {p : Occurrence} (held : t.Contains o) (held' : t.Contains p)
    (rooted : t.Contains root) (above : o.Below p) (inside : p.Below root)
    (arguments : isInsideArguments t root p = true) : isInsideArguments t root o = true := by
  obtain ⟨list, contained, higher, lower, kind_eq⟩ :=
    (isInsideArguments_iff held' rooted inside).mp arguments
  apply (isInsideArguments_iff held rooted (above.trans inside)).mpr
  exact ⟨list, contained, above.trans higher, lower, kind_eq⟩

theorem nodup_topLevelCalls (t : Template) (root : Occurrence) :
    ((topLevelCalls t root).map Occurrence.address).Nodup :=
  Sequence.nodup_map_distinctBy _ _

theorem solid_of_isCall (shaped : Every Shaped t.root) (mirrors : t.Mirrors) (held : t.Contains o)
    (call : o.kind.isCall = true) : o.node.Solid :=
  (mirrors.regular held).solid_of_isCall (shaped.of_contains held) call

end Fragment

end ComponentExtraction
