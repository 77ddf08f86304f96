import ComponentExtraction.Proofs.Fragment.Chain
import ComponentExtraction.Proofs.Markup.Nesting
import ComponentExtraction.Proofs.Markup.Shape
import Mathlib.Data.List.Nodup

/-!
# What leaves a parsed template

In a template that was read from a source every part of a chain stands first in the next
one, and covers at least one byte. So one node decides for a whole chain, and the nodes that
decide are listed in the order of the source: the references that can become inputs
(`referencesStand_parse`) and the calls that are replaced as a whole (`callsStand_parse`).
-/

namespace ComponentExtraction

namespace Fragment

open Node Occurrence

variable {t : Template} {o p root : Occurrence}

/-- What stands for the references of a template. -/
structure ReferencesStand (t : Template) : Prop where
  /-- The innermost reference of a chain stands for it, or nothing does. -/
  decided : ∀ o, t.Contains o → o.kind.isReference = true →
    ∃ m, IsInnermost t Kind.isReference o m ∧
      (StandsForChain t m → topLevelReference? t o = some m) ∧
      (¬ StandsForChain t m → topLevelReference? t o = none)
  shared : ∀ c o p, t.Contains c → t.Contains o → t.Contains p → c.Leads o → c.Leads p →
    o.kind.isReference = true → p.kind.isReference = true →
    topLevelReference? t o = topLevelReference? t p
  ordered : ∀ root, t.Contains root →
    (topLevelReferences t root).Pairwise fun o p => o.span.start < p.span.start
  once : ∀ root, (topLevelReferences t root).Nodup
  /-- Listed are the bindable references with no other part of their chain below them. -/
  listed : ∀ root, t.Contains root → ∀ p, p ∈ topLevelReferences t root ↔
    t.Contains p ∧ p.Below root ∧ p.kind.isReference = true ∧ isBindable t p = true ∧
      ∀ q, t.Contains q → p.Leads q → q.Below p →
        q.kind.isReference = false ∧ q.kind.isCall = false

theorem topLevelReference?_eq_of_leads (shaped : Every Shaped t.root)
    (headed : Everywhere Headed t.root) (ho : t.Contains o) (hp : t.Contains p)
    (leads : o.Leads p) (reference : o.kind.isReference = true)
    (reference' : p.kind.isReference = true) :
    topLevelReference? t o = topLevelReference? t p := by
  obtain ⟨m, innermost⟩ := exists_isInnermost isChainKind ho (by simp [isChainKind, reference])
  have innermost' := innermost.of_accepted leads hp (by simp [isChainKind, reference'])
  rw [topLevelReference?_eq_ite shaped headed ho reference innermost,
    topLevelReference?_eq_ite shaped headed hp reference' innermost']

theorem isInnermost_self_iff (held : t.Contains p) (reference : p.kind.isReference = true) :
    IsInnermost t isChainKind p p ↔ ∀ q, t.Contains q → p.Leads q → q.Below p →
      q.kind.isReference = false ∧ q.kind.isCall = false := by
  constructor
  · intro innermost q hq leads below
    exact Bool.or_eq_false_iff.mp (innermost.rejected hq leads below)
  · intro alone
    refine .of_rejected held (.refl p) (by simp [isChainKind, reference]) fun q hq leads below => ?_
    exact Bool.or_eq_false_iff.mpr (alone q hq leads below)

theorem mem_topLevelReferences_iff_isInnermost (shaped : Every Shaped t.root)
    (headed : Everywhere Headed t.root) (rooted : t.Contains root) :
    p ∈ topLevelReferences t root ↔
      p.Below root ∧ isBindable t p = true ∧ IsInnermost t isChainKind p p := by
  rw [mem_topLevelReferences_iff shaped rooted]
  constructor
  · rintro ⟨o, listed, reference, found⟩
    obtain ⟨held, below⟩ := (mem_descendants_iff rooted).mp listed
    obtain ⟨innermost, bindable⟩ := isInnermost_of_topLevelReference? shaped headed held reference found
    refine ⟨?_, bindable, innermost.self⟩
    rcases innermost.eq_or_below held with rfl | lower
    · exact below
    · exact lower.trans below
  · rintro ⟨below, bindable, innermost⟩
    have held := innermost.contains
    have reference := isReference_of_isBindable bindable
    refine ⟨p, (mem_descendants_iff rooted).mpr ⟨held, below⟩, reference, ?_⟩
    rw [topLevelReference?_eq_ite shaped headed held reference innermost, if_pos bindable]

theorem ReferencesStand.of_shaped (shaped : Every Shaped t.root)
    (headed : Everywhere Headed t.root) (mirrors : t.Mirrors) : ReferencesStand t where
  decided := by
    intro o held reference
    obtain ⟨m, innermost⟩ := exists_isInnermost Kind.isReference held reference
    exact ⟨m, innermost, topLevelReference?_of_isInnermost shaped headed held reference innermost⟩
  shared := by
    intro c o p _ ho hp leads leads' reference reference'
    rcases leads.total leads' with forth | back
    · exact topLevelReference?_eq_of_leads shaped headed ho hp forth reference reference'
    · exact (topLevelReference?_eq_of_leads shaped headed hp ho back reference' reference).symm
  ordered := by
    intro root rooted
    apply pairwise_start_lt isChainKind mirrors rooted
    · intro o reference
      simp [isChainKind, reference]
    · intro o m held reference found
      obtain ⟨innermost, bindable⟩ :=
        isInnermost_of_topLevelReference? shaped headed held reference found
      have hm := innermost.contains
      exact ⟨innermost, (mirrors.regular hm).solid_of_chain (shaped.of_contains hm)
        (headed.of_contains hm).here (.inl (isReference_of_isBindable bindable))⟩
  once := fun root => List.Nodup.of_map _ (Sequence.nodup_map_distinctBy Occurrence.address _)
  listed := by
    intro root rooted p
    rw [mem_topLevelReferences_iff_isInnermost shaped headed rooted]
    constructor
    · rintro ⟨below, bindable, innermost⟩
      have reference := isReference_of_isBindable bindable
      exact ⟨innermost.contains, below, reference, bindable,
        (isInnermost_self_iff innermost.contains reference).mp innermost⟩
    · rintro ⟨held, below, reference, bindable, alone⟩
      exact ⟨below, bindable, (isInnermost_self_iff held reference).mpr alone⟩

/-- What stands for the references of a parsed template: the innermost
reference of a chain, if it can be bound and no call comes further down. -/
theorem referencesStand_parse (source url : Text) :
    ReferencesStand (Markup.parse source url).template :=
  .of_shaped (Markup.shaped_parse source url) (Markup.headed_parse source url)
    (Markup.mirrors_parse source url)

/-- Which calls of a template are replaced. -/
structure CallsStand (t : Template) : Prop where
  ordered : ∀ root, t.Contains root →
    (topLevelCalls t root).Pairwise fun o p => o.span.start < p.span.start
  /-- Listed are the innermost calls of the chains outside of arguments. -/
  listed : ∀ root, t.Contains root → ∀ p,
    p ∈ topLevelCalls t root ↔ IsTopLevelCall t root p
  /-- Every other call outside of arguments continues the chain of a listed one. -/
  covered : ∀ root o, t.Contains root → t.Contains o → o.Below root → o.kind = .call →
    (∀ list, t.Contains list → o.Below list → list.Below root → list.kind ≠ .argumentList) →
    ∃! p, p ∈ topLevelCalls t root ∧ o.Leads p
  /-- Listed calls do not overlap, unless one lies below the other. -/
  separate : ∀ root, t.Contains root → ∀ o ∈ topLevelCalls t root,
    ∀ p ∈ topLevelCalls t root, o ≠ p → o.span.start ≠ p.span.start ∧
      (o.span.stop ≤ p.span.start ∨ p.span.stop ≤ o.span.start ∨
        (o.Below p ∧ p.span.start ≤ o.span.start ∧ o.span.stop ≤ p.span.stop) ∨
        (p.Below o ∧ o.span.start ≤ p.span.start ∧ p.span.stop ≤ o.span.stop))

/-- Of two calls that are replaced one is inside the other, or they are apart. -/
theorem IsTopLevelCall.separate (h : IsTopLevelCall t root o) (shaped : Every Shaped t.root)
    (mirrors : t.Mirrors) (h' : IsTopLevelCall t root p) (differ : o ≠ p) :
    o.span.start ≠ p.span.start ∧
      (o.span.stop ≤ p.span.start ∨ p.span.stop ≤ o.span.start ∨
        (o.Below p ∧ p.span.start ≤ o.span.start ∧ o.span.stop ≤ p.span.stop) ∨
        (p.Below o ∧ o.span.start ≤ p.span.start ∧ p.span.stop ≤ o.span.stop)) := by
  have ho := h.innermost.contains
  have hp := h'.innermost.contains
  by_cases inside : o.Below p
  · have := h'.start_lt mirrors h inside
    exact ⟨by omega, .inr (.inr (.inl ⟨inside, mirrors.covers_of_below hp ho inside⟩))⟩
  by_cases outside : p.Below o
  · have := h.start_lt mirrors h' outside
    exact ⟨by omega, .inr (.inr (.inr ⟨outside, mirrors.covers_of_below ho hp outside⟩))⟩
  have solid : o.span.start < o.span.stop := solid_of_isCall shaped mirrors ho h.innermost.accepted
  have solid' : p.span.start < p.span.stop :=
    solid_of_isCall shaped mirrors hp h'.innermost.accepted
  rcases mirrors.separate ho hp differ inside outside with before | behind
  · exact ⟨by omega, .inl before⟩
  · exact ⟨by omega, .inr (.inl behind)⟩

theorem CallsStand.of_shaped (shaped : Every Shaped t.root) (headed : Everywhere Headed t.root)
    (mirrors : t.Mirrors) : CallsStand t where
  ordered := by
    intro root rooted
    apply pairwise_start_lt Kind.isCall mirrors rooted
    · intro o kept
      exact (Bool.and_eq_true_iff.mp kept).1
    · intro o m held kept found
      have innermost := isInnermost_of_nearestCall? held (Bool.and_eq_true_iff.mp kept).1 found
      exact ⟨innermost, solid_of_isCall shaped mirrors innermost.contains innermost.accepted⟩
  listed := fun root rooted p => mem_topLevelCalls_iff_isTopLevelCall headed rooted
  covered := by
    intro root o rooted held below call outside
    have call : o.kind.isCall = true := Kind.isCall_iff.mpr call
    have apart : isInsideArguments t root o = false := by
      rw [← Bool.not_eq_true, isInsideArguments_iff held rooted below]
      rintro ⟨list, list_held, above, inside, arguments⟩
      exact outside list list_held above inside arguments
    obtain ⟨m, innermost⟩ := exists_isInnermost Kind.isCall held call
    refine ⟨m, ⟨?_, innermost.leads⟩, ?_⟩
    · rw [mem_topLevelCalls_iff_isTopLevelCall headed rooted]
      exact .of_isInnermost headed rooted held below call apart innermost
    · rintro p ⟨listed, leads⟩
      have topLevel := (mem_topLevelCalls_iff_isTopLevelCall headed rooted).mp listed
      exact (topLevel.innermost.of_leads leads).unique innermost
  separate := by
    intro root rooted o listed p listed' differ
    have topLevel := (mem_topLevelCalls_iff_isTopLevelCall headed rooted).mp listed
    have topLevel' := (mem_topLevelCalls_iff_isTopLevelCall headed rooted).mp listed'
    exact topLevel.separate shaped mirrors topLevel' differ

/-- Which calls of a parsed template are replaced: the innermost ones
of the chains outside of arguments, in the order of the source. -/
theorem callsStand_parse (source url : Text) : CallsStand (Markup.parse source url).template :=
  .of_shaped (Markup.shaped_parse source url) (Markup.headed_parse source url)
    (Markup.mirrors_parse source url)

example : ((Markup.parse "\x7b\x7b a.b[c] + d(e).f \x7d\x7d".toList []).template.follow? [0, 0]).map
    (fun root =>
      let t := (Markup.parse "\x7b\x7b a.b[c] + d(e).f \x7d\x7d".toList []).template
      ((topLevelReferences t root).map t.text, (topLevelCalls t root).map t.text)) =
    some (["a".toList, "c".toList], ["d(e)".toList]) := by
  decide +kernel

end Fragment

end ComponentExtraction
