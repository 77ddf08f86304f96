import ComponentExtraction.Proofs.Extraction.Success
import ComponentExtraction.Proofs.Fragment.Selection
import ComponentExtraction.Proofs.Source.Diagnostic

/-!
# Extraction drops nothing

The edit of a plan takes the whole span from the first root to the last out of
the host, and the new template is made of the roots alone. Nothing is lost in
between: the roots cover the span without a gap. Source between siblings that
belongs to none of them has an error in it, and an error inside the span keeps
the fragment from being extracted.
-/

namespace ComponentExtraction

open Fragment

theorem Template.Mirrors.textIn?_eq {t : Template} {o : Occurrence} (h : t.Mirrors)
    (held : t.Contains o) : o.span.textIn? t.source = some (t.text o) := by
  have regular := h.regular held
  obtain ⟨slice, found⟩ := regular.start.exists_slice? regular.stop regular.ordered
  have textIn_eq : o.span.textIn? t.source = some slice := found
  rw [Template.text, Template.textAt, textIn_eq]
  rfl

namespace Fragment

variable {t : Template} {roots : List Occurrence} {span : Span} {found : List Diagnostic}

def Touching (roots : List Occurrence) : Prop :=
  roots.IsChain fun root next => root.span.stop = next.span.start

/-- The roots cover a span, from its start to its end, without a gap. -/
structure Tiles (t : Template) (roots : List Occurrence) (span : Span) : Prop where
  touching : Touching roots
  start : roots.head?.map (fun root => root.span.start) = some span.start
  stop : roots.getLast?.map (fun root => root.span.stop) = some span.stop
  text : span.textIn? t.source = some (roots.flatMap t.text)

theorem spanOf?_cons (first : Occurrence) (rest : List Occurrence) :
    spanOf? (first :: rest) = some ⟨first.span.start,
      ((first :: rest).getLast (List.cons_ne_nil first rest)).span.stop⟩ := by
  simp only [spanOf?, List.getLast?_eq_some_getLast (List.cons_ne_nil first rest)]

theorem exists_spanOf? (nonempty : roots ≠ []) : ∃ span, spanOf? roots = some span := by
  obtain ⟨first, rest, rfl⟩ := List.exists_cons_of_ne_nil nonempty
  exact ⟨_, spanOf?_cons first rest⟩

theorem of_spanOf?_cons {first : Occurrence} {rest : List Occurrence}
    (span_eq : spanOf? (first :: rest) = some span) :
    span.start = first.span.start ∧
      (rest = [] ∧ span.stop = first.span.stop ∨
        ∃ next more, rest = next :: more ∧ spanOf? rest = some ⟨next.span.start, span.stop⟩) := by
  cases rest with
  | nil =>
    cases span_eq
    exact ⟨rfl, .inl ⟨rfl, rfl⟩⟩
  | cons next more =>
    rw [spanOf?_cons, List.getLast_cons_cons] at span_eq
    cases span_eq
    exact ⟨rfl, .inr ⟨next, more, rfl, spanOf?_cons next more⟩⟩

theorem head?_of_spanOf? (span_eq : spanOf? roots = some span) :
    roots.head?.map (fun root => root.span.start) = some span.start := by
  cases roots with
  | nil => exact absurd span_eq (by simp [spanOf?])
  | cons first rest => rw [(of_spanOf?_cons span_eq).1, List.head?_cons, Option.map_some]

theorem getLast?_of_spanOf? (span_eq : spanOf? roots = some span) :
    roots.getLast?.map (fun root => root.span.stop) = some span.stop := by
  unfold spanOf? at span_eq
  split at span_eq
  · next last_eq =>
    cases span_eq
    rw [last_eq, Option.map_some]
  · exact absurd span_eq (by simp)

theorem covers_of_spanOf? (span_eq : spanOf? roots = some span)
    (forward : ∀ root ∈ roots, root.span.start ≤ root.span.stop)
    (ordered : roots.Pairwise fun root later => root.span.stop ≤ later.span.start) :
    ∀ root ∈ roots, span.start ≤ root.span.start ∧ root.span.stop ≤ span.stop := by
  induction roots generalizing span with
  | nil => simp
  | cons first rest ih =>
    obtain ⟨first_before, ordered_rest⟩ := List.pairwise_cons.mp ordered
    obtain ⟨first_forward, forward_rest⟩ := List.forall_mem_cons.mp forward
    obtain ⟨start_eq, ⟨rfl, stop_eq⟩ | ⟨next, more, rest_eq, span_eq'⟩⟩ := of_spanOf?_cons span_eq
    · intro root member
      cases List.mem_singleton.mp member
      exact ⟨Nat.le_of_eq start_eq, Nat.le_of_eq stop_eq.symm⟩
    · have inside := ih span_eq' forward_rest ordered_rest
      have next_member : next ∈ rest := by
        rw [rest_eq]
        exact List.mem_cons_self
      have next_before := first_before next next_member
      have next_forward := forward_rest next next_member
      have next_inside : next.span.stop ≤ span.stop := (inside next next_member).2
      intro root member
      rcases List.mem_cons.mp member with rfl | member
      · exact ⟨Nat.le_of_eq start_eq, by omega⟩
      · have behind : next.span.start ≤ root.span.start := (inside root member).1
        exact ⟨by omega, (inside root member).2⟩

/-- The texts of roots that touch join to the text of their span. -/
theorem textIn?_of_touching (span_eq : spanOf? roots = some span) (touching : Touching roots)
    (texts : ∀ root ∈ roots, root.span.textIn? t.source = some (t.text root)) :
    span.textIn? t.source = some (roots.flatMap t.text) := by
  induction roots generalizing span with
  | nil => exact absurd span_eq (by simp [spanOf?])
  | cons first rest ih =>
    obtain ⟨first_text, rest_texts⟩ := List.forall_mem_cons.mp texts
    rw [List.flatMap_cons]
    obtain ⟨start_eq, ⟨rfl, stop_eq⟩ | ⟨next, more, rfl, span_eq'⟩⟩ := of_spanOf?_cons span_eq
    · rw [List.flatMap_nil, List.append_nil, ← first_text, Span.textIn?, start_eq, stop_eq]
      rfl
    · obtain ⟨meets, touching'⟩ := List.isChain_cons_cons.mp touching
      have later : t.source.slice? next.span.start span.stop =
          some ((next :: more).flatMap t.text) := ih span_eq' touching' rest_texts
      rw [← meets] at later
      rw [Span.textIn?, start_eq]
      exact Text.slice?_append first_text later

theorem IsRun.touching (run : IsRun t roots)
    (sound : Node.Everywhere (Node.Sound t.source found) t.root)
    (span_eq : spanOf? roots = some span)
    (unblocked : ∀ d ∈ found, Extraction.blocks span d = false) : Touching roots := by
  have mirrors : t.Mirrors := sound.mono fun _ h => h.regular
  have inside := covers_of_spanOf? span_eq
    (fun root member => (mirrors.regular (run.contains root member)).ordered) (run.ordered mirrors)
  refine (run.bridged sound).imp_of_mem_imp ?_
  rintro root next member member' (meets | ⟨d, listed, error, behind, before⟩)
  · exact meets
  · -- An error in the gap would have kept the run from being extracted.
    have start := (inside root member).1
    have stop := (inside next member').2
    have root_forward := (mirrors.regular (run.contains root member)).ordered
    have next_forward := (mirrors.regular (run.contains next member')).ordered
    have covered : span.covers d.span = true := by
      rw [Span.covers, Bool.and_eq_true, decide_eq_true_eq, decide_eq_true_eq]
      change root.span.start ≤ root.span.stop at root_forward
      change next.span.start ≤ next.span.stop at next_forward
      omega
    have blocked : Extraction.blocks span d = true := by
      rw [Extraction.blocks, covered, error]
      rfl
    exact absurd (blocked.symm.trans (unblocked d listed)) (by simp)

end Fragment

namespace Extraction

variable {source url name : Text} {start stop : Nat} {host : Symbols.Table}
variable {settings : Component.Settings} {roots : List Occurrence} {plan : Plan}

theorem spanOf?_of_ofRoots {t : Template}
    (planned : ofRoots t roots name host settings = .ok plan) :
    spanOf? roots = some plan.edit.span := by
  obtain ⟨accepted, span, -, span_eq, isPlan⟩ := ofRoots_eq_ok_iff.mp planned
  rw [span_eq, isPlan.edit]

/-- No error is found inside a fragment that is extracted. -/
theorem of_ofSelection (selected : select (Markup.parse source url).template start stop = .ok roots)
    (planned : ofSelection source url start stop name host settings = .ok plan) :
    spanOf? roots = some plan.edit.span ∧
      ∀ d ∈ (Markup.parse source url).diagnostics, blocks plan.edit.span d = false := by
  obtain ⟨_, selected', unblocked, planned⟩ := ofSelection_eq_ok_iff.mp planned
  cases selected.symm.trans selected'
  have span_eq := spanOf?_of_ofRoots planned
  refine ⟨span_eq, ?_⟩
  rw [blockingError?, span_eq, Option.bind_some, Option.map_eq_none_iff] at unblocked
  intro d listed
  simpa using List.find?_eq_none.mp unblocked d listed

/-- Every diagnostic can be reported with its place and the source around it. -/
theorem exists_reportOf_eq {d : Diagnostic} (listed : d ∈ (Markup.parse source url).diagnostics) :
    ∃ message, reportOf (Markup.parse source url).template d = .parse message := by
  have boundary := Markup.boundary_diagnostics_parse source url d listed
  obtain ⟨location, location_eq⟩ := Diagnostic.exists_location? boundary
  obtain ⟨quoted, quoted_eq⟩ := Diagnostic.exists_inContext? boundary contextReach
  have source_eq : (Markup.parse source url).template.source = source := rfl
  simp only [reportOf, source_eq, location_eq, quoted_eq]
  exact ⟨_, rfl⟩

theorem exists_parse_error {span : Span} {d : Diagnostic}
    (selected : select (Markup.parse source url).template start stop = .ok roots)
    (span_eq : spanOf? roots = some span) (listed : d ∈ (Markup.parse source url).diagnostics)
    (blocked : blocks span d = true) :
    ∃ message, ofSelection source url start stop name host settings = .error (.parse message) := by
  obtain ⟨first, first_eq⟩ : ∃ first,
      (Markup.parse source url).diagnostics.find? (blocks span) = some first :=
    Option.isSome_iff_exists.mp (List.find?_isSome.mpr ⟨d, listed, blocked⟩)
  obtain ⟨message, reported⟩ := exists_reportOf_eq (List.mem_of_find?_eq_some first_eq)
  refine ⟨message, ?_⟩
  simp only [ofSelection, selected, blockingError?, span_eq, Option.bind_some, first_eq,
    Option.map_some, reported]

/-- The roots that a selection denotes tile the span that is edited, whenever the
extraction succeeds. Where two of them leave a gap, an error was found in it, and
the extraction reports an error. -/
theorem tiles_or_fails
    (selected : select (Markup.parse source url).template start stop = .ok roots) :
    (∀ plan, ofSelection source url start stop name host settings = .ok plan →
      Tiles (Markup.parse source url).template roots plan.edit.span) ∧
    (roots.IsChain fun root next => Node.Bridged (Markup.parse source url).diagnostics
      root.span.stop next.span.start) ∧
    (¬ Touching roots → ∃ message,
      ofSelection source url start stop name host settings = .error (.parse message)) := by
  have sound := Markup.sound_parse source url
  have mirrors := Markup.mirrors_parse source url
  obtain ⟨run, nonempty⟩ := isRun_of_select sound selected
  refine ⟨?_, run.bridged sound, ?_⟩
  · intro plan planned
    obtain ⟨span_eq, unblocked⟩ := of_ofSelection selected planned
    have touching := run.touching sound span_eq unblocked
    refine ⟨touching, head?_of_spanOf? span_eq, getLast?_of_spanOf? span_eq, ?_⟩
    exact textIn?_of_touching span_eq touching
      fun root member => mirrors.textIn?_eq (run.contains root member)
  · intro apart
    obtain ⟨span, span_eq⟩ := exists_spanOf? nonempty
    by_cases unblocked : ∀ d ∈ (Markup.parse source url).diagnostics, blocks span d = false
    · exact absurd (run.touching sound span_eq unblocked) apart
    · simp only [not_forall, Bool.not_eq_false] at unblocked
      obtain ⟨d, listed, blocked⟩ := unblocked
      exact exists_parse_error selected span_eq listed blocked

/-- Two siblings that touch are extracted; two with an end tag between them that
closes nothing are not. -/
theorem tiles_or_fails_siblings :
    (∃ e : Success, e.source = "<i></i>a".toList ∧ e.roots.map Occurrence.span = [⟨0, 7⟩, ⟨7, 8⟩] ∧
      Tiles e.template e.roots e.plan.edit.span) ∧
    ∃ roots, select (Markup.parse "a</p>b".toList []).template 0 6 = .ok roots ∧
      ¬ Touching roots ∧ ∃ message,
        ofSelection "a</p>b".toList [] 0 6 ['A'] {} {} = .error (.parse message) := by
  constructor
  · have passed : succeedsWith "<i></i>a".toList {} (fun _ _ roots _ =>
        roots.map Occurrence.span == [⟨0, 7⟩, ⟨7, 8⟩]) = true := by
      decide +kernel
    obtain ⟨e, source_eq, -, spans⟩ := exists_success passed
    exact ⟨e, source_eq, beq_iff_eq.mp spans, (tiles_or_fails e.selected).1 e.plan e.planned⟩
  · have passed : (match select (Markup.parse "a</p>b".toList []).template 0 6 with
        | .ok roots => roots.map Occurrence.span == [⟨0, 1⟩, ⟨5, 6⟩]
        | .error _ => false) = true := by
      decide +kernel
    split at passed
    · next roots selected =>
      have apart : ¬ Touching roots := by
        intro touching
        have chain : (roots.map Occurrence.span).IsChain fun s s' => s.stop = s'.start :=
          (List.isChain_map Occurrence.span).mpr touching
        rw [beq_iff_eq.mp passed] at chain
        exact absurd (List.isChain_cons_cons.mp chain).1 (by decide)
      exact ⟨roots, selected, apart, (tiles_or_fails selected).2.2 apart⟩
    · exact absurd passed (by simp)

end Extraction

end ComponentExtraction
