import ComponentExtraction.Proofs.Expression.Severity
import ComponentExtraction.Proofs.Markup.Opening

/-!
# Interpolations in texts

The marks of interpolations are looked for twice. `textLength` passes over
interpolations in all that is left of the source, to find the next tag outside of them;
`interpolations` looks again in the text that ends there. Both go by the same pairs of
marks, taken one after the other from the left (`Pairs`), and the end of a text falls
into none of them (`agree_textLength`). So the children of a text node are the first of
the pairs that its source has from there on, and a warning is recorded in a text only if
no mark that ends an interpolation follows anywhere in the source (`interpolated_parse`).
-/

namespace ComponentExtraction

namespace Text

variable {pattern text before after : Text}

/-- A pattern stands in a text between two parts, and nowhere further to the left. -/
structure FirstAt (pattern text before after : Text) : Prop where
  split : text = before ++ pattern ++ after
  first : ∀ front back, text = front ++ pattern ++ back → before.length ≤ front.length

namespace FirstAt

theorem unique {before' after' : Text} (h : FirstAt pattern text before after)
    (h' : FirstAt pattern text before' after') : before = before' ∧ after = after' := by
  have length_eq : before.length = before'.length :=
    Nat.le_antisymm (h.first _ _ h'.split) (h'.first _ _ h.split)
  have same := h.split.symm.trans h'.split
  rw [List.append_assoc, List.append_assoc] at same
  obtain ⟨front_eq, back_eq⟩ := List.append_inj same length_eq
  exact ⟨front_eq, List.append_cancel_left back_eq⟩

theorem here (pattern after : Text) : FirstAt pattern (pattern ++ after) [] after :=
  ⟨rfl, fun _ _ _ => Nat.zero_le _⟩

theorem cons {c : Char} (h : FirstAt pattern text before after)
    (other : ¬pattern <+: c :: text) : FirstAt pattern (c :: text) (c :: before) after := by
  refine ⟨congrArg (c :: ·) h.split, fun front back split => ?_⟩
  cases front with
  | nil => exact absurd ⟨back, split.symm⟩ other
  | cons d front =>
    have split := (List.cons.inj split).2
    exact Nat.succ_le_succ (h.first front back split)

end FirstAt

theorem not_isInfix_of_splitOnce? (unsplit : splitOnce? pattern text = none) :
    ¬pattern <:+: text := by
  induction text with
  | nil =>
    intro inside
    rw [List.infix_nil] at inside
    subst inside
    cases unsplit
  | cons c text ih =>
    rw [splitOnce?] at unsplit
    split at unsplit
    · cases unsplit
    · next other =>
      rw [List.infix_cons_iff]
      rintro (⟨back, starts⟩ | later)
      · rw [← starts, stripStart?_append] at other
        cases other
      · exact ih (Option.map_eq_none_iff.mp unsplit) later

theorem firstAt_of_splitOnce? (found : splitOnce? pattern text = some (before, after)) :
    FirstAt pattern text before after := by
  induction text generalizing before with
  | nil =>
    rw [splitOnce?] at found
    split at found
    · next empty =>
      cases found
      cases List.isEmpty_iff.mp empty
      exact .here [] []
    · cases found
  | cons c text ih =>
    rw [splitOnce?] at found
    split at found
    · next starts =>
      cases found
      rw [eq_append_of_stripStart? starts]
      exact .here _ _
    · next other =>
      obtain ⟨inner, later, parts_eq⟩ := Option.map_eq_some_iff.mp found
      cases parts_eq
      refine (ih later).cons ?_
      rintro ⟨back, starts⟩
      rw [← starts, stripStart?_append] at other
      cases other

/-- The first place does not depend on what stands behind it. -/
theorem FirstAt.elsewhere (h : FirstAt pattern text before after) (after' : Text) :
    FirstAt pattern (before ++ pattern ++ after') before after' := by
  have found : splitOnce? pattern (before ++ pattern ++ after) = some (before, after) := by
    rw [← h.split]
    cases found : splitOnce? pattern text with
    | none => exact absurd ⟨before, after, h.split.symm⟩ (not_isInfix_of_splitOnce? found)
    | some parts =>
      obtain ⟨front_eq, back_eq⟩ := (firstAt_of_splitOnce? found).unique h
      rw [← front_eq, ← back_eq]
  exact firstAt_of_splitOnce? (splitOnce?_append found after')

end Text

theorem Cursor.Reaches.dropBytes?_eq {source : Text} {c : Cursor}
    (reached : (Cursor.start source).Reaches c) : source.dropBytes? c.offset = some c.rest := by
  obtain ⟨taken, rest_eq, offset_eq⟩ := reached
  have source_eq : source = taken ++ c.rest := rest_eq
  rw [source_eq, offset_eq, show (Cursor.start source).offset = 0 from rfl, Nat.zero_add]
  exact Text.dropBytes?_byteLength taken c.rest

namespace Markup

open Node

variable {source url text : Text} {offset : Nat} {spans : List Span} {left : Option Nat}
  {c d : Cursor}

@[simp] theorem byteLength_interpolationStart : interpolationStart.byteLength = 2 := rfl

@[simp] theorem byteLength_interpolationEnd : interpolationEnd.byteLength = 2 := rfl

/-- The pairs of marks in a text that stands at an offset, from the left: each goes from
the first mark that starts an interpolation behind the pairs before to the first mark
that ends one behind that. The last argument is where a mark stands that nothing ends. -/
inductive Pairs : Nat → Text → List Span → Option Nat → Prop
  | none {offset : Nat} {text : Text} (absent : ¬interpolationStart <:+: text) :
      Pairs offset text [] none
  | unclosed {offset : Nat} {text before inner : Text}
      (opened : Text.FirstAt interpolationStart text before inner)
      (absent : ¬interpolationEnd <:+: inner) :
      Pairs offset text [] (some (offset + before.byteLength))
  | pair {offset : Nat} {text before inner expression after : Text} {spans : List Span}
      {left : Option Nat} (opened : Text.FirstAt interpolationStart text before inner)
      (closed : Text.FirstAt interpolationEnd inner expression after)
      (more : Pairs (offset + before.byteLength + 2 + expression.byteLength + 2) after spans left) :
      Pairs offset text (⟨offset + before.byteLength,
        offset + before.byteLength + 2 + expression.byteLength + 2⟩ :: spans) left

namespace Pairs

theorem cons {first : Char} (h : Pairs (offset + first.utf8Size) text spans left)
    (other : ¬interpolationStart <+: first :: text) : Pairs offset (first :: text) spans left := by
  have moved : ∀ before : Text,
      offset + first.utf8Size + before.byteLength = offset + Text.byteLength (first :: before) :=
    fun before => Nat.add_assoc _ _ _
  cases h with
  | none absent =>
    refine .none fun inside => ?_
    rcases List.infix_cons_iff.mp inside with starts | later
    · exact other starts
    · exact absent later
  | unclosed opened absent =>
    rw [moved]
    exact .unclosed (opened.cons other) absent
  | pair opened closed more =>
    rw [moved] at more ⊢
    exact .pair (opened.cons other) closed more

theorem unique {spans' : List Span} {left' : Option Nat} (h : Pairs offset text spans left)
    (h' : Pairs offset text spans' left') : spans = spans' ∧ left = left' := by
  induction h generalizing spans' left' with
  | none absent =>
    cases h' with
    | none => exact ⟨rfl, rfl⟩
    | unclosed opened | pair opened => exact absurd ⟨_, _, opened.split.symm⟩ absent
  | unclosed opened absent =>
    cases h' with
    | none absent' => exact absurd ⟨_, _, opened.split.symm⟩ absent'
    | unclosed opened' =>
      obtain ⟨rfl, -⟩ := opened.unique opened'
      exact ⟨rfl, rfl⟩
    | pair opened' closed' =>
      obtain ⟨-, rfl⟩ := opened.unique opened'
      exact absurd ⟨_, _, closed'.split.symm⟩ absent
  | pair opened closed more ih =>
    cases h' with
    | none absent' => exact absurd ⟨_, _, opened.split.symm⟩ absent'
    | unclosed opened' absent' =>
      obtain ⟨-, rfl⟩ := opened.unique opened'
      exact absurd ⟨_, _, closed.split.symm⟩ absent'
    | pair opened' closed' more' =>
      obtain ⟨rfl, rfl⟩ := opened.unique opened'
      obtain ⟨rfl, rfl⟩ := closed.unique closed'
      obtain ⟨rfl, rfl⟩ := ih more'
      exact ⟨rfl, rfl⟩

theorem start_le (h : Pairs offset text spans left) : ∀ span ∈ spans, offset ≤ span.start := by
  induction h with
  | none | unclosed => simp
  | pair opened closed more ih =>
    refine List.forall_mem_cons.mpr ⟨Nat.le_add_right _ _, fun span member => ?_⟩
    have := ih span member
    omega

/-- A mark that nothing ends stands in the text, with no other mark that could end it. -/
theorem exists_unclosed {start : Nat} (h : Pairs offset text spans (some start)) :
    ∃ front inner, text = front ++ interpolationStart ++ inner ∧
      start = offset + front.byteLength ∧ ¬interpolationEnd <:+: inner := by
  generalize left_eq : some start = left at h
  induction h with
  | none => cases left_eq
  | @unclosed _ _ before inner opened absent =>
    cases left_eq
    exact ⟨before, inner, opened.split, rfl, absent⟩
  | @pair offset text before inner expression after spans left opened closed more ih =>
    obtain ⟨front, last, rfl, rfl, absent⟩ := ih left_eq
    refine ⟨before ++ interpolationStart ++ (expression ++ interpolationEnd ++ front), last, ?_, ?_,
      absent⟩
    · rw [opened.split, closed.split]
      simp only [List.append_assoc]
    · simp only [Text.byteLength_append, byteLength_interpolationStart,
        byteLength_interpolationEnd]
      omega

end Pairs

/-- What is read in a text are its pairs, and a warning tells of the mark that nothing ends. -/
structure Scanned (offset : Nat) (text : Text) (found : List Node × List Diagnostic)
    (left : Option Nat) : Prop where
  pairs : Pairs offset text (found.1.map Node.span) left
  kinds : ∀ node ∈ found.1, node.kind = .interpolation
  noticed : ∀ d ∈ found.2, d.severity = .warning → left = some d.span.start
  recorded : ∀ start ∈ left,
    ⟨⟨start, offset + text.byteLength⟩, .unterminatedInterpolation⟩ ∈ found.2

theorem exists_scanned (offset : Nat) (text : Text) :
    ∃ left, Scanned offset text (interpolations offset text) left := by
  fun_induction interpolations offset text with
  | case1 offset text unopened =>
    exact ⟨none, .none (Text.not_isInfix_of_splitOnce? unopened), by simp, by simp, by simp⟩
  | case2 offset text before inner found start unclosed =>
    have opened := Text.firstAt_of_splitOnce? found
    refine ⟨some start, .unclosed opened (Text.not_isInfix_of_splitOnce? unclosed), by simp, ?_, ?_⟩
    · intro d member _
      cases List.mem_singleton.mp member
      rfl
    · rintro _ ⟨⟩
      have stop_eq : start + 2 + inner.byteLength = offset + text.byteLength := by
        rw [opened.split, Text.byteLength_append, Text.byteLength_append,
          byteLength_interpolationStart]
        omega
      rw [stop_eq]
      exact List.mem_singleton_self _
  | case3 offset text before inner found start expression after found' stop parsed more ih =>
    obtain ⟨left, scanned⟩ := ih
    have opened := Text.firstAt_of_splitOnce? found
    have closed := Text.firstAt_of_splitOnce? found'
    refine ⟨left, .pair opened closed scanned.pairs, ?_, ?_, ?_⟩
    · exact List.forall_mem_cons.mpr ⟨rfl, scanned.kinds⟩
    · intro d member warning
      rcases List.mem_append.mp member with inside | later
      · cases (Expression.strict_parse _ _ _ d inside).symm.trans warning
      · exact scanned.noticed d later warning
    · intro start' open_
      have stop_eq : stop + after.byteLength = offset + text.byteLength := by
        rw [opened.split, closed.split]
        simp only [Text.byteLength_append, byteLength_interpolationStart,
          byteLength_interpolationEnd]
        omega
      rw [← stop_eq]
      exact List.mem_append_right _ (scanned.recorded start' open_)

/-- The pairs in the front of a text are the first of all its pairs, and the front ends
in none of them. -/
structure Agree (offset : Nat) (front text : Text) (spans : List Span) (left : Option Nat) :
    Prop where
  inside : Pairs offset front spans left
  whole : ∃ later left', Pairs offset text (spans ++ later) left' ∧
    (∀ span ∈ later, offset + front.byteLength ≤ span.start) ∧
    ∀ start, left = some start → left' = some start

theorem Agree.cons {first : Char} {front : Text}
    (h : Agree (offset + first.utf8Size) front text spans left)
    (other : ¬interpolationStart <+: first :: text) (taken : front <+: text) :
    Agree offset (first :: front) (first :: text) spans left := by
  obtain ⟨inside, later, left', whole, behind, same⟩ := h
  refine ⟨inside.cons fun starts => ?_, later, left', whole.cons other, ?_, same⟩
  · exact other (starts.trans (List.cons_prefix_cons.mpr ⟨rfl, taken⟩))
  · intro span member
    have := behind span member
    rw [Text.byteLength_cons]
    omega

/-- The text up to the next tag has the pairs of all that is left. -/
theorem agree_textLength (offset : Nat) (text : Text) :
    ∃ spans left, Agree offset (text.take (textLength text)) text spans left := by
  fun_induction textLength text generalizing offset with
  | case1 =>
    have none_eq : Pairs offset [] [] none := .none (by simp [interpolationStart])
    exact ⟨[], none, none_eq, [], none, none_eq, by simp, by simp⟩
  | case2 first rest opens =>
    have none_eq : Pairs offset [] [] none := .none (by simp [interpolationStart])
    obtain ⟨left, scanned⟩ := exists_scanned offset (first :: rest)
    refine ⟨[], none, none_eq, _, left, scanned.pairs, ?_, by simp⟩
    exact scanned.pairs.start_le
  | case3 first rest _ other ih =>
    obtain ⟨spans, left, agree⟩ := ih (offset + first.utf8Size)
    refine ⟨spans, left, agree.cons ?_ (List.take_prefix _ _)⟩
    rintro ⟨back, starts⟩
    rw [← starts, Text.stripStart?_append] at other
    cases other
  | case4 first rest _ inner starts unclosed =>
    -- Nothing ends the mark in front, here or further on.
    have absent := Text.not_isInfix_of_splitOnce? unclosed
    rw [Text.eq_append_of_stripStart? starts]
    have whole : Pairs offset (interpolationStart ++ inner) [] (some offset) :=
      .unclosed (.here _ _) absent
    have taken_eq : (interpolationStart ++ inner).take (textLength inner + 2) =
        interpolationStart ++ inner.take (textLength inner) := by
      rw [Nat.add_comm, show 2 = interpolationStart.length from rfl]
      exact List.take_length_add_append _
    rw [taken_eq]
    refine ⟨[], some offset, .unclosed (.here _ _) fun inside => ?_, [], _, whole, by simp, ?_⟩
    · exact absent (inside.trans (List.take_prefix _ _).isInfix)
    · exact fun _ same => same
  | case5 first rest _ inner starts expression after found ih =>
    let passed := interpolationStart ++ expression ++ interpolationEnd
    have closed := Text.firstAt_of_splitOnce? found
    have text_eq : first :: rest = passed ++ after := by
      rw [Text.eq_append_of_stripStart? starts, closed.split]
      simp only [passed, List.append_assoc]
    have length_eq : textLength after + (expression.length + 4) =
        passed.length + textLength after := by
      simp only [passed, interpolationStart, interpolationEnd, List.length_append,
        List.length_cons, List.length_nil]
      omega
    -- The first pair is the same whatever follows it.
    have pair : ∀ {after' spans left},
        Pairs (offset + 0 + 2 + expression.byteLength + 2) after' spans left →
        Pairs offset (passed ++ after') (⟨offset + 0, offset + 0 + 2 + expression.byteLength + 2⟩ ::
          spans) left := by
      intro after' spans left more
      have split : passed ++ after' =
          interpolationStart ++ (expression ++ interpolationEnd ++ after') := by
        simp only [passed, List.append_assoc]
      rw [split]
      exact .pair (.here _ _) (closed.elsewhere after') more
    rw [text_eq, length_eq, List.take_length_add_append]
    obtain ⟨spans, left, inside, later, left', whole, behind, same⟩ :=
      ih (offset + 0 + 2 + expression.byteLength + 2)
    refine ⟨_, left, pair inside, later, left', pair whole, ?_, same⟩
    intro span member
    have := behind span member
    simp only [passed, Text.byteLength_append, byteLength_interpolationStart,
      byteLength_interpolationEnd]
    omega

def WarnedIn (start stop : Nat) (noticed : List Diagnostic) : Prop :=
  ∀ d ∈ noticed, d.severity = .warning → start ≤ d.span.start ∧ d.span.start < stop

namespace WarnedIn

variable {a b a' b' : Nat} {noticed more : List Diagnostic}

theorem of_errors (errors : ∀ d ∈ noticed, d.severity = .error) : WarnedIn a b noticed := by
  intro d member warning
  cases (errors d member).symm.trans warning

theorem nil : WarnedIn a b [] :=
  of_errors (by simp)

theorem of_error {d : Diagnostic} (error : d.severity = .error) : WarnedIn a b [d] :=
  of_errors (List.forall_mem_singleton.mpr error)

theorem mono (h : WarnedIn a b noticed) (before : a' ≤ a) (behind : b ≤ b') :
    WarnedIn a' b' noticed := by
  intro d member warning
  have := h d member warning
  omega

theorem append (h : WarnedIn a b noticed) (h' : WarnedIn a b more) :
    WarnedIn a b (noticed ++ more) :=
  List.forall_mem_append.mpr ⟨h, h'⟩

end WarnedIn

theorem warnedIn_interpolations (offset : Nat) (text : Text) :
    WarnedIn offset (offset + text.byteLength) (interpolations offset text).2 := by
  obtain ⟨left, scanned⟩ := exists_scanned offset text
  intro d member warning
  have pairs := scanned.pairs
  rw [scanned.noticed d member warning] at pairs
  obtain ⟨front, inner, text_eq, start_eq, -⟩ := pairs.exists_unclosed
  rw [start_eq, text_eq, Text.byteLength_append, Text.byteLength_append,
    byteLength_interpolationStart]
  omega

theorem warnedIn_valueNodes (kind : Kind) (form : ValueForm) (value : Value) :
    WarnedIn value.offset (value.offset + value.text.byteLength)
      (valueNodes kind form value).2 := by
  cases form with
  | binding | action => exact .of_errors (Expression.strict_parse _ _ _)
  | directive => exact .of_errors (Expression.Directive.strict_parse _ _ _)
  | interpolated => exact warnedIn_interpolations _ _
  | ignored => exact .nil

theorem errors_readValue (name : Text) (c : Cursor) :
    ∀ d ∈ (readValue name c).diagnostics, d.severity = .error := by
  fun_cases readValue name c with
  | case1 | case2 | case4 => simp
  | case3 => exact List.forall_mem_singleton.mpr rfl

theorem warnedIn_readAttribute (reached : (Cursor.start source).Reaches c)
    (nonempty : c.rest ≠ []) : WarnedIn c.offset (readAttribute c nonempty).after.offset
      (readAttribute c nonempty).diagnostics := by
  unfold readAttribute
  dsimp only
  split
  · exact .nil
  · split
    · have reaches := reaches_attributeValue c
      obtain ⟨-, before, behind⟩ :=
        standsAt_readValue (c.rest.takeWhile isNamePart) (reached.trans reaches)
      apply WarnedIn.append
      · exact .of_errors (errors_readValue _ _)
      · exact (warnedIn_valueNodes _ _ _).mono (Nat.le_trans reaches.offset_le before) behind
    · exact .nil

theorem warnedIn_readTagBody (name : Text) (start : Nat)
    (reached : (Cursor.start source).Reaches c) :
    WarnedIn c.offset (readTagBody name start c).after.offset
      (readTagBody name start c).diagnostics := by
  fun_induction readTagBody name start c with
  | case1 => exact .of_error rfl
  | case2 | case3 => exact .nil
  | case4 c here reaches first rest _ nonempty _ _ _ more ih =>
    have passed := reaches.trans (Cursor.reaches_skip 1 here)
    have later := (ih (reached.trans passed)).mono passed.offset_le (Nat.le_refl _)
    exact WarnedIn.append (.of_error rfl) later
  | case5 c here reaches first rest _ nonempty _ _ _ found more ih =>
    have passed := reaches.trans found.advances.1
    have later := (ih (reached.trans passed)).mono passed.offset_le (Nat.le_refl _)
    have first := warnedIn_readAttribute (reached.trans reaches) nonempty
    exact (first.mono reaches.offset_le more.reaches.offset_le).append later

theorem warnedIn_readPiece (reached : (Cursor.start source).Reaches c) (nonempty : c.rest ≠ []) :
    WarnedIn c.offset (readPiece c nonempty).after.offset (readPiece c nonempty).diagnostics := by
  unfold readPiece
  split
  · unfold readComment
    dsimp only
    split
    · exact .nil
    · exact .of_error rfl
  · unfold readEndTag
    dsimp only
    split
    · exact .nil
    · exact .of_error rfl
  · have named := reaches_tagBody c
    exact (warnedIn_readTagBody _ _ (reached.trans named)).mono named.offset_le (Nat.le_refl _)
  · exact warnedIn_interpolations _ _

theorem Through.warnedIn {found : List (Piece × List Diagnostic)} (through : Through c found d)
    (reached : (Cursor.start source).Reaches c) :
    ∀ entry ∈ found, WarnedIn entry.1.span.start entry.1.span.stop entry.2 := by
  intro entry listed
  obtain ⟨e, f, reaches, reads⟩ := through.exists_reads listed
  have reached' := reached.trans reaches
  rw [reads.span_eq reached']
  obtain ⟨nonempty, rfl, rfl⟩ := reads
  exact warnedIn_readPiece reached' nonempty

theorem Through.eq_of_inside {found : List (Piece × List Diagnostic)} (through : Through c found d)
    (reached : (Cursor.start source).Reaches c) {position : Nat}
    {entry entry' : Piece × List Diagnostic} (listed : entry ∈ found) (listed' : entry' ∈ found)
    (inside : entry.1.span.start ≤ position ∧ position < entry.1.span.stop)
    (inside' : entry'.1.span.start ≤ position ∧ position < entry'.1.span.stop) :
    entry = entry' := by
  induction through with
  | refl => exact absurd listed List.not_mem_nil
  | @step c d e first more reads through ih =>
    have reached' := reached.trans reads.advances.1
    have stop_eq : first.1.span.stop = d.offset := congrArg Span.stop (reads.span_eq reached)
    have behind := through.span_mem reached'
    rcases List.mem_cons.mp listed with rfl | later <;>
      rcases List.mem_cons.mp listed' with rfl | later'
    · rfl
    · have := behind entry' later'
      omega
    · have := behind entry later
      omega
    · exact ih reached' later later'

/-- What is wrong with the nesting of pieces is an error, as long as more pieces may come. -/
theorem Nesting.errors_step (piece : Piece) (n : Nesting) :
    ∀ d ∈ (n.step piece).2, d.severity = .error := by
  intro d noticed
  cases piece with
  | text | comment | startTag => cases noticed
  | endTag span name =>
    rw [Nesting.step, Nesting.endTag] at noticed
    split at noticed
    · cases noticed
    · cases List.mem_singleton.mp noticed
      simp only [Diagnostic.severity]
      split <;> rfl

theorem Nesting.mem_run {n : Nesting} {found : List (Piece × List Diagnostic)} {d : Diagnostic}
    (member : d ∈ (n.run found).2) (warning : d.severity = .warning) :
    ∃ entry ∈ found, d ∈ entry.2 := by
  induction found generalizing n with
  | nil => cases member
  | cons entry found ih =>
    rcases List.mem_append.mp member with member | later
    · rcases List.mem_append.mp member with here | noticed
      · exact ⟨entry, List.mem_cons_self, here⟩
      · cases (errors_step entry.1 n d noticed).symm.trans warning
    · obtain ⟨entry, listed, noticed⟩ := ih later
      exact ⟨entry, List.mem_cons_of_mem _ listed, noticed⟩

theorem Nesting.mem_run_of_mem {n : Nesting} {found : List (Piece × List Diagnostic)}
    {d : Diagnostic} {entry : Piece × List Diagnostic} (listed : entry ∈ found)
    (noticed : d ∈ entry.2) : d ∈ (n.run found).2 := by
  induction found generalizing n with
  | nil => cases listed
  | cons first found ih =>
    rcases List.mem_cons.mp listed with rfl | later
    · exact List.mem_append_left _ (List.mem_append_left _ noticed)
    · exact List.mem_append_right _ (ih later)

theorem exists_piece_of_unterminated {d : Diagnostic} (member : d ∈ (parse source url).diagnostics)
    (problem_eq : d.problem = .unterminatedInterpolation) :
    ∃ entry ∈ pieces source, d ∈ entry.2 := by
  rcases List.mem_append.mp member with member | unclosed
  · exact Nesting.mem_run member (congrArg Problem.severity problem_eq)
  · obtain ⟨element, -, rfl⟩ := List.mem_map.mp unclosed
    cases problem_eq

theorem exists_piece_of_text {o : Occurrence} (held : (parse source url).template.Contains o)
    (isText : o.kind = .text) :
    ∃ noticed, (Piece.text o.span o.node.children, noticed) ∈ pieces source := by
  let P : Node → Prop := Everywhere fun node =>
    node.kind = .text → ∃ noticed, (Piece.text node.span node.children, noticed) ∈ pieces source
  have other : ∀ {kind : Kind} {span : Span} {children : List Node}, kind ≠ .text →
      (∀ child ∈ children, P child) → P (Node.mk kind span children) :=
    fun apart below => .intro (fun isText => absurd isText apart) below
  have inner : ∀ node : Node, Everywhere Plain node → P node := fun node plain =>
    plain.mono fun node plain isText => absurd plain.2 (by rw [isText]; simp [Kind.isMarkup])
  have encloses : Encloses (fun _ => True) P := fun name span children _ _ below =>
    other Kind.noConfusion below
  have held' : ∀ entry ∈ pieces source, ∀ node ∈ entry.1.complete, P node := by
    intro entry listed node member
    obtain ⟨piece, noticed⟩ := entry
    have plain := plain_nodes ((follow_pieces source).holds _ listed)
    cases piece with
    | text span interpolations =>
      cases List.mem_singleton.mp member
      exact .intro (fun _ => ⟨noticed, listed⟩) fun child below => inner child (plain child below)
    | comment span =>
      cases List.mem_singleton.mp member
      exact other Kind.noConfusion (by simp)
    | startTag => exact inner node (plain node member)
    | endTag => cases member
  have children := forall_children_of_complete encloses source url
    (fun _ _ => ⟨trivial, trivial⟩) trivial held'
  have root : P (parse source url).template.root := other Kind.noConfusion children
  exact (root.of_contains held).here isText

/-- Where a text is read, both scans find the same pairs. -/
theorem Reads.scanned {span : Span} {nodes : List Node} {noticed : List Diagnostic}
    (reads : Reads c (.text span nodes, noticed) d) (reached : (Cursor.start source).Reaches c) :
    ∃ text left, text.StandsAt c.offset source ∧ span = ⟨c.offset, c.offset + text.byteLength⟩ ∧
      Scanned c.offset text (nodes, noticed) left ∧
      Agree c.offset text c.rest (nodes.map Node.span) left := by
  have plain : opening? c.rest = none := reads.opening?_eq
  have nonempty : c.rest ≠ [] := reads.1
  obtain ⟨entry_eq, -⟩ := reads.unique (Reads.text plain nonempty)
  cases entry_eq
  obtain ⟨left, scanned⟩ := exists_scanned c.offset (c.rest.take (textLength c.rest))
  obtain ⟨spans, left', agree⟩ := agree_textLength c.offset c.rest
  obtain ⟨rfl, rfl⟩ := agree.inside.unique scanned.pairs
  exact ⟨_, left', reached.standsAt_take _, rfl, scanned, agree⟩

/-- What a text node holds, by the marks that stand in its source: `text` is the text of
the node, `rest` all that follows its start, and `left` the place of a mark in the text
that nothing ends. -/
structure Interpolated (parsed : ParsedTemplate) (node : Node) (text rest : Text)
    (left : Option Nat) : Prop where
  textIn : node.span.textIn? parsed.template.source = some text
  behind : parsed.template.source.dropBytes? node.span.start = some rest
  kinds : ∀ child ∈ node.children, child.kind = .interpolation
  agree : Agree node.span.start text rest (node.children.map Node.span) left
  noticed : ∀ d ∈ parsed.diagnostics, d.problem = .unterminatedInterpolation →
    node.span.start ≤ d.span.start → d.span.start < node.span.stop → left = some d.span.start
  recorded : ∀ start, left = some start →
    ⟨⟨start, node.span.stop⟩, .unterminatedInterpolation⟩ ∈ parsed.diagnostics
  endless : ∀ start, left = some start → ∃ later,
    parsed.template.source.dropBytes? (start + 2) = some later ∧ ¬interpolationEnd <:+: later

/-- The children of a text node are the pairs of marks in its text, which are the first
pairs in all that is left of the source. A warning in a text is about the mark that is
left, and no mark that ends an interpolation follows in the source. -/
theorem interpolated_parse (source url : Text) {o : Occurrence}
    (held : (parse source url).template.Contains o) (isText : o.kind = .text) :
    ∃ text rest left, Interpolated (parse source url) o.node text rest left := by
  obtain ⟨noticed, listed⟩ := exists_piece_of_text held isText
  obtain ⟨_, through, -⟩ := exists_through (Cursor.start source)
  obtain ⟨c, d, reached, reads⟩ := through.exists_reads listed
  obtain ⟨text, left, stands, span_eq, scanned, agree⟩ := reads.scanned reached
  have span_eq : o.node.span = ⟨c.offset, c.offset + text.byteLength⟩ := span_eq
  refine ⟨text, c.rest, left, ⟨?_, ?_, scanned.kinds, ?_, ?_, ?_, ?_⟩⟩
  · rw [span_eq]
    exact stands.slice?_eq
  · rw [span_eq]
    exact reached.dropBytes?_eq
  · rw [span_eq]
    exact agree
  · intro d member problem_eq start_le lt_stop
    obtain ⟨entry, listed', noticed'⟩ := exists_piece_of_unterminated member problem_eq
    have warning : d.severity = .warning := congrArg Problem.severity problem_eq
    -- The warning lies in its piece, and there is only one piece around it.
    have inside := through.warnedIn (.refl _) entry listed' d noticed' warning
    cases through.eq_of_inside (.refl _) listed listed' ⟨start_le, lt_stop⟩ inside
    exact scanned.noticed d noticed' warning
  · intro start open_
    rw [span_eq]
    exact List.mem_append_left _ (Nesting.mem_run_of_mem listed (scanned.recorded start open_))
  · intro start open_
    obtain ⟨later, left', whole, -, same⟩ := agree.whole
    rw [same start open_] at whole
    obtain ⟨front, inner, rest_eq, rfl, absent⟩ := whole.exists_unclosed
    refine ⟨inner, ?_, absent⟩
    have reaches : c.Reaches ⟨c.offset + front.byteLength + 2, inner⟩ := by
      refine ⟨front ++ interpolationStart, rest_eq, ?_⟩
      rw [Text.byteLength_append, ← Nat.add_assoc]
      rfl
    exact (reached.trans reaches).dropBytes?_eq

/-- The second mark that starts an interpolation is left open, and the tag behind it ends
the text. -/
theorem interpolated_parse_open : ∃ (o : Occurrence) (text rest : Text) (left : Option Nat),
    (parse "\x7b\x7ba<b\x7d\x7d \x7b\x7bc<i>".toList []).template.Contains o ∧ o.kind = .text ∧
      o.span = ⟨0, 11⟩ ∧
      Interpolated (parse "\x7b\x7ba<b\x7d\x7d \x7b\x7bc<i>".toList []) o.node text rest left := by
  have passed : ((parse "\x7b\x7ba<b\x7d\x7d \x7b\x7bc<i>".toList []).template.occurrence? [0]).any
      (fun o => decide (o.kind = .text ∧ o.span = ⟨0, 11⟩)) = true := by
    decide +kernel
  obtain ⟨o, found, shape⟩ := (Option.any_eq_true _ _).mp passed
  obtain ⟨isText, span_eq⟩ := of_decide_eq_true shape
  have held := (Template.occurrence?_eq_some_iff.mp found).1
  obtain ⟨text, rest, left, interpolated⟩ := interpolated_parse _ _ held isText
  exact ⟨o, text, rest, left, held, isText, span_eq, interpolated⟩

end Markup

end ComponentExtraction
