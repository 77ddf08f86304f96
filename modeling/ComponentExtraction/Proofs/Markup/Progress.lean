import ComponentExtraction.Proofs.Expression.Progress
import ComponentExtraction.Proofs.Markup.Reading
import ComponentExtraction.Proofs.Markup.Relocation

/-!
# Loops over a source end

A source is read by three loops: over its pieces, over the characters and interpolations
of a text, and over the attributes of a start tag. Each turn moves the cursor on by at
least one character and never past the end of the source (`Scans`). In a start tag this
holds although a turn may find no name, no value and no end of the tag: what is left then
is passed over. Together with the loops over tokens these are all that reading takes
(`parsing_ends`).
-/

namespace ComponentExtraction

namespace Cursor

variable {c d : Cursor}

theorem skip_skip (n m : Nat) (c : Cursor) : (c.skip n).skip m = c.skip (n + m) := by
  simp only [skip, List.take_add, List.drop_drop, Text.byteLength_append, Nat.add_assoc]

theorem Reaches.finish_eq (h : c.Reaches d) : c.finish = d.finish := by
  obtain ⟨taken, rest_eq, offset_eq⟩ := h
  simp only [finish, rest_eq, offset_eq, Text.byteLength_append, Nat.add_assoc]

theorem finish_of_rest (done : c.rest = []) : c.finish = c := by
  obtain ⟨offset, rest⟩ := c
  cases done
  rfl

end Cursor

namespace Markup

variable {σ : Type} {source : Text} {c : Cursor}

/-- A loop that reads a source, by the place of its states: another turn moves on in the
source, and the loop ends with its outcome, still in the source. -/
structure Scans (source : Text) (place : σ → Cursor) (body : σ → ForInStep σ)
    (outcome : σ → σ) : Prop where
  advances : ∀ s t, (Cursor.start source).Reaches (place s) → body s = .yield t →
    (Cursor.start source).Reaches (place t) ∧ (place s).offset < (place t).offset ∧
      (place t).offset ≤ source.byteLength
  stops : ∀ s, (Cursor.start source).Reaches (place s) →
    (place (outcome s)).offset ≤ source.byteLength ∧
      ∃ turns ≤ (place s).rest.length + 1, Loop.Stops body s turns (outcome s)

theorem Scans.of_turns {place : σ → Cursor} {body : σ → ForInStep σ} {outcome : σ → σ}
    (turns : ∀ s, Loop.Turn (fun s t => (place s).Advances (place t)) outcome s (body s))
    (reaches : ∀ s, (place s).Reaches (place (outcome s))) (source : Text) :
    Scans source place body outcome := by
  refine ⟨fun s t reached again => ?_, fun s reached => ⟨?_, ?_⟩⟩
  · have turn := turns s
    rw [again] at turn
    have reached' := reached.trans turn.next.1
    exact ⟨reached', turn.next.offset_lt, reached'.boundary.le⟩
  · exact (reached.trans (reaches s)).boundary.le
  · exact Loop.Stops.of_turns (fun s => (place s).rest.length) (fun s t next => next.2) turns s

def pieceTurn : List (Piece × List Diagnostic) × Cursor →
    ForInStep (List (Piece × List Diagnostic) × Cursor)
  | (found, c) =>
    if h : c.rest = [] then .done (found, c)
    else
      let piece := readPiece c h
      .yield (found ++ [(piece.value, piece.diagnostics)], piece.after)

theorem scans_pieces (source : Text) :
    Scans source Prod.snd pieceTurn fun s => (s.1 ++ piecesFrom s.2, s.2.finish) := by
  refine .of_turns (fun (found, c) => ?_) (fun s => Cursor.reaches_finish s.2) source
  rw [pieceTurn]
  split
  · next done =>
    refine .ended ?_
    dsimp only
    rw [piecesFrom, dif_pos done, List.append_nil, Cursor.finish_of_rest done]
  · next nonempty =>
    have advances := (readPiece c nonempty).advances
    refine .again advances ?_
    dsimp only
    rw [piecesFrom, dif_neg nonempty, List.append_cons, advances.1.finish_eq]

/-- Number of characters that a turn of the loop over a text passes: an interpolation, the
mark of one that nothing ends, or a single character. -/
def stride? (text : Text) : Option Nat :=
  if text = [] ∨ (opening? text).isSome then none
  else
    match Text.stripStart? interpolationStart text with
    | none => some 1
    | some inner =>
      match Text.splitOnce? interpolationEnd inner with
      | none => some 2
      | some (expression, _) => some (expression.length + 4)

def textTurn (c : Cursor) : ForInStep Cursor :=
  match stride? c.rest with
  | none => .done c
  | some length => .yield (c.skip length)

theorem textLength_of_none {text : Text} (ended : stride? text = none) : textLength text = 0 := by
  fun_cases textLength text with
  | case1 => rfl
  | case2 => rfl
  | case3 first rest plain other => simp [stride?, plain, other] at ended
  | case4 first rest plain inner starts unclosed =>
    simp [stride?, plain, starts, unclosed] at ended
  | case5 first rest plain inner starts expression after found =>
    simp [stride?, plain, starts, found] at ended

/-- A text is as long as what a turn passes and the text behind that. -/
theorem textLength_of_some {text : Text} {length : Nat} (again : stride? text = some length) :
    0 < length ∧ textLength text = length + textLength (text.drop length) := by
  fun_cases textLength text with
  | case1 => simp [stride?] at again
  | case2 first rest opens => simp [stride?, opens] at again
  | case3 first rest plain other =>
    simp [stride?, plain, other] at again
    subst again
    exact ⟨Nat.one_pos, Nat.add_comm _ _⟩
  | case4 first rest plain inner starts unclosed =>
    simp [stride?, plain, starts, unclosed] at again
    subst again
    rw [Text.eq_append_of_stripStart? starts]
    exact ⟨Nat.two_pos, Nat.add_comm _ _⟩
  | case5 first rest plain inner starts expression after found =>
    simp [stride?, plain, starts, found] at again
    subst again
    have text_eq : first :: rest = (interpolationStart ++ expression ++ interpolationEnd) ++ after := by
      rw [Text.eq_append_of_stripStart? starts, Text.eq_append_of_splitOnce? found]
      simp only [List.append_assoc]
    have length_eq : expression.length + 4 =
        (interpolationStart ++ expression ++ interpolationEnd).length := by
      simp only [interpolationStart, interpolationEnd, List.length_append, List.length_cons,
        List.length_nil]
      omega
    refine ⟨Nat.succ_pos _, ?_⟩
    rw [text_eq, length_eq, List.drop_left, Nat.add_comm]

theorem scans_text (source : Text) :
    Scans source id textTurn fun c => c.skip (textLength c.rest) := by
  refine .of_turns (fun c => ?_) (fun c => Cursor.reaches_skip _ c) source
  unfold textTurn
  split
  · next ended =>
    refine .ended ?_
    rw [textLength_of_none ended]
    rfl
  · next length again =>
    obtain ⟨positive, length_eq⟩ := textLength_of_some again
    have nonempty : c.rest ≠ [] := by
      intro done
      simp [done, stride?] at again
    refine .again (Cursor.advances_skip positive nonempty) ?_
    rw [length_eq, Cursor.skip_skip, Cursor.rest_skip]

/-- A turn of the loop over the attributes of a start tag. -/
def tagTurn : List Node × Cursor → ForInStep (List Node × Cursor)
  | (attributes, c) =>
    let here := c.skipWhile Text.isSpace
    match h : here.rest with
    | [] => .done (attributes, here)
    | first :: rest =>
      if first == '/' && rest.head? == some '>' then .done (attributes, here.skip 2)
      else if first == '>' then .done (attributes, here.skip 1)
      else if first == '/' || first == '<' then .yield (attributes, here.skip 1)
      else
        let found := readAttribute here fun done => List.cons_ne_nil first rest (h.symm.trans done)
        .yield (attributes ++ found.value.toList, found.after)

/-- At the end of the source a tag ends without its mark. -/
theorem outcome_readTagBody_nil (tag : Text) (start : Nat)
    (rest_eq : (c.skipWhile Text.isSpace).rest = []) :
    (readTagBody tag start c).outcome =
      ⟨[], false, [⟨⟨start, (c.skipWhile Text.isSpace).offset⟩, .unclosedStartTag tag⟩],
        c.skipWhile Text.isSpace⟩ := by
  rw [readTagBody]
  dsimp only
  split
  · rfl
  · next cons_eq => exact absurd (rest_eq.symm.trans cons_eq) (by simp)

/-- Slashes and angle brackets inside a tag are passed over. -/
theorem outcome_readTagBody_stray (tag : Text) (start : Nat) {here : Cursor} {first : Char}
    {rest : Text} (here_eq : c.skipWhile Text.isSpace = here) (rest_eq : here.rest = first :: rest)
    (unclosed : ¬(first == '/' && rest.head? == some '>') = true)
    (stray : (first == '/' || first == '<') = true) :
    (readTagBody tag start c).outcome =
      let more := (readTagBody tag start (here.skip 1)).outcome
      ⟨more.attributes, more.selfClosing,
        ⟨⟨here.offset, (here.skip 1).offset⟩, .strayCharacterInTag tag⟩ :: more.diagnostics,
        more.after⟩ := by
  subst here_eq
  have inside : ¬(first == '>') = true := by
    rcases Bool.or_eq_true_iff.mp stray with same | same <;>
    · cases beq_iff_eq.mp same
      decide
  rw [readTagBody]
  dsimp only
  split
  · next empty => exact absurd (rest_eq.symm.trans empty) (by simp)
  · next cons_eq =>
    cases rest_eq.symm.trans cons_eq
    simp only [unclosed, inside, stray, if_true, if_false, Bool.false_eq_true]
    rfl

theorem scans_tag (source name : Text) (start : Nat) :
    Scans source Prod.snd tagTurn fun s =>
      (s.1 ++ (readTagBody name start s.2).attributes, (readTagBody name start s.2).after) := by
  refine .of_turns (fun (attributes, c) => ?_) (fun s => (readTagBody name start s.2).reaches)
    source
  have spaces := Cursor.reaches_skipWhile Text.isSpace c
  -- What a tag gives is known from its outcome, which does not mention where it was read.
  have give : ∀ {outcome : TagOutcome}, (readTagBody name start c).outcome = outcome →
      (attributes ++ (readTagBody name start c).attributes, (readTagBody name start c).after) =
        (attributes ++ outcome.attributes, outcome.after) := by
    rintro _ rfl
    rfl
  simp only [tagTurn]
  split
  · next done =>
    refine .ended ?_
    rw [give (outcome_readTagBody_nil name start done), List.append_nil]
  · next first rest rest_eq =>
    have nonempty : (c.skipWhile Text.isSpace).rest ≠ [] := by
      rw [rest_eq]
      exact List.cons_ne_nil first rest
    split
    · next closes =>
      obtain ⟨slash, mark⟩ := Bool.and_eq_true_iff.mp closes
      obtain ⟨tail, rfl⟩ := List.head?_eq_some_iff.mp (beq_iff_eq.mp mark)
      cases beq_iff_eq.mp slash
      refine .ended ?_
      rw [give (outcome_readTagBody_selfClosing name start rest_eq), List.append_nil]
    split
    · next mark =>
      cases beq_iff_eq.mp mark
      refine .ended ?_
      rw [give (outcome_readTagBody_end name start rest_eq), List.append_nil]
    split
    · next unclosed _ stray =>
      refine .again (spaces.advances (Cursor.advances_skip Nat.one_pos nonempty)) ?_
      exact give (outcome_readTagBody_stray name start rfl rest_eq unclosed stray)
    · next _ other plain =>
      have plain : first ≠ '/' ∧ first ≠ '>' ∧ first ≠ '<' := by
        simpa [not_or, and_left_comm] using And.intro other plain
      refine .again (spaces.advances (readAttribute _ nonempty).advances) ?_
      have read := outcome_readTagBody_attribute name start rfl rest_eq plain nonempty
      exact (give read).trans (congrArg (·, _) (List.append_assoc _ _ _).symm)

/-- All loops that read a source move on with every turn and end. -/
structure Progress (source : Text) : Prop where
  pieces : Scans source Prod.snd pieceTurn fun s => (s.1 ++ piecesFrom s.2, s.2.finish)
  texts : Scans source id textTurn fun c => c.skip (textLength c.rest)
  tags : ∀ name start, Scans source Prod.snd tagTurn fun s =>
    (s.1 ++ (readTagBody name start s.2).attributes, (readTagBody name start s.2).after)

theorem progress (source : Text) : Progress source :=
  ⟨scans_pieces source, scans_text source, scans_tag source⟩

/-- Reading always ends: every loop over a source moves on inside of it, every expression
takes a token where there is one, and so does every turn of a loop over tokens. -/
theorem parsing_ends (source : Text) (cx : Expression.Context) :
    Progress source ∧ Expression.Progress cx :=
  ⟨progress source, Expression.progress cx⟩

end Markup

end ComponentExtraction
