import Mathlib.Data.List.Forall2
import ComponentExtraction.Proofs.Expression.Relocation
import ComponentExtraction.Proofs.Markup.Outline
import ComponentExtraction.Proofs.Markup.Reading

/-!
# Pieces elsewhere

A piece without problems depends on its own text only: it is read again wherever that
text stands and whatever stands behind it. For a tag or a comment this is so because
its end is part of it; a text ends in front of a tag or comment, so something of the
kind has to follow it again. What is read again does the same to the open elements
and holds no error (`Through.elsewhere`).
-/

namespace ComponentExtraction

open Diagnostic

namespace Text

/-- Whether a text starts with a pattern is decided by as many characters as the
pattern has. -/
theorem stripStart?_append_of_le {pattern text : Text} (enough : pattern.length ≤ text.length)
    (more : Text) : stripStart? pattern (text ++ more) = (stripStart? pattern text).map (· ++ more) := by
  induction pattern generalizing text with
  | nil => simp [stripStart?]
  | cons a pattern ih =>
    cases text with
    | nil => exact absurd enough (by simp)
    | cons c text =>
      simp only [List.length_cons, Nat.add_le_add_iff_right] at enough
      rw [List.cons_append, stripStart?, stripStart?]
      split
      · exact ih enough
      · rfl

/-- The first place of a pattern does not depend on what stands behind it. -/
theorem splitOnce?_append {pattern before after : Text}
    (found : splitOnce? pattern (before ++ pattern ++ after) = some (before, after))
    (after' : Text) : splitOnce? pattern (before ++ pattern ++ after') = some (before, after') := by
  induction before with
  | nil =>
    cases text_eq : pattern ++ after' with
    | nil =>
      obtain ⟨rfl, rfl⟩ := List.append_eq_nil_iff.mp text_eq
      rfl
    | cons c text =>
      have starts : stripStart? pattern (c :: text) = some after' := by
        rw [← text_eq]
        exact stripStart?_append pattern after'
      rw [List.nil_append, text_eq, splitOnce?, starts]
  | cons c before ih =>
    have starts : ∀ more, stripStart? pattern (c :: (before ++ pattern ++ more)) =
        (stripStart? pattern (c :: (before ++ pattern))).map (· ++ more) := by
      intro more
      have enough : pattern.length ≤ (c :: (before ++ pattern)).length := by
        simp only [List.length_cons, List.length_append]
        omega
      exact stripStart?_append_of_le enough more
    simp only [List.cons_append, splitOnce?, starts] at found ⊢
    cases first : stripStart? pattern (c :: (before ++ pattern)) with
    | some other =>
      rw [first] at found
      exact absurd found (by simp)
    | none =>
      rw [first] at found
      simp only [Option.map_none, Option.map_eq_some_iff, Prod.mk.injEq, List.cons.injEq] at found
      obtain ⟨⟨front, back⟩, found, ⟨-, rfl⟩, rfl⟩ := found
      rw [ih found]
      rfl

end Text

namespace Markup

def TagAhead (rest rest' : Text) : Prop :=
  ∃ body tail tail', rest = body ++ '>' :: tail ∧ rest' = body ++ '>' :: tail'

namespace TagAhead

variable {rest rest' : Text} {p : Char → Bool}

theorem ne_nil (h : TagAhead rest rest') : rest ≠ [] := by
  obtain ⟨body, tail, tail', rfl, -⟩ := h
  simp

theorem head?_append (h : TagAhead rest rest') (before : Text) :
    (before ++ rest).head? = (before ++ rest').head? := by
  obtain ⟨body, tail, tail', rfl, rfl⟩ := h
  cases before with
  | nil => cases body <;> rfl
  | cons c before => rfl

theorem head?_eq (h : TagAhead rest rest') : rest.head? = rest'.head? :=
  h.head?_append []

theorem tail {first : Char} (h : TagAhead (first :: rest) rest') (inside : first ≠ '>') :
    ∃ more, rest' = first :: more ∧ TagAhead rest more := by
  obtain ⟨body, tail, tail', rest_eq, rfl⟩ := h
  cases body with
  | nil =>
    cases rest_eq
    exact absurd rfl inside
  | cons c body =>
    cases rest_eq
    exact ⟨_, rfl, body, tail, tail', rfl, rfl⟩

theorem dropWhile (h : TagAhead rest rest') (inside : p '>' = false) :
    TagAhead (rest.dropWhile p) (rest'.dropWhile p) := by
  obtain ⟨body, tail, tail', rfl, rfl⟩ := h
  induction body with
  | nil => exact ⟨[], tail, tail', by simp [inside], by simp [inside]⟩
  | cons c body ih =>
    rw [List.cons_append, List.cons_append, List.dropWhile_cons, List.dropWhile_cons]
    split
    · exact ih
    · exact ⟨c :: body, tail, tail', rfl, rfl⟩

theorem takeWhile_eq (h : TagAhead rest rest') (inside : p '>' = false) :
    rest.takeWhile p = rest'.takeWhile p := by
  obtain ⟨body, tail, tail', rfl, rfl⟩ := h
  induction body with
  | nil => simp [inside]
  | cons c body ih =>
    rw [List.cons_append, List.cons_append, List.takeWhile_cons, List.takeWhile_cons, ih]

theorem append (h : TagAhead rest rest') (before : Text) :
    TagAhead (before ++ rest) (before ++ rest') := by
  obtain ⟨body, tail, tail', rfl, rfl⟩ := h
  exact ⟨before ++ body, tail, tail', by simp, by simp⟩

end TagAhead

variable {c : Cursor} {name : Text}

section

variable {text before inner expression after : Text}

theorem interpolations_none (offset : Nat)
    (none_eq : Text.splitOnce? interpolationStart text = none) :
    interpolations offset text = ([], []) := by
  rw [interpolations]
  split
  · rfl
  · next found => exact absurd (none_eq.symm.trans found) (by simp)

theorem interpolations_open (offset : Nat)
    (found : Text.splitOnce? interpolationStart text = some (before, inner))
    (none_eq : Text.splitOnce? interpolationEnd inner = none) :
    interpolations offset text = ([], [⟨⟨offset + before.byteLength,
      offset + before.byteLength + 2 + inner.byteLength⟩, .unterminatedInterpolation⟩]) := by
  rw [interpolations]
  split
  · next other => exact absurd (other.symm.trans found) (by simp)
  · next other =>
    cases other.symm.trans found
    split
    · rfl
    · next other => exact absurd (none_eq.symm.trans other) (by simp)

theorem interpolations_closed (offset : Nat)
    (found : Text.splitOnce? interpolationStart text = some (before, inner))
    (found' : Text.splitOnce? interpolationEnd inner = some (expression, after)) :
    (interpolations offset text).2 =
      (Expression.parse .binding (offset + before.byteLength + 2) expression).2 ++
        (interpolations (offset + before.byteLength + 2 + expression.byteLength + 2) after).2 := by
  rw [interpolations]
  split
  · next other => exact absurd (other.symm.trans found) (by simp)
  · next other =>
    cases other.symm.trans found
    split
    · next other => exact absurd (other.symm.trans found') (by simp)
    · next other =>
      cases other.symm.trans found'
      rfl

end

theorem harmless_interpolations_of_offset {offset : Nat} {text : Text}
    (harmless : Harmless (interpolations offset text).2) (offset' : Nat) :
    Harmless (interpolations offset' text).2 := by
  fun_induction interpolations offset text generalizing offset' with
  | case1 offset text none_eq => simp [interpolations_none offset' none_eq]
  | case2 offset text before inner found start none_eq =>
    simp [interpolations_open offset' found none_eq, severity, Problem.severity]
  | case3 offset text before inner found start expression after found' stop parsed more ih =>
    obtain ⟨harmless₁, harmless₂⟩ := harmless_append.mp harmless
    rw [interpolations_closed offset' found found']
    exact harmless_append.mpr ⟨Expression.harmless_parse_of_offset harmless₁ _, ih harmless₂ _⟩

theorem harmless_valueNodes {kind : Kind} {form : ValueForm} {value value' : Value}
    (same : value'.text = value.text) (harmless : Harmless (valueNodes kind form value).2) :
    Harmless (valueNodes kind form value').2 := by
  cases form with
  | binding | action =>
    unfold valueNodes at harmless ⊢
    rw [same]
    exact Expression.harmless_parse_of_offset harmless _
  | directive =>
    unfold valueNodes at harmless ⊢
    rw [same]
    exact Expression.Directive.harmless_parse_of_offset harmless _
  | interpolated =>
    unfold valueNodes at harmless ⊢
    rw [same]
    exact harmless_interpolations_of_offset harmless _
  | ignored => exact harmless

theorem unquotedLength_le (text : Text) : unquotedLength text ≤ text.length := by
  induction text with
  | nil => exact Nat.le_refl 0
  | cons c text ih =>
    rw [unquotedLength]
    split
    · exact Nat.zero_le _
    · exact Nat.succ_le_succ ih

theorem unquotedLength_eq {rest rest' : Text} (ahead : TagAhead rest rest') {text : Text}
    (length_eq : unquotedLength (text ++ rest) = text.length) :
    unquotedLength (text ++ rest') = text.length := by
  induction text with
  | nil =>
    cases rest with
    | nil => exact absurd rfl ahead.ne_nil
    | cons first rest =>
      by_cases ends : first = '>'
      · obtain ⟨more, rfl⟩ : ∃ more, rest' = '>' :: more := by
          simpa [ends, List.head?_eq_some_iff] using ahead.head?_eq.symm
        simp [unquotedLength]
      · obtain ⟨more, rfl, behind⟩ := ahead.tail ends
        rw [List.nil_append, unquotedLength] at length_eq ⊢
        rw [← behind.head?_eq]
        split at length_eq
        · next stops => exact if_pos stops
        · exact absurd length_eq (by simp)
  | cons c text ih =>
    rw [List.cons_append, unquotedLength] at length_eq ⊢
    rw [← ahead.head?_append]
    split at length_eq
    · exact absurd length_eq (by simp)
    · next inside =>
      rw [if_neg inside, ih (by simpa using length_eq)]
      rfl

theorem exists_quoted {quote : Char} {rest : Text} (rest_eq : c.rest = quote :: rest)
    (isQuote : Text.isQuote quote = true) (clean : (readValue name c).diagnostics = []) :
    ∃ text tail, quote ∉ text ∧ rest = text ++ quote :: tail := by
  have outside : quote ∉ rest.takeWhile (· != quote) := by
    intro member
    simpa using List.all_eq_true.mp List.all_takeWhile quote member
  unfold readValue at clean
  simp only [rest_eq, isQuote, if_true] at clean
  split at clean
  · next shorter =>
    have split := List.takeWhile_append_dropWhile (p := (· != quote)) (l := rest)
    cases dropped : rest.dropWhile (· != quote) with
    | nil =>
      rw [dropped, List.append_nil] at split
      rw [split] at shorter
      exact absurd shorter (Nat.lt_irrefl _)
    | cons first tail =>
      have ends := List.head?_dropWhile_not (· != quote) rest
      rw [dropped] at ends split
      have first_eq : first = quote := by simpa using ends
      exact ⟨_, tail, outside, split.symm.trans (by rw [first_eq])⟩
  · exact absurd clean (by simp)

theorem readValue_unquoted {first : Char} {rest : Text} (rest_eq : c.rest = first :: rest)
    (plain : Text.isQuote first = false) :
    readValue name c = ⟨c.rest.take (unquotedLength c.rest), c.offset,
      c.skip (unquotedLength c.rest), []⟩ := by
  unfold readValue
  simp only [rest_eq, plain, Bool.false_eq_true, if_false]

theorem readValue_elsewhere {before rest' : Text} (clean : (readValue name c).diagnostics = [])
    (split : c.rest = before ++ (readValue name c).after.rest)
    (ahead : TagAhead (readValue name c).after.rest rest') {c' : Cursor}
    (rest_eq : c'.rest = before ++ rest') :
    (readValue name c').text = (readValue name c).text ∧
      (readValue name c').after.rest = rest' ∧ (readValue name c').diagnostics = [] := by
  cases c_eq : c.rest with
  | nil =>
    have after_eq : (readValue name c).after.rest = [] := by
      simp only [readValue, c_eq]
    exact absurd after_eq ahead.ne_nil
  | cons first rest =>
    by_cases quote : Text.isQuote first = true
    · obtain ⟨text, tail, outside, rfl⟩ := exists_quoted c_eq quote clean
      have read := readValue_quoted name quote outside c_eq
      rw [read] at split ahead ⊢
      have before_eq : before = first :: (text ++ [first]) := by
        rw [c_eq] at split
        have : first :: (text ++ [first]) ++ tail = before ++ tail := by simpa using split
        exact (List.append_cancel_right this).symm
      have c'_eq : c'.rest = first :: (text ++ first :: rest') := by
        rw [rest_eq, before_eq]
        simp
      rw [readValue_quoted name quote outside c'_eq]
      exact ⟨rfl, rfl, rfl⟩
    · have plain := Bool.not_eq_true _ ▸ quote
      rw [readValue_unquoted c_eq plain] at split ahead ⊢
      rw [Cursor.rest_skip] at split ahead
      have before_eq : before = c.rest.take (unquotedLength c.rest) := by
        have := (List.take_append_drop (unquotedLength c.rest) c.rest).trans split
        exact (List.append_cancel_right this).symm
      have length_eq : unquotedLength (before ++ c.rest.drop (unquotedLength c.rest)) =
          before.length := by
        rw [← split, before_eq, List.length_take, Nat.min_eq_left (unquotedLength_le _)]
      have length_eq' := unquotedLength_eq ahead length_eq
      obtain ⟨more, c'_eq⟩ : ∃ more, c'.rest = first :: more := by
        refine List.head?_eq_some_iff.mp ?_
        rw [rest_eq, ← ahead.head?_append, ← split, c_eq, List.head?_cons]
      rw [readValue_unquoted c'_eq plain, rest_eq, length_eq', Cursor.rest_skip, rest_eq,
        List.take_left, List.drop_left]
      exact ⟨before_eq, rfl, rfl⟩

section

variable (nonempty : c.rest ≠ [])

theorem readAttribute_stray (stray : c.rest.takeWhile isNamePart = []) :
    (readAttribute c nonempty).after = c.skip 1 ∧ (readAttribute c nonempty).diagnostics = [] := by
  unfold readAttribute
  simp only [stray, dite_true, and_self]

theorem readAttribute_plain (named : c.rest.takeWhile isNamePart ≠ [])
    (plain : ∀ more, (c.rest.dropWhile isNamePart).dropWhile Text.isSpace ≠ '=' :: more) :
    (readAttribute c nonempty).after = c.skipWhile isNamePart ∧
      (readAttribute c nonempty).diagnostics = [] := by
  unfold readAttribute
  simp only [named, dite_false, Cursor.rest_skipWhile, and_self]

theorem readAttribute_valued (named : c.rest.takeWhile isNamePart ≠ []) {more : Text}
    (equals : (c.rest.dropWhile isNamePart).dropWhile Text.isSpace = '=' :: more) :
    ∃ start : Cursor, start.rest = more.dropWhile Text.isSpace ∧
      c.rest = c.rest.takeWhile isNamePart ++ ((c.rest.dropWhile isNamePart).takeWhile Text.isSpace
        ++ '=' :: more.takeWhile Text.isSpace) ++ start.rest ∧
      let name := c.rest.takeWhile isNamePart
      let value := readValue name start
      (readAttribute c nonempty).after = value.after ∧ (readAttribute c nonempty).diagnostics =
        value.diagnostics ++ (valueNodes (classify name).1 (classify name).2 value).2 := by
  have sign : ((c.skipWhile isNamePart).skipWhile Text.isSpace).rest = '=' :: more := equals
  refine ⟨(((c.skipWhile isNamePart).skipWhile Text.isSpace).skip 1).skipWhile Text.isSpace,
    ?_, ?_, ?_⟩
  · rw [Cursor.rest_skipWhile, Cursor.rest_skip, sign, List.drop_one, List.tail_cons]
  · rw [Cursor.rest_skipWhile, Cursor.rest_skip, sign, List.drop_one, List.tail_cons]
    calc c.rest = c.rest.takeWhile isNamePart ++
          ((c.rest.dropWhile isNamePart).takeWhile Text.isSpace ++ '=' :: more) := by
          rw [← equals, List.takeWhile_append_dropWhile, List.takeWhile_append_dropWhile]
      _ = _ := by
          simp only [List.append_assoc, List.cons_append, List.takeWhile_append_dropWhile]
  · unfold readAttribute
    simp only [named, dite_false, sign, and_self]

end

section

variable {c' : Cursor} {before rest' : Text}

/-- An attribute is read again, if the tag goes on as before. -/
theorem readAttribute_elsewhere (nonempty : c.rest ≠ []) (nonempty' : c'.rest ≠ [])
    (clean : (readAttribute c nonempty).diagnostics = [])
    (split : c.rest = before ++ (readAttribute c nonempty).after.rest)
    (ahead : TagAhead (readAttribute c nonempty).after.rest rest')
    (rest_eq : c'.rest = before ++ rest') :
    (readAttribute c' nonempty').after.rest = rest' ∧
      Harmless (readAttribute c' nonempty').diagnostics := by
  have same : TagAhead c.rest c'.rest := by
    rw [split, rest_eq]
    exact ahead.append before
  -- The same name is read, and behind it the tags agree as before.
  have name_eq : c.rest.takeWhile isNamePart = c'.rest.takeWhile isNamePart :=
    same.takeWhile_eq (by decide)
  have behind_name : TagAhead (c.rest.dropWhile isNamePart) (c'.rest.dropWhile isNamePart) :=
    same.dropWhile (by decide)
  have behind_blanks := behind_name.dropWhile (p := Text.isSpace) (by decide)
  by_cases stray : c.rest.takeWhile isNamePart = []
  · obtain ⟨after_eq, -⟩ := readAttribute_stray nonempty stray
    obtain ⟨after_eq', clean'⟩ :=
      readAttribute_stray nonempty' (name_eq.symm.trans stray)
    have length_eq := congrArg List.length split
    have length_pos := List.length_pos_iff.mpr nonempty
    rw [after_eq, Cursor.rest_skip, List.length_append, List.length_drop] at length_eq
    have one : before.length = 1 := by omega
    rw [after_eq', clean', Cursor.rest_skip, rest_eq, ← one, List.drop_left]
    exact ⟨rfl, harmless_nil⟩
  have named' : c'.rest.takeWhile isNamePart ≠ [] := name_eq ▸ stray
  by_cases valued : ∃ more, (c.rest.dropWhile isNamePart).dropWhile Text.isSpace = '=' :: more
  · obtain ⟨more, equals⟩ := valued
    rw [equals] at behind_blanks
    obtain ⟨more', equals', behind_sign⟩ := behind_blanks.tail (by decide)
    obtain ⟨start, start_eq, front, after_eq, noticed_eq⟩ :=
      readAttribute_valued nonempty stray equals
    obtain ⟨start', start_eq', front', after_eq', noticed_eq'⟩ :=
      readAttribute_valued nonempty' named' equals'
    rw [← name_eq] at front' after_eq' noticed_eq'
    rw [← behind_name.takeWhile_eq (by decide), ← behind_sign.takeWhile_eq (by decide)] at front'
    rw [after_eq] at split ahead
    rw [noticed_eq, List.append_eq_nil_iff] at clean
    rw [after_eq', noticed_eq']
    -- Both values stand behind the same text, so they start with the same one.
    obtain ⟨taken, taken_eq, -⟩ :=
      reaches_after_readValue (c.rest.takeWhile isNamePart) start
    rw [taken_eq, ← List.append_assoc] at front
    have before_eq := List.append_cancel_right (split.symm.trans front)
    rw [before_eq, List.append_assoc] at rest_eq
    have start'_eq := List.append_cancel_left (front'.symm.trans rest_eq)
    obtain ⟨text_eq, rest'_eq, clean'⟩ := readValue_elsewhere clean.1 taken_eq ahead start'_eq
    refine ⟨rest'_eq, ?_⟩
    rw [clean', List.nil_append]
    refine harmless_valueNodes text_eq ?_
    rw [clean.2]
    exact harmless_nil
  · have plain := not_exists.mp valued
    have plain' : ∀ more, (c'.rest.dropWhile isNamePart).dropWhile Text.isSpace ≠ '=' :: more := by
      intro more equals'
      have head_eq := behind_blanks.head?_eq
      rw [equals'] at head_eq
      obtain ⟨more, equals⟩ := List.head?_eq_some_iff.mp head_eq
      exact plain more equals
    obtain ⟨after_eq, -⟩ := readAttribute_plain nonempty stray plain
    obtain ⟨after_eq', clean'⟩ := readAttribute_plain nonempty' named' plain'
    have cut := List.takeWhile_append_dropWhile (p := isNamePart) (l := c.rest)
    have cut' := List.takeWhile_append_dropWhile (p := isNamePart) (l := c'.rest)
    rw [after_eq, Cursor.rest_skipWhile] at split
    have before_eq := List.append_cancel_right (cut.trans split)
    rw [← name_eq, before_eq] at cut'
    rw [after_eq', clean', Cursor.rest_skipWhile]
    exact ⟨List.append_cancel_left (cut'.trans rest_eq), harmless_nil⟩

end

theorem takeWhile_elsewhere {p : Char → Bool} {text rest : Text}
    (same : rest.head? = (text.dropWhile p).head?) :
    (text.takeWhile p ++ rest).takeWhile p = text.takeWhile p ∧
      (text.takeWhile p ++ rest).dropWhile p = rest := by
  refine Cursor.takeWhile_eq (List.all_eq_true.mp List.all_takeWhile) ?_
  rw [same]
  exact Cursor.head?_rest_skipWhile p ⟨0, text⟩

theorem skipWhile_elsewhere {p : Char → Bool} {c' : Cursor} {rest : Text}
    (rest_eq : c'.rest = c.rest.takeWhile p ++ rest)
    (same : rest.head? = (c.skipWhile p).rest.head?) : (c'.skipWhile p).rest = rest := by
  rw [Cursor.rest_skipWhile, rest_eq]
  exact (takeWhile_elsewhere same).2

/-- A tag that is ended is read again whatever stands behind it. -/
theorem readTagBody_elsewhere {start : Nat} (clean : (readTagBody name start c).diagnostics = []) :
    ∃ body, c.rest = body ++ '>' :: (readTagBody name start c).after.rest ∧
      ∀ (c' : Cursor) (start' : Nat) (tail : Text), c'.rest = body ++ '>' :: tail →
        (readTagBody name start' c').outcome.after.rest = tail ∧
        (readTagBody name start' c').outcome.selfClosing = (readTagBody name start c).selfClosing ∧
        Harmless (readTagBody name start' c').outcome.diagnostics := by
  fun_induction readTagBody name start c with
  | case1 => exact absurd clean (by simp)
  | case2 c here reaches first rest rest_eq nonempty closed =>
    obtain ⟨rfl, tail, rfl⟩ : first = '/' ∧ ∃ tail, rest = '>' :: tail := by
      simpa [List.head?_eq_some_iff] using closed
    have blanks := List.takeWhile_append_dropWhile (p := Text.isSpace) (l := c.rest)
    rw [← Cursor.rest_skipWhile, rest_eq] at blanks
    refine ⟨c.rest.takeWhile Text.isSpace ++ ['/'], ?_, ?_⟩
    · rw [Cursor.rest_skip, rest_eq]
      simpa using blanks.symm
    · intro c' start' tail' rest_eq'
      have ends : (c'.skipWhile Text.isSpace).rest = '/' :: '>' :: tail' :=
        skipWhile_elsewhere (c := c) (by simpa using rest_eq') (by rw [rest_eq]; rfl)
      rw [outcome_readTagBody_selfClosing name start' ends, Cursor.rest_skip, ends]
      exact ⟨rfl, rfl, harmless_nil⟩
  | case3 c here reaches first rest rest_eq nonempty _ ends =>
    obtain rfl : first = '>' := by simpa using ends
    have blanks := List.takeWhile_append_dropWhile (p := Text.isSpace) (l := c.rest)
    rw [← Cursor.rest_skipWhile, rest_eq] at blanks
    refine ⟨c.rest.takeWhile Text.isSpace, ?_, ?_⟩
    · rw [Cursor.rest_skip, rest_eq]
      simpa using blanks.symm
    · intro c' start' tail' rest_eq'
      have ends : (c'.skipWhile Text.isSpace).rest = '>' :: tail' :=
        skipWhile_elsewhere (c := c) rest_eq' (by rw [rest_eq]; rfl)
      rw [outcome_readTagBody_end name start' ends, Cursor.rest_skip, ends]
      exact ⟨rfl, rfl, harmless_nil⟩
  | case4 => exact absurd clean (by simp)
  | case5 c here reaches first rest rest_eq nonempty not_closed not_end not_stray found more ih =>
    obtain ⟨clean₁, clean₂⟩ := List.append_eq_nil_iff.mp clean
    obtain ⟨body, found_eq, again⟩ := ih clean₂
    obtain ⟨before, split, -⟩ := found.advances.1
    have plain : first ≠ '/' ∧ first ≠ '>' ∧ first ≠ '<' := by
      simp only [Bool.or_eq_true, beq_iff_eq, not_or] at not_end not_stray
      exact ⟨not_stray.1, not_end, not_stray.2⟩
    have blanks := List.takeWhile_append_dropWhile (p := Text.isSpace) (l := c.rest)
    rw [← Cursor.rest_skipWhile, split, found_eq] at blanks
    refine ⟨c.rest.takeWhile Text.isSpace ++ (before ++ body), ?_, ?_⟩
    · simpa using blanks.symm
    · intro c' start' tail' rest_eq'
      have ahead : TagAhead found.after.rest (body ++ '>' :: tail') :=
        ⟨body, _, tail', found_eq, rfl⟩
      have head_eq : (before ++ (body ++ '>' :: tail')).head? = here.rest.head? := by
        rw [split, ahead.head?_append]
      have here_eq : (c'.skipWhile Text.isSpace).rest = before ++ (body ++ '>' :: tail') :=
        skipWhile_elsewhere (c := c) (by simpa using rest_eq') head_eq
      obtain ⟨more', cons_eq⟩ : ∃ more', (c'.skipWhile Text.isSpace).rest = first :: more' := by
        rw [rest_eq] at head_eq
        rw [here_eq]
        exact List.head?_eq_some_iff.mp head_eq
      have nonempty' : (c'.skipWhile Text.isSpace).rest ≠ [] :=
        cons_eq ▸ List.cons_ne_nil first more'
      obtain ⟨rest_eq₁, harmless₁⟩ := readAttribute_elsewhere nonempty nonempty'
        clean₁ split ahead here_eq
      obtain ⟨rest_eq₂, closing_eq, harmless₂⟩ := again _ start' tail' rest_eq₁
      rw [outcome_readTagBody_attribute name start' rfl cons_eq plain nonempty']
      exact ⟨rest_eq₂, closing_eq, harmless_append.mpr ⟨harmless₁, harmless₂⟩⟩

/-- Something stands here that a text does not go on with: a tag or a comment, or
nothing at all. -/
def Stops (rest : Text) : Prop :=
  rest = [] ∨ (opening? rest).isSome = true

theorem Stops.head?_eq {rest : Text} (h : Stops rest) : ∀ a ∈ rest.head?, a = '<' := by
  rcases h with rfl | opens
  · simp
  · cases rest with
    | nil => simp
    | cons c rest =>
      intro a head_eq
      cases head_eq
      by_contra other
      have : opening? (c :: rest) = none := by
        simp [opening?, List.isPrefixOf, Ne.symm other]
      exact absurd opens (by simp [this])

theorem stops_drop_textLength (text : Text) : Stops (text.drop (textLength text)) := by
  fun_induction textLength text with
  | case1 => exact .inl rfl
  | case2 c rest opens => exact .inr opens
  | case3 c rest _ _ ih => exact ih
  | case4 c rest _ inner starts _ ih =>
    rw [Text.eq_append_of_stripStart? starts]
    simpa [interpolationStart] using ih
  | case5 c rest _ inner starts expression after found ih =>
    have text_eq : c :: rest = (interpolationStart ++ expression ++ interpolationEnd) ++ after := by
      rw [Text.eq_append_of_stripStart? starts, Text.eq_append_of_splitOnce? found]
      simp only [List.append_assoc]
    have length_eq : textLength after + (expression.length + 4) =
        (interpolationStart ++ expression ++ interpolationEnd).length + textLength after := by
      simp only [interpolationStart, interpolationEnd, List.length_append, List.length_cons,
        List.length_nil]
      omega
    rw [text_eq, length_eq, List.drop_length_add_append]
    exact ih

theorem opening?_append {text rest : Text} (nonempty : text ≠ [])
    (breaks : ∀ a ∈ rest.head?, a = '<') : opening? (text ++ rest) = opening? text := by
  obtain rfl | ⟨more, rfl⟩ : rest = [] ∨ ∃ more, rest = '<' :: more := by
    cases rest with
    | nil => exact .inl rfl
    | cons c more => exact .inr ⟨more, by rw [breaks c rfl]⟩
  · rw [List.append_nil]
  · rcases text with _ | ⟨a, _ | ⟨b, _ | ⟨d, _ | ⟨e, text⟩⟩⟩⟩
    · exact absurd rfl nonempty
    all_goals simp [opening?, List.isPrefixOf, startsTagName, Text.isLetter]

theorem textLength_plain {first : Char} {rest : Text} (plain : opening? (first :: rest) = none)
    (none_eq : Text.stripStart? interpolationStart (first :: rest) = none) :
    textLength (first :: rest) = textLength rest + 1 := by
  rw [textLength]
  simp only [plain, Option.isSome_none, Bool.false_eq_true, if_false]
  split
  · rfl
  · next starts => exact absurd (none_eq.symm.trans starts) (by simp)

theorem textLength_interpolation {inner expression after : Text}
    (found : Text.splitOnce? interpolationEnd inner = some (expression, after)) :
    textLength (interpolationStart ++ inner) = textLength after + (expression.length + 4) := by
  have plain : opening? (interpolationStart ++ inner) = none := by
    simp [interpolationStart, opening?, List.isPrefixOf]
  have starts := Text.stripStart?_append interpolationStart inner
  rw [interpolationStart, List.cons_append] at plain starts ⊢
  rw [textLength]
  simp only [plain, Option.isSome_none, Bool.false_eq_true, if_false]
  split
  · next other => exact absurd (other.symm.trans starts) (by simp)
  · next other =>
    cases other.symm.trans starts
    split
    · next other => exact absurd (other.symm.trans found) (by simp)
    · next other =>
      cases other.symm.trans found
      rfl

theorem interpolations_cons (offset : Nat) {first : Char} {rest : Text}
    (none_eq : Text.stripStart? interpolationStart (first :: rest) = none) :
    (interpolations offset (first :: rest)).2 =
      (interpolations (offset + first.utf8Size) rest).2 := by
  have split_eq : Text.splitOnce? interpolationStart (first :: rest) =
      (Text.splitOnce? interpolationStart rest).map fun parts => (first :: parts.1, parts.2) := by
    rw [Text.splitOnce?, none_eq]
  cases found : Text.splitOnce? interpolationStart rest with
  | none =>
    rw [found, Option.map_none] at split_eq
    rw [interpolations_none offset split_eq, interpolations_none _ found]
  | some parts =>
    obtain ⟨before, inner⟩ := parts
    rw [found, Option.map_some] at split_eq
    have offset_eq : offset + Text.byteLength (first :: before) =
        offset + first.utf8Size + before.byteLength := by
      rw [Text.byteLength_cons]
      omega
    cases found' : Text.splitOnce? interpolationEnd inner with
    | none =>
      rw [interpolations_open offset split_eq found', interpolations_open _ found found', offset_eq]
    | some parts =>
      obtain ⟨expression, after⟩ := parts
      rw [interpolations_closed offset split_eq found', interpolations_closed _ found found',
        offset_eq]

/-- Neither does an interpolation start across the start of a tag or comment. -/
theorem stripStart?_append_of_breaks {text rest : Text} (nonempty : text ≠ [])
    (breaks : ∀ a ∈ rest.head?, a = '<') : Text.stripStart? interpolationStart (text ++ rest) =
      (Text.stripStart? interpolationStart text).map (· ++ rest) := by
  rcases text with _ | ⟨a, _ | ⟨b, text⟩⟩
  · exact absurd rfl nonempty
  · cases rest with
    | nil => simp [interpolationStart, Text.stripStart?]
    | cons c rest => simp [interpolationStart, Text.stripStart?, breaks c rfl]
  · exact Text.stripStart?_append_of_le (by simp [interpolationStart]) rest

/-- A text whose interpolations are closed has the same length again, if it stops
there. -/
theorem textLength_elsewhere {offset : Nat} {text rest rest' : Text}
    (clean : (interpolations offset text).2 = []) (breaks : ∀ a ∈ rest.head?, a = '<')
    (stops : Stops rest') (length_eq : textLength (text ++ rest) = text.length) :
    textLength (text ++ rest') = text.length := by
  cases text with
  | nil =>
    rcases stops with rfl | opens
    · rw [List.append_nil, textLength, List.length_nil]
    · cases rest' with
      | nil => rw [List.append_nil, textLength, List.length_nil]
      | cons c rest' => rw [List.nil_append, textLength, if_pos opens, List.length_nil]
  | cons first text =>
    have nonempty := List.cons_ne_nil first text
    have plain : opening? (first :: text) = none := by
      by_contra opens
      have opens : (opening? (first :: (text ++ rest))).isSome = true := by
        rw [← List.cons_append, opening?_append nonempty breaks]
        exact Option.isSome_iff_ne_none.mpr opens
      rw [List.cons_append, textLength, if_pos opens] at length_eq
      exact absurd length_eq (by simp)
    have starts₁ := stripStart?_append_of_breaks nonempty breaks
    have starts₂ := stripStart?_append_of_breaks nonempty stops.head?_eq
    cases starts : Text.stripStart? interpolationStart (first :: text) with
    | none =>
      have plain₁ := (opening?_append nonempty breaks).trans plain
      have plain₂ := (opening?_append nonempty stops.head?_eq).trans plain
      rw [starts, Option.map_none] at starts₁ starts₂
      rw [List.cons_append] at plain₁ plain₂ starts₁ starts₂
      rw [List.cons_append, textLength_plain plain₁ starts₁, List.length_cons,
        Nat.add_right_cancel_iff] at length_eq
      rw [interpolations_cons offset starts] at clean
      rw [List.cons_append, textLength_plain plain₂ starts₂, List.length_cons,
        textLength_elsewhere clean breaks stops length_eq]
    | some inner =>
      have text_eq := Text.eq_append_of_stripStart? starts
      have split_eq : Text.splitOnce? interpolationStart (first :: text) = some ([], inner) := by
        rw [Text.splitOnce?, starts]
      cases found : Text.splitOnce? interpolationEnd inner with
      | none =>
        rw [interpolations_open offset split_eq found] at clean
        exact absurd clean (by simp)
      | some parts =>
        obtain ⟨expression, after⟩ := parts
        rw [interpolations_closed offset split_eq found, List.append_eq_nil_iff] at clean
        have inner_eq : inner = expression ++ interpolationEnd ++ after :=
          Text.eq_append_of_splitOnce? found
        have length_text : (first :: text).length = after.length + (expression.length + 4) := by
          rw [text_eq, inner_eq]
          simp only [interpolationStart, interpolationEnd, List.length_append, List.length_cons,
            List.length_nil]
          omega
        have found_again (more : Text) : Text.splitOnce? interpolationEnd (inner ++ more) =
            some (expression, after ++ more) := by
          rw [inner_eq] at found
          rw [inner_eq, List.append_assoc]
          exact Text.splitOnce?_append found (after ++ more)
        rw [text_eq, List.append_assoc, textLength_interpolation (found_again rest), ← text_eq,
          length_text, Nat.add_right_cancel_iff] at length_eq
        rw [text_eq, List.append_assoc, textLength_interpolation (found_again rest'), ← text_eq,
          length_text, textLength_elsewhere clean.2 breaks stops length_eq]
termination_by text.length

section

variable {d c' : Cursor} {entry : Piece × List Diagnostic} {before rest' : Text}

theorem textLength_le (text : Text) : textLength text ≤ text.length := by
  fun_induction textLength text with
  | case1 => exact Nat.le_refl 0
  | case2 => exact Nat.zero_le _
  | case3 c rest _ _ ih => exact Nat.succ_le_succ ih
  | case4 c rest _ inner starts _ ih =>
    rw [Text.eq_append_of_stripStart? starts]
    simpa [interpolationStart] using ih
  | case5 c rest _ inner starts expression after found ih =>
    rw [Text.eq_append_of_stripStart? starts, Text.eq_append_of_splitOnce? found]
    simp only [interpolationStart, interpolationEnd, List.length_append, List.length_cons,
      List.length_nil]
    omega

/-- A text without problems is read again, if it stops where it stopped. -/
theorem Reads.text_elsewhere (reads : Reads c entry d) (clean : entry.2 = [])
    (plain : opening? c.rest = none) (split : c.rest = before ++ d.rest) (stops : Stops d.rest → Stops rest')
    (rest_eq : c'.rest = before ++ rest') :
    ∃ entry' d', Reads c' entry' d' ∧ d'.rest = rest' ∧ Alike entry entry' := by
  have nonempty : c.rest ≠ [] := reads.choose
  obtain ⟨rfl, rfl⟩ := reads.unique (Reads.text plain nonempty)
  rw [Cursor.rest_skip] at split stops
  have before_eq : before = c.rest.take (textLength c.rest) := by
    have cut := List.take_append_drop (textLength c.rest) c.rest
    exact (List.append_cancel_right (cut.trans split)).symm
  have clean : (interpolations c.offset before).2 = [] := before_eq ▸ clean
  have length_eq : before.length = textLength c.rest := by
    rw [before_eq, List.length_take, Nat.min_eq_left (textLength_le _)]
  have nonempty_before : before ≠ [] := by
    have := textLength_pos nonempty plain
    rintro rfl
    simp at length_eq
    omega
  have stopped := stops_drop_textLength c.rest
  have plain' : opening? c'.rest = none := by
    rw [rest_eq, opening?_append nonempty_before (stops stopped).head?_eq,
      ← opening?_append nonempty_before stopped.head?_eq, ← split]
    exact plain
  have nonempty' : c'.rest ≠ [] := by
    rw [rest_eq]
    simp [nonempty_before]
  have length_eq' : textLength c'.rest = before.length := by
    rw [rest_eq]
    refine textLength_elsewhere clean stopped.head?_eq (stops stopped) ?_
    rw [← split, length_eq]
  refine ⟨_, _, Reads.text plain' nonempty', ?_, rfl, ?_⟩
  · rw [length_eq', Cursor.rest_skip, rest_eq, List.drop_left]
  · rw [length_eq', rest_eq, List.take_left]
    have harmless : Harmless (interpolations c.offset before).2 := clean ▸ harmless_nil
    exact harmless_interpolations_of_offset harmless c'.offset

theorem starts_of_opening? {text : Text} {opening : Opening} (opens : opening? text = some opening) :
    match opening with
    | .comment => ∃ rest, text = "<!--".toList ++ rest
    | .endTag => ∃ rest, text = '<' :: '/' :: rest ∧ startsTagName rest = true
    | .startTag => ∃ rest, text = '<' :: rest ∧ startsTagName rest = true := by
  unfold opening? at opens
  split at opens
  · next starts =>
    cases opens
    obtain ⟨rest, rfl⟩ := List.isPrefixOf_iff_prefix.mp starts
    exact ⟨rest, rfl⟩
  split at opens
  · next starts =>
    cases opens
    obtain ⟨starts, named⟩ := Bool.and_eq_true_iff.mp starts
    obtain ⟨rest, rfl⟩ := List.isPrefixOf_iff_prefix.mp starts
    exact ⟨rest, rfl, named⟩
  split at opens
  · next starts =>
    cases opens
    obtain ⟨starts, named⟩ := Bool.and_eq_true_iff.mp starts
    obtain ⟨rest, rfl⟩ := List.isPrefixOf_iff_prefix.mp starts
    exact ⟨rest, rfl, named⟩
  · exact absurd opens (by simp)

theorem opening?_comment (rest : Text) : opening? ("<!--".toList ++ rest) = some .comment := by
  unfold opening?
  rw [if_pos (List.isPrefixOf_iff_prefix.mpr (List.prefix_append _ _))]

theorem Reads.comment {inside comment behind : Text} (rest_eq : c.rest = "<!--".toList ++ inside)
    (found : Text.splitOnce? "-->".toList inside = some (comment, behind)) :
    let stop := c.offset + comment.byteLength + 7
    Reads c (.comment ⟨c.offset, stop⟩, []) ⟨stop, behind⟩ := by
  intro stop
  have opens : opening? c.rest = some .comment := by
    rw [rest_eq]
    exact opening?_comment inside
  have inside_eq : (c.skip 1).skip 3 = ⟨c.offset + 4, inside⟩ := by
    rw [Cursor.skip_one rest_eq]
    rfl
  have text_eq : inside = comment ++ "-->".toList ++ behind := Text.eq_append_of_splitOnce? found
  have after_eq : (⟨c.offset + 4, inside⟩ : Cursor).skip (comment.length + 3) = ⟨stop, behind⟩ := by
    have skipped : (⟨c.offset + 4, inside⟩ : Cursor).skip (comment ++ "-->".toList).length =
        ⟨_, behind⟩ := Cursor.skip_eq text_eq
    rw [List.length_append] at skipped
    rw [show 3 = "-->".toList.length from rfl, skipped, Text.byteLength_append, Cursor.mk.injEq]
    exact ⟨by rw [show Text.byteLength "-->".toList = 3 from rfl]; dsimp only [stop]; omega, rfl⟩
  have read := of_opening? opens (ne_nil_of_opening? opens)
  dsimp only at read
  unfold readComment at read
  simp only [inside_eq, found, after_eq] at read
  exact read

theorem Reads.comment_elsewhere (reads : Reads c entry d) (clean : entry.2 = [])
    (opens : opening? c.rest = some .comment) (split : c.rest = before ++ d.rest)
    (rest_eq : c'.rest = before ++ rest') :
    (opening? c'.rest).isSome = true ∧
      ∃ entry' d', Reads c' entry' d' ∧ d'.rest = rest' ∧ Alike entry entry' := by
  obtain ⟨inside, c_eq⟩ := starts_of_opening? opens
  cases found : Text.splitOnce? "-->".toList inside with
  | none =>
    obtain ⟨rfl, -⟩ := reads.unique (of_opening? opens (ne_nil_of_opening? opens))
    have inside_eq : ((c.skip 1).skip 3).rest = inside := by
      rw [Cursor.rest_skip, Cursor.rest_skip, c_eq]
      rfl
    dsimp only at clean
    unfold readComment at clean
    simp only [inside_eq, found] at clean
    exact absurd clean (by simp)
  | some parts =>
    obtain ⟨comment, behind⟩ := parts
    obtain ⟨rfl, rfl⟩ := reads.unique (Reads.comment c_eq found)
    have inside_eq := Text.eq_append_of_splitOnce? found
    have before_eq : before = "<!--".toList ++ (comment ++ "-->".toList) := by
      rw [c_eq, inside_eq, ← List.append_assoc] at split
      exact (List.append_cancel_right split).symm
    have c'_eq : c'.rest = "<!--".toList ++ (comment ++ "-->".toList ++ rest') := by
      rw [rest_eq, before_eq, List.append_assoc]
    rw [inside_eq] at found
    refine ⟨?_, _, _, Reads.comment c'_eq (Text.splitOnce?_append found rest'), rfl, rfl,
      harmless_nil⟩
    rw [c'_eq, opening?_comment]
    rfl

theorem isNamePart_of_isLetter {character : Char} (letter : Text.isLetter character = true) :
    isNamePart character = true := by
  have part : Text.isIdentifierPart character = true := by
    rw [Text.isIdentifierPart, Text.isIdentifierStart, letter, Bool.true_or, Bool.true_or,
      Bool.true_or]
  exact (Text.of_isIdentifierPart part).1

theorem startsTagName_takeWhile {tag : Text} (named : startsTagName tag = true) :
    startsTagName (tag.takeWhile isNamePart) = true := by
  cases tag with
  | nil => exact named
  | cons first tag => rwa [List.takeWhile_cons_of_pos (isNamePart_of_isLetter named)]

theorem Reads.exists_endTag (reads : Reads c entry d) (clean : entry.2 = [])
    (opens : opening? c.rest = some .endTag) : ∃ name blanks,
    startsTagName name = true ∧ (∀ character ∈ name, isNamePart character = true) ∧
      (∀ character ∈ blanks, Text.isSpace character = true) ∧
      c.rest = '<' :: '/' :: (name ++ (blanks ++ '>' :: d.rest)) ∧ entry.1.move = .stop name := by
  obtain ⟨tag, c_eq, named⟩ := starts_of_opening? opens
  have inside_eq : ((c.skip 1).skip 1).rest = tag := by
    rw [Cursor.rest_skip, Cursor.rest_skip, c_eq]
    rfl
  obtain ⟨rfl, rfl⟩ := reads.unique (of_opening? opens (ne_nil_of_opening? opens))
  dsimp only at clean ⊢
  unfold readEndTag at clean ⊢
  dsimp only at clean ⊢
  split at clean
  · next tail ends =>
    refine ⟨tag.takeWhile isNamePart, (tag.dropWhile isNamePart).takeWhile Text.isSpace,
      startsTagName_takeWhile named, List.all_eq_true.mp List.all_takeWhile,
      List.all_eq_true.mp List.all_takeWhile, ?_, by rw [inside_eq]; rfl⟩
    have after_eq := ends
    rw [Cursor.rest_skipWhile, Cursor.rest_skipWhile, inside_eq] at ends
    rw [Cursor.rest_skip, after_eq, List.drop_one, List.tail_cons, ← ends,
      List.takeWhile_append_dropWhile, List.takeWhile_append_dropWhile, c_eq]
  · exact absurd clean (by simp)

theorem Reads.endTag_elsewhere (reads : Reads c entry d) (clean : entry.2 = [])
    (opens : opening? c.rest = some .endTag) (split : c.rest = before ++ d.rest)
    (rest_eq : c'.rest = before ++ rest') :
    (opening? c'.rest).isSome = true ∧
      ∃ entry' d', Reads c' entry' d' ∧ d'.rest = rest' ∧ Alike entry entry' := by
  obtain ⟨name, blanks, letter, parts, blank, c_eq, move_eq⟩ := reads.exists_endTag clean opens
  have before_eq : before = '<' :: '/' :: (name ++ (blanks ++ ['>'])) := by
    refine (List.append_cancel_right (Eq.trans ?_ (c_eq.symm.trans split))).symm
    simp
  have c'_eq : c'.rest = '<' :: '/' :: (name ++ (blanks ++ '>' :: rest')) := by
    rw [rest_eq, before_eq]
    simp
  refine ⟨?_, _, _, Reads.endTag blanks letter parts blank c'_eq, rfl, move_eq.symm, harmless_nil⟩
  rw [c'_eq, opening?_endTag (startsTagName_append letter)]
  rfl

theorem Reads.startTag_elsewhere (reads : Reads c entry d) (clean : entry.2 = [])
    (opens : opening? c.rest = some .startTag) (split : c.rest = before ++ d.rest)
    (rest_eq : c'.rest = before ++ rest') :
    (opening? c'.rest).isSome = true ∧
      ∃ entry' d', Reads c' entry' d' ∧ d'.rest = rest' ∧ Alike entry entry' := by
  obtain ⟨tag, c_eq, named⟩ := starts_of_opening? opens
  have tag_eq : (c.skip 1).rest = tag := by
    rw [Cursor.rest_skip, c_eq]
    rfl
  obtain ⟨rfl, rfl⟩ := reads.unique (Reads.startTag opens)
  obtain ⟨body, body_eq, again⟩ := readTagBody_elsewhere clean
  have letter := startsTagName_takeWhile named
  have cut := List.takeWhile_append_dropWhile (p := isNamePart) (l := tag)
  rw [Cursor.rest_skipWhile] at body_eq
  rw [tag_eq] at body_eq again split ⊢
  generalize name_eq : tag.takeWhile isNamePart = name at *
  rw [body_eq] at cut
  have before_eq : before = '<' :: (name ++ (body ++ ['>'])) := by
    rw [c_eq, ← cut] at split
    refine (List.append_cancel_right (Eq.trans ?_ split)).symm
    simp [TagBody.outcome]
  have c'_eq : c'.rest = '<' :: (name ++ (body ++ '>' :: rest')) := by
    rw [rest_eq, before_eq]
    simp
  -- The same name is read, and behind it the same attributes.
  have same : (body ++ '>' :: rest').head? = (tag.dropWhile isNamePart).head? := by
    rw [body_eq]
    cases body <;> rfl
  obtain ⟨name_eq', behind_eq⟩ := takeWhile_elsewhere same
  rw [name_eq] at name_eq' behind_eq
  have tag_eq' : (c'.skip 1).rest = name ++ (body ++ '>' :: rest') := by
    rw [Cursor.rest_skip, c'_eq]
    rfl
  have opens' : opening? c'.rest = some .startTag := by
    rw [c'_eq]
    exact opening?_startTag (startsTagName_append letter)
  obtain ⟨after_eq, closing_eq, harmless⟩ := again ((c'.skip 1).skipWhile isNamePart) c'.offset rest'
    (by rw [Cursor.rest_skipWhile, tag_eq', behind_eq])
  have reads' := Reads.startTag opens'
  rw [tag_eq', name_eq'] at reads'
  refine ⟨by rw [opens']; rfl, _, _, reads', after_eq, ?_, harmless⟩
  simp only [Piece.move, closing_eq]
  rfl

/-- A piece without problems is read again. A text has to stop again. -/
theorem Reads.elsewhere (reads : Reads c entry d) (clean : entry.2 = [])
    (split : c.rest = before ++ d.rest) (stops : Stops d.rest → Stops rest')
    (rest_eq : c'.rest = before ++ rest') :
    (Stops c.rest → Stops c'.rest) ∧
      ∃ entry' d', Reads c' entry' d' ∧ d'.rest = rest' ∧ Alike entry entry' := by
  cases opens : opening? c.rest with
  | none =>
    refine ⟨?_, reads.text_elsewhere clean opens split stops rest_eq⟩
    rintro (empty | opened)
    · exact absurd empty reads.choose
    · exact absurd opened (by simp [opens])
  | some opening =>
    have read : (opening? c'.rest).isSome = true ∧
        ∃ entry' d', Reads c' entry' d' ∧ d'.rest = rest' ∧ Alike entry entry' := by
      cases opening with
      | comment => exact reads.comment_elsewhere clean opens split rest_eq
      | endTag => exact reads.endTag_elsewhere clean opens split rest_eq
      | startTag => exact reads.startTag_elsewhere clean opens split rest_eq
    exact ⟨fun _ => .inr read.1, read.2⟩

end

/-- Pieces without problems are read again wherever their text stands, if the last of
them stops again. -/
theorem Through.elsewhere {d : Cursor} {found : List (Piece × List Diagnostic)}
    (through : Through c found d) (clean : ∀ entry ∈ found, entry.2 = []) {text rest' : Text}
    (split : c.rest = text ++ d.rest) (stops : Stops rest') {c' : Cursor}
    (rest_eq : c'.rest = text ++ rest') :
    (Stops c.rest → Stops c'.rest) ∧
      ∃ found' d', Through c' found' d' ∧ d'.rest = rest' ∧ List.Forall₂ Alike found found' := by
  induction through generalizing text c' with
  | refl c =>
    obtain rfl : text = [] := by simpa using split
    refine ⟨fun _ => ?_, [], c', .refl c', rest_eq, .nil⟩
    rw [rest_eq]
    exact stops
  | @step c d e entry more reads through ih =>
    obtain ⟨clean₁, clean₂⟩ := List.forall_mem_cons.mp clean
    obtain ⟨before, before_eq, -⟩ := reads.advances.1
    obtain ⟨behind, behind_eq, -⟩ := through.reaches
    have text_eq : text = before ++ behind := by
      rw [before_eq, behind_eq, ← List.append_assoc] at split
      exact (List.append_cancel_right split).symm
    have ahead := (ih clean₂ behind_eq (Cursor.rest_start (behind ++ rest'))).1
    rw [Cursor.rest_start] at ahead
    rw [text_eq, List.append_assoc] at rest_eq
    obtain ⟨stops', entry', d', reads', d'_eq, alike⟩ :=
      reads.elsewhere clean₁ before_eq ahead rest_eq
    obtain ⟨-, found', e', through', e'_eq, alikes⟩ := ih clean₂ behind_eq d'_eq
    exact ⟨stops', entry' :: found', e', .step reads' through', e'_eq, .cons alike alikes⟩

end Markup

end ComponentExtraction
