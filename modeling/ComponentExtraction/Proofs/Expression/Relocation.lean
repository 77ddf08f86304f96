import ComponentExtraction.Proofs.Expression.Excerpt

/-!
# Expressions elsewhere

What is read without errors is read without errors wherever it stands, an expression
as well as the value of a structural directive. Two parses of tokens that look the
same keep in step: as long as the one meets no error, neither does the other, and
both leave tokens that look the same.
-/

namespace ComponentExtraction

namespace Expression

open Diagnostic

variable {cx cx' : Context} {tokens tokens' : List Token} {token other : Token}

theorem harmless_parse_of_offset {mode : Mode} {offset : Nat} {text : Text}
    (harmless : Harmless (parse mode offset text).2) (offset' : Nat) :
    Harmless (parse mode offset' text).2 :=
  harmless_parse_iff.mpr (readsAlone_of_parse harmless _ _ rfl (alike_tokensAt _ _ text))

namespace Parsing

variable {α β : Type}

/-- If one step meets no error, nor does the other, and what they leave looks the
same. -/
def Leads (step : Parsing α tokens) (other : Parsing α tokens') : Prop :=
  Harmless step.diagnostics →
    Harmless other.diagnostics ∧ List.Forall₂ Token.Alike step.rest other.rest

namespace Leads

theorem done {value value' : α} (alike : List.Forall₂ Token.Alike tokens tokens') :
    (Parsing.done value tokens).Leads (Parsing.done value' tokens') :=
  fun _ => ⟨harmless_nil, alike⟩

theorem andThen {first : Parsing α tokens} {first' : Parsing α tokens'}
    {next : (value : α) → (rest : List Token) → rest <:+ tokens → Parsing β rest}
    {next' : (value : α) → (rest : List Token) → rest <:+ tokens' → Parsing β rest}
    (h : first.Leads first')
    (continues : ∀ value value' rest rest' suffix suffix', List.Forall₂ Token.Alike rest rest' →
      (next value rest suffix).Leads (next' value' rest' suffix')) :
    (first.andThen next).Leads (first'.andThen next') := by
  intro harmless
  obtain ⟨harmless₁, harmless₂⟩ := harmless_append.mp harmless
  obtain ⟨harmless₁', alike⟩ := h harmless₁
  obtain ⟨harmless₂', alike'⟩ := continues first.value first'.value first.rest first'.rest
    first.rest_suffix first'.rest_suffix alike harmless₂
  exact ⟨harmless_append.mpr ⟨harmless₁', harmless₂'⟩, alike'⟩

theorem map {step : Parsing α tokens} {step' : Parsing α tokens'} {f f' : α → β}
    (h : step.Leads step') : (step.map f).Leads (step'.map f') :=
  h

theorem after {step : Parsing α tokens} {step' : Parsing α tokens'} (h : step.Leads step') :
    (step.after token).Leads (step'.after other) :=
  h

theorem error {step : Parsing α tokens} {step' : Parsing α tokens'} {d : Diagnostic}
    {diagnostics : List Diagnostic} (error : d.severity = .error := by rfl) :
    (step.reporting (d :: diagnostics)).Leads step' :=
  fun harmless => absurd error (harmless_cons.mp (harmless_append.mp harmless).1).1

end Leads

end Parsing

open Parsing (Leads)

theorem leads_pipe (same : cx'.mode = cx.mode) (alike : List.Forall₂ Token.Alike tokens tokens') :
    (pipe cx tokens).Leads (pipe cx' tokens') := by
  intro harmless
  obtain ⟨taken, taken_eq⟩ := (pipe cx tokens).rest_suffix
  rw [← taken_eq] at alike
  obtain ⟨front, back, rfl, front_alike, back_alike⟩ := exists_append_of_forall₂ alike
  have ahead : Ahead (pipe cx tokens).rest back := by
    simpa using Ahead.append back_alike (.nothing [])
  obtain ⟨harmless', -, rest_eq⟩ := (replays same tokens).pipe _ _ _ _ ⟨harmless, rfl, rfl⟩
    ⟨taken, front, taken_eq.symm, rfl, front_alike, ahead⟩
  rw [rest_eq]
  exact ⟨harmless', back_alike⟩

namespace Directive

theorem leads_variableEntry {keyword keyword' : Token}
    (alike : List.Forall₂ Token.Alike tokens tokens') :
    (variableEntry cx keyword tokens).Leads (variableEntry cx' keyword' tokens') := by
  cases alike with
  | nil => exact .error
  | @cons token other rest rest' first alike =>
    simp only [variableEntry, first.name?_eq]
    cases token.lexeme.name? with
    | none => exact .error
    | some name =>
      refine .after ?_
      cases alike with
      | nil => exact .done .nil
      | @cons equals equals' rest rest' second alike =>
        simp only [second.isOperator_eq]
        split
        · refine .after ?_
          cases alike with
          | nil => exact .error
          | @cons value value' rest rest' third alike =>
            simp only [third.name?_eq]
            cases value.lexeme.name? with
            | none => exact .error
            | some _ => exact .after (.done alike)
        · exact .done (.cons second alike)

theorem leads_aliasName {front front' : List Token}
    (alike : List.Forall₂ Token.Alike tokens tokens') :
    (aliasName cx front tokens).Leads (aliasName cx' front' tokens') := by
  cases alike with
  | nil => exact .error
  | @cons token other rest rest' first alike =>
    simp only [aliasName, first.identifier?_eq]
    cases token.lexeme.identifier? with
    | none => exact .error
    | some name => exact .after (.done alike)

theorem leads_optionalAlias (alike : List.Forall₂ Token.Alike tokens tokens') :
    (optionalAlias cx tokens).Leads (optionalAlias cx' tokens') := by
  cases alike with
  | nil => exact .done .nil
  | @cons token other rest rest' first alike =>
    simp only [optionalAlias, first.isKeyword_eq]
    split
    · exact .after (leads_aliasName alike)
    · exact .done (.cons first alike)

theorem leads_ownExpression (same : cx'.mode = cx.mode) (directive : Text)
    (alike : List.Forall₂ Token.Alike tokens tokens') :
    (ownExpression cx directive tokens).Leads (ownExpression cx' directive tokens') :=
  (leads_pipe same alike).andThen fun _ _ _ _ _ _ alike => (leads_optionalAlias alike).map

theorem leads_optionalColon (alike : List.Forall₂ Token.Alike tokens tokens') :
    (optionalColon tokens).Leads (optionalColon tokens') := by
  cases alike with
  | nil => exact .done .nil
  | @cons token other rest rest' first alike =>
    simp only [optionalColon, first.isPunctuation_eq]
    split
    · exact .after (.done alike)
    · exact .done (.cons first alike)

theorem isSeparator_eq (alike : token.Alike other) : isSeparator other = isSeparator token := by
  rw [isSeparator, isSeparator, alike.isPunctuation_eq, alike.isPunctuation_eq]

theorem leads_optionalValue (same : cx'.mode = cx.mode)
    (alike : List.Forall₂ Token.Alike tokens tokens') :
    (optionalValue cx tokens).Leads (optionalValue cx' tokens') := by
  cases alike with
  | nil => exact .done .nil
  | @cons token other rest rest' first alike =>
    simp only [optionalValue, isSeparator_eq first]
    split
    · exact .done (.cons first alike)
    · exact (leads_pipe same (.cons first alike)).map

theorem leads_keyedExpression (same : cx'.mode = cx.mode) (directive key : Text)
    (alike : List.Forall₂ Token.Alike tokens tokens') :
    (keyedExpression cx directive key token tokens).Leads
      (keyedExpression cx' directive key other tokens') :=
  (leads_optionalColon alike).andThen fun _ _ _ _ _ _ alike =>
    (leads_optionalValue same alike).andThen fun _ _ _ _ _ _ alike =>
      (leads_optionalAlias alike).map

theorem leads_entry (same : cx'.mode = cx.mode) (directive : Text) (isFirst : Bool)
    (first : token.Alike other) (alike : List.Forall₂ Token.Alike tokens tokens') :
    (entry cx directive isFirst token tokens).Leads
      (entry cx' directive isFirst other tokens') := by
  unfold entry
  simp only [first.isKeyword_eq, first.name?_eq]
  split
  · exact .after (leads_variableEntry alike)
  split
  · exact leads_ownExpression same directive (.cons first alike)
  cases token.lexeme.name? with
  | none => exact .error
  | some key =>
    refine .after ?_
    cases alike with
    | nil => exact leads_keyedExpression same directive key .nil
    | @cons next next' rest rest' second alike =>
      simp only [keyedEntry, second.isKeyword_eq]
      split
      · exact .after (leads_aliasName alike)
      · exact leads_keyedExpression same directive key (.cons second alike)

/-- Entries that are read without errors are read so wherever they stand. -/
theorem harmless_entries (same : cx'.mode = cx.mode) (directive : Text) (isFirst : Bool)
    (tokens : List Token) (harmless : Harmless (entries cx directive isFirst tokens).2) :
    ∀ tokens', List.Forall₂ Token.Alike tokens tokens' →
      Harmless (entries cx' directive isFirst tokens').2 := by
  fun_induction entries cx directive isFirst tokens with
  | case1 =>
    rintro _ ⟨⟩
    rw [entries]
    exact harmless_nil
  | case2 isFirst token rest separates more ih =>
    rintro _ (_ | ⟨first, alike⟩)
    rw [entries, if_pos ((isSeparator_eq first).trans separates)]
    exact ih harmless _ alike
  | case3 isFirst token rest divides step more ih₁ ih₂ =>
    rintro _ (_ | ⟨first, alike⟩)
    obtain ⟨harmless₁, harmless₂⟩ := harmless_append.mp harmless
    obtain ⟨harmless₁', left⟩ := leads_entry same directive isFirst first alike harmless₁
    rw [entries, if_neg (by rw [isSeparator_eq first]; exact divides)]
    refine harmless_append.mpr ⟨harmless₁', ?_⟩
    have length_eq : step.rest.length = _ := left.length_eq
    have length_eq' := alike.length_eq
    simp only [more] at harmless₂
    split at harmless₂
    · next shorter =>
      rw [dif_pos (by omega)]
      exact ih₁ shorter harmless₂ _ left
    · next longer =>
      rw [dif_neg (by omega)]
      exact ih₂ harmless₂ _ alike

/-- Where the value of a directive stands does not matter. -/
theorem harmless_parse_of_offset {directive : Text} {offset : Nat} {text : Text}
    (harmless : Harmless (parse directive offset text).2) (offset' : Nat) :
    Harmless (parse directive offset' text).2 := by
  refine harmless_entries ?_ directive true _ harmless _ (alike_tokensAt _ _ text)
  rfl

end Directive

end Expression

end ComponentExtraction
