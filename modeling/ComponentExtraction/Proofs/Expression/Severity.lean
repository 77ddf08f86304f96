import ComponentExtraction.Expression.Directive
import ComponentExtraction.Proofs.Expression.Placement

/-!
# Problems of expressions are errors

What a template tolerates are elements and interpolations that are left open. Both are
noticed by the markup around expressions, never inside of one: every rule of the grammar
reports errors only (`Parsing.Strict`), and so do an expression and the value of a
structural directive as a whole (`strict_parse`, `Directive.strict_parse`).
-/

namespace ComponentExtraction

namespace Expression

variable {cx : Context} {tokens : List Token}

namespace Parsing

variable {α β : Type}

def Strict (step : Parsing α tokens) : Prop :=
  ∀ d ∈ step.diagnostics, d.severity = .error

namespace Strict

theorem done (value : α) (tokens : List Token) : (Parsing.done value tokens).Strict := by
  simp [Strict, Parsing.done]

theorem andThen {first : Parsing α tokens}
    {next : (value : α) → (rest : List Token) → rest <:+ tokens → Parsing β rest}
    (h : first.Strict)
    (continues : ∀ value rest (suffix : rest <:+ tokens), (next value rest suffix).Strict) :
    (first.andThen next).Strict :=
  List.forall_mem_append.mpr ⟨h, continues first.value first.rest first.rest_suffix⟩

theorem map {step : Parsing α tokens} (h : step.Strict) (f : α → β) : (step.map f).Strict :=
  h

theorem after {step : Parsing α tokens} (h : step.Strict) (token : Token) :
    (step.after token).Strict :=
  h

theorem reporting {step : Parsing α tokens} {diagnostics : List Diagnostic} (h : step.Strict)
    (errors : ∀ d ∈ diagnostics, d.severity = .error) : (step.reporting diagnostics).Strict :=
  List.forall_mem_append.mpr ⟨errors, h⟩

theorem reporting_one {step : Parsing α tokens} {d : Diagnostic} (h : step.Strict)
    (error : d.severity = .error := by rfl) : (step.reporting [d]).Strict :=
  h.reporting (List.forall_mem_singleton.mpr error)

end Strict

end Parsing

open Parsing (Strict)

theorem strict_expect (cx : Context) (c : Char) (tokens : List Token) :
    (expect cx c tokens).Strict := by
  cases tokens with
  | nil => exact (Strict.done _ _).reporting_one
  | cons token rest =>
    rw [expect]
    split
    · exact (Strict.done _ _).after token
    · exact (Strict.done _ _).reporting_one

theorem strict_pipeName (cx : Context) (tokens : List Token) : (pipeName cx tokens).Strict := by
  cases tokens with
  | nil => exact (Strict.done _ _).reporting_one
  | cons token rest =>
    rw [pipeName]
    split
    · exact (Strict.done _ _).after token
    · exact (Strict.done _ _).reporting_one

theorem strict_member (cx : Context) (receiver : Node) (dot : Token) (tokens : List Token) :
    (member cx receiver dot tokens).Strict := by
  cases tokens with
  | nil => exact (Strict.done _ _).reporting_one
  | cons token rest =>
    simp only [member]
    split
    · exact (Strict.done _ _).after token
    · exact (Strict.done _ _).reporting_one

theorem strict_misplaced (token : Token) (tokens : List Token) :
    (misplaced token tokens).Strict := by
  unfold misplaced
  split
  · exact (Strict.done _ _).reporting_one
  · exact (Strict.done _ _).reporting_one

theorem error_assignmentProblems (cx : Context) (target : Node) (tokens : List Token) :
    ∀ d ∈ assignmentProblems cx target tokens, d.severity = .error := by
  unfold assignmentProblems
  split
  · exact List.forall_mem_singleton.mpr rfl
  · simp
  · simp
  · exact List.forall_mem_singleton.mpr rfl

mutual

theorem strict_pipe (cx : Context) (tokens : List Token) : (pipe cx tokens).Strict := by
  rw [pipe]
  exact (strict_assignment cx tokens).andThen fun value rest h => strict_pipeTail cx value rest
termination_by rank tokens 40
decreasing_by
  all_goals simp only [rank_eq]
  · omega
  · have := h.length_le
    omega

theorem strict_pipeTail (cx : Context) (value : Node) (tokens : List Token) :
    (pipeTail cx value tokens).Strict := by
  cases tokens with
  | nil =>
    rw [pipeTail]
    exact .done _ _
  | cons token rest =>
    rw [pipeTail]
    split
    · refine (Strict.after ?_ token).reporting ?_
      · refine (strict_pipeName cx rest).andThen fun name rest₁ h₁ => ?_
        refine (strict_pipeArguments cx rest₁).andThen fun arguments rest₂ h₂ => ?_
        exact strict_pipeTail cx _ rest₂
      · split
        · exact List.forall_mem_singleton.mpr rfl
        · simp
    · exact .done _ _
termination_by rank tokens 39
decreasing_by
  all_goals simp only [rank_eq]
  · have := h₁.length_le
    simp only [List.length_cons]
    omega
  · have := h₁.length_le
    have := h₂.length_le
    simp only [List.length_cons]
    omega

theorem strict_pipeArguments (cx : Context) (tokens : List Token) :
    (pipeArguments cx tokens).Strict := by
  rw [pipeArguments]
  exact (strict_pipeArgumentItems cx tokens).map _
termination_by rank tokens 38
decreasing_by
  all_goals simp only [rank_eq]
  omega

theorem strict_pipeArgumentItems (cx : Context) (tokens : List Token) :
    (pipeArgumentItems cx tokens).Strict := by
  cases tokens with
  | nil =>
    rw [pipeArgumentItems]
    exact .done _ _
  | cons token rest =>
    rw [pipeArgumentItems]
    split
    · refine Strict.after ?_ token
      refine (strict_assignment cx rest).andThen fun argument rest₁ h₁ => ?_
      exact (strict_pipeArgumentItems cx rest₁).map _
    · exact .done _ _
termination_by rank tokens 37
decreasing_by
  all_goals simp only [rank_eq]
  · simp only [List.length_cons]
    omega
  · have := h₁.length_le
    simp only [List.length_cons]
    omega

theorem strict_assignment (cx : Context) (tokens : List Token) :
    (assignment cx tokens).Strict := by
  rw [assignment]
  refine (strict_conditional cx tokens).andThen fun target rest h => ?_
  cases rest with
  | nil => exact .done _ _
  | cons token rest₁ =>
    dsimp only
    split
    · exact (((strict_assignment cx rest₁).map _).after token).reporting
        (error_assignmentProblems cx target (token :: rest₁))
    · exact .done _ _
termination_by rank tokens 36
decreasing_by
  all_goals simp only [rank_eq]
  · omega
  · have := h.length_le
    simp only [List.length_cons] at this
    omega

theorem strict_conditional (cx : Context) (tokens : List Token) :
    (conditional cx tokens).Strict := by
  rw [conditional]
  refine (strict_binary cx 2 tokens).andThen fun condition rest h => ?_
  cases rest with
  | nil => exact .done _ _
  | cons token rest₁ =>
    dsimp only
    split
    · refine Strict.after ?_ token
      refine (strict_pipe cx rest₁).andThen fun yes rest₂ h₂ => ?_
      refine (strict_expect cx ':' rest₂).andThen fun colon rest₃ h₃ => ?_
      exact (strict_pipe cx rest₃).map _
    · exact .done _ _
termination_by rank tokens 35
decreasing_by
  all_goals simp only [rank_eq]
  · omega
  · have := h.length_le
    simp only [List.length_cons] at this
    omega
  · have := h₂.length_le
    have := h₃.length_le
    have := h.length_le
    simp only [List.length_cons] at this
    omega

theorem strict_binary (cx : Context) (level : Nat) (tokens : List Token) :
    (binary cx level tokens).Strict := by
  rw [binary]
  split
  · refine (strict_binary cx (level + 1) tokens).andThen fun left rest h => ?_
    exact strict_binaryTail cx level left rest
  · exact strict_exponentiation cx tokens
termination_by rank tokens (20 + (12 - level))
decreasing_by
  all_goals simp only [rank_eq]
  · omega
  · omega
  · have := h.length_le
    omega

theorem strict_binaryTail (cx : Context) (level : Nat) (left : Node) (tokens : List Token) :
    (binaryTail cx level left tokens).Strict := by
  cases tokens with
  | nil =>
    rw [binaryTail]
    exact .done _ _
  | cons token rest =>
    rw [binaryTail]
    split
    · refine Strict.after ?_ token
      refine (strict_binary cx (level + 1) rest).andThen fun right rest₁ h₁ => ?_
      exact strict_binaryTail cx level _ rest₁
    · exact .done _ _
termination_by rank tokens 19
decreasing_by
  all_goals simp only [rank_eq]
  · simp only [List.length_cons]
    omega
  · have := h₁.length_le
    simp only [List.length_cons]
    omega

theorem strict_exponentiation (cx : Context) (tokens : List Token) :
    (exponentiation cx tokens).Strict := by
  rw [exponentiation]
  refine (strict_prefixed cx tokens).andThen fun base rest h => ?_
  cases rest with
  | nil => exact .done _ _
  | cons token rest₁ =>
    dsimp only
    split
    · exact ((strict_exponentiation cx rest₁).map _).after token
    · exact .done _ _
termination_by rank tokens 18
decreasing_by
  all_goals simp only [rank_eq]
  · omega
  · have := h.length_le
    simp only [List.length_cons] at this
    omega

theorem strict_prefixed (cx : Context) (tokens : List Token) : (prefixed cx tokens).Strict := by
  cases tokens with
  | nil =>
    rw [prefixed]
    exact strict_postfixed cx []
  | cons token rest =>
    rw [prefixed]
    split
    · exact ((strict_prefixed cx rest).map _).after token
    · exact strict_postfixed cx (token :: rest)
termination_by rank tokens 17
decreasing_by
  all_goals simp only [rank_eq]
  all_goals
    simp only [List.length_nil, List.length_cons]
    omega

theorem strict_postfixed (cx : Context) (tokens : List Token) : (postfixed cx tokens).Strict := by
  rw [postfixed]
  exact (strict_primary cx tokens).andThen fun receiver rest h => strict_postfixTail cx receiver rest
termination_by rank tokens 16
decreasing_by
  all_goals simp only [rank_eq]
  · omega
  · have := h.length_le
    omega

theorem strict_postfixTail (cx : Context) (receiver : Node) (tokens : List Token) :
    (postfixTail cx receiver tokens).Strict := by
  cases tokens with
  | nil =>
    rw [postfixTail]
    exact .done _ _
  | cons token rest =>
    have next : ∀ (node : Node) (rest₁ : List Token), rest₁ <:+ rest →
        (postfixTail cx node rest₁).Strict := fun node rest₁ h₁ => strict_postfixTail cx node rest₁
    rw [postfixTail]
    split
    · exact ((strict_member cx receiver token rest).andThen next).after token
    split
    · exact ((strict_keyed cx receiver [token.leaf] rest).andThen next).after token
    split
    · exact ((strict_call cx receiver [] token rest).andThen next).after token
    split
    · exact (next _ rest List.suffix_rfl).after token
    split
    · exact ((strict_safeAccess cx receiver token rest).andThen next).after token
    · exact .done _ _
termination_by rank tokens 15
decreasing_by
  all_goals simp only [rank_eq, List.length_cons]
  · have := h₁.length_le
    omega
  all_goals omega

theorem strict_safeAccess (cx : Context) (receiver : Node) (mark : Token) (tokens : List Token) :
    (safeAccess cx receiver mark tokens).Strict := by
  cases tokens with
  | nil =>
    rw [safeAccess]
    exact strict_member cx receiver mark []
  | cons opening rest =>
    rw [safeAccess]
    split
    · exact (strict_call cx receiver [mark.leaf] opening rest).after opening
    split
    · exact (strict_keyed cx receiver [mark.leaf, opening.leaf] rest).after opening
    · exact strict_member cx receiver mark (opening :: rest)
termination_by rank tokens 14
decreasing_by
  all_goals simp only [rank_eq]
  all_goals
    simp only [List.length_cons]
    omega

theorem strict_keyed (cx : Context) (receiver : Node) (marks : List Node) (tokens : List Token) :
    (keyed cx receiver marks tokens).Strict := by
  rw [keyed]
  exact (strict_pipe cx tokens).andThen fun key rest _ => (strict_expect cx ']' rest).map _
termination_by rank tokens 43
decreasing_by
  all_goals simp only [rank_eq]
  omega

theorem strict_call (cx : Context) (callee : Node) (marks : List Node) (opening : Token)
    (tokens : List Token) : (call cx callee marks opening tokens).Strict := by
  rw [call]
  exact (strict_items cx ')' tokens).map _
termination_by rank tokens 43
decreasing_by
  all_goals simp only [rank_eq]
  omega

theorem strict_items (cx : Context) (closing : Char) (tokens : List Token) :
    (items cx closing tokens).Strict := by
  cases tokens with
  | nil =>
    rw [items]
    exact strict_itemsTail cx closing []
  | cons token rest =>
    rw [items]
    split
    · exact (Strict.done _ _).after token
    · exact strict_itemsTail cx closing (token :: rest)
termination_by rank tokens 42
decreasing_by
  all_goals simp only [rank_eq]
  all_goals
    simp only [List.length_nil, List.length_cons]
    omega

theorem strict_itemsTail (cx : Context) (closing : Char) (tokens : List Token) :
    (itemsTail cx closing tokens).Strict := by
  rw [itemsTail]
  refine (strict_pipe cx tokens).andThen fun item rest h => ?_
  cases rest with
  | nil => exact (strict_expect cx closing []).map _
  | cons token rest₁ =>
    dsimp only
    split
    · exact ((strict_itemsTail cx closing rest₁).map _).after token
    · exact (strict_expect cx closing (token :: rest₁)).map _
termination_by rank tokens 41
decreasing_by
  all_goals simp only [rank_eq]
  · omega
  · have := h.length_le
    simp only [List.length_cons] at this
    omega

theorem strict_primary (cx : Context) (tokens : List Token) : (primary cx tokens).Strict := by
  cases tokens with
  | nil =>
    rw [primary]
    exact (Strict.done _ _).reporting_one
  | cons token rest =>
    rw [primary]
    split
    · refine Strict.after ?_ token
      exact (strict_pipe cx rest).andThen fun inner rest₁ _ => (strict_expect cx ')' rest₁).map _
    split
    · exact ((strict_items cx ']' rest).map _).after token
    split
    · exact ((strict_entries cx rest).map _).after token
    split
    · exact (Strict.done _ _).after token
    split
    · exact (Strict.done _ _).after token
    split
    · exact (Strict.done _ _).after token
    · exact (strict_misplaced token rest).after token
termination_by rank tokens 13
decreasing_by
  all_goals simp only [rank_eq]
  all_goals
    simp only [List.length_cons]
    omega

theorem strict_entries (cx : Context) (tokens : List Token) : (entries cx tokens).Strict := by
  cases tokens with
  | nil =>
    rw [entries]
    exact strict_expect cx _ []
  | cons token rest =>
    rw [entries]
    split
    · exact (Strict.done _ _).after token
    · exact strict_entriesTail cx (token :: rest)
termination_by rank tokens 12
decreasing_by
  all_goals simp only [rank_eq]
  simp only [List.length_cons]
  omega

theorem strict_entriesTail (cx : Context) (tokens : List Token) :
    (entriesTail cx tokens).Strict := by
  cases tokens with
  | nil =>
    rw [entriesTail]
    exact strict_expect cx _ []
  | cons key rest =>
    rw [entriesTail]
    refine Strict.after ?_ key
    refine (strict_entry cx key rest).andThen fun nodes rest₁ h₁ => ?_
    cases rest₁ with
    | nil => exact (strict_expect cx _ []).map _
    | cons token rest₂ =>
      dsimp only
      split
      · exact ((strict_entriesTail cx rest₂).map _).after token
      · exact (strict_expect cx _ (token :: rest₂)).map _
termination_by rank tokens 11
decreasing_by
  all_goals simp only [rank_eq]
  · simp only [List.length_cons]
    omega
  · have := h₁.length_le
    simp only [List.length_cons] at this ⊢
    omega

theorem strict_entry (cx : Context) (key : Token) (tokens : List Token) :
    (entry cx key tokens).Strict := by
  rw [entry]
  split
  · exact .done _ _
  · refine (strict_expect cx ':' tokens).andThen fun colon rest h => ?_
    exact (strict_pipe cx rest).map _
termination_by rank tokens 44
decreasing_by
  all_goals simp only [rank_eq]
  have := h.length_le
  omega

end

theorem strict_chainTail (cx : Context) (tokens : List Token) : (chainTail cx tokens).Strict := by
  fun_induction chainTail cx tokens with
  | case1 => exact .done _ _
  | case2 token => exact (Strict.done _ _).after token
  | case3 token => exact .done _ _
  | case4 token next rest separator ih =>
    refine Strict.after ?_ token
    exact (strict_pipe cx (next :: rest)).andThen fun value rest₁ h₁ => (ih rest₁ h₁).map _
  | case5 => exact .done _ _

theorem strict_chain (cx : Context) (tokens : List Token) : (chain cx tokens).Strict := by
  cases tokens with
  | nil => exact .done _ _
  | cons token rest =>
    rw [chain]
    refine (strict_pipe cx (token :: rest)).andThen fun first rest₁ h₁ => ?_
    cases rest₁ with
    | nil => exact .done _ _
    | cons separator rest₂ =>
      dsimp only
      split
      · refine ((strict_chainTail cx (separator :: rest₂)).map _).reporting ?_
        split
        · simp
        · exact List.forall_mem_singleton.mpr rfl
      · exact .done _ _

/-- Everything that is noticed in an expression is an error. -/
theorem strict_parse (mode : Mode) (offset : Nat) (text : Text) :
    ∀ d ∈ (parse mode offset text).2, d.severity = .error := by
  refine List.forall_mem_append.mpr ⟨strict_chain _ (tokensAt offset text), ?_⟩
  generalize (chain ⟨mode, offset + text.byteLength⟩ (tokensAt offset text)).rest = rest
  cases rest with
  | nil => simp [leftover]
  | cons token rest => exact List.forall_mem_singleton.mpr rfl

namespace Directive

theorem strict_variableEntry (cx : Context) (keyword : Token) (tokens : List Token) :
    (variableEntry cx keyword tokens).Strict := by
  cases tokens with
  | nil => exact (Strict.done _ _).reporting_one
  | cons token rest =>
    rw [variableEntry]
    split
    · exact (Strict.done _ _).reporting_one
    · refine Strict.after ?_ token
      cases rest with
      | nil => exact .done _ _
      | cons equals rest =>
        dsimp only
        split
        · refine Strict.after ?_ equals
          cases rest with
          | nil => exact (Strict.done _ _).reporting_one
          | cons value rest =>
            dsimp only
            split
            · exact (Strict.done _ _).after value
            · exact (Strict.done _ _).reporting_one
        · exact .done _ _

theorem strict_aliasName (cx : Context) (front tokens : List Token) :
    (aliasName cx front tokens).Strict := by
  cases tokens with
  | nil => exact (Strict.done _ _).reporting_one
  | cons token rest =>
    rw [aliasName]
    split
    · exact (Strict.done _ _).after token
    · exact (Strict.done _ _).reporting_one

theorem strict_optionalAlias (cx : Context) (tokens : List Token) :
    (optionalAlias cx tokens).Strict := by
  cases tokens with
  | nil => exact .done _ _
  | cons token rest =>
    rw [optionalAlias]
    split
    · exact (strict_aliasName cx [token] rest).after token
    · exact .done _ _

theorem strict_optionalColon (tokens : List Token) : (optionalColon tokens).Strict := by
  cases tokens with
  | nil => exact .done _ _
  | cons token rest =>
    rw [optionalColon]
    split
    · exact (Strict.done _ _).after token
    · exact .done _ _

theorem strict_optionalValue (cx : Context) (tokens : List Token) :
    (optionalValue cx tokens).Strict := by
  cases tokens with
  | nil => exact .done _ _
  | cons token rest =>
    rw [optionalValue]
    split
    · exact .done _ _
    · exact (strict_pipe cx (token :: rest)).map _

theorem strict_keyedExpression (cx : Context) (directive key : Text) (token : Token)
    (tokens : List Token) : (keyedExpression cx directive key token tokens).Strict := by
  refine (strict_optionalColon tokens).andThen fun colon rest _ => ?_
  refine (strict_optionalValue cx rest).andThen fun value rest₁ _ => ?_
  exact (strict_optionalAlias cx rest₁).map _

theorem strict_keyedEntry (cx : Context) (directive key : Text) (token : Token)
    (tokens : List Token) : (keyedEntry cx directive key token tokens).Strict := by
  cases tokens with
  | nil => exact strict_keyedExpression cx directive key token []
  | cons next rest =>
    rw [keyedEntry]
    split
    · exact (strict_aliasName cx [token, next] rest).after next
    · exact strict_keyedExpression cx directive key token (next :: rest)

theorem strict_entry (cx : Context) (directive : Text) (isFirst : Bool) (token : Token)
    (tokens : List Token) : (entry cx directive isFirst token tokens).Strict := by
  unfold entry
  split
  · exact (strict_variableEntry cx token tokens).after token
  split
  · refine (strict_pipe cx (token :: tokens)).andThen fun value rest _ => ?_
    exact (strict_optionalAlias cx rest).map _
  split
  · exact (strict_keyedEntry cx directive _ token tokens).after token
  · exact ((Strict.done _ _).after token).reporting_one

theorem strict_entries (cx : Context) (directive : Text) (isFirst : Bool) (tokens : List Token) :
    ∀ d ∈ (entries cx directive isFirst tokens).2, d.severity = .error := by
  fun_induction entries cx directive isFirst tokens with
  | case1 => simp
  | case2 isFirst token rest _ more ih => exact ih
  | case3 isFirst token rest _ first more ih₁ ih₂ =>
    refine List.forall_mem_append.mpr ⟨strict_entry cx directive isFirst token rest, ?_⟩
    simp only [more]
    split
    · next shorter => exact ih₁ shorter
    · exact ih₂

/-- Everything that is noticed in the value of a structural directive is an error. -/
theorem strict_parse (directive : Text) (offset : Nat) (text : Text) :
    ∀ d ∈ (parse directive offset text).2, d.severity = .error :=
  strict_entries _ directive true (tokensAt offset text)

end Directive

end Expression

end ComponentExtraction
