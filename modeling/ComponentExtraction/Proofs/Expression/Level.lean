import ComponentExtraction.Expression.Directive
import ComponentExtraction.Proofs.Expression.Leaves
import ComponentExtraction.Proofs.Tree.Shape

/-!
# Parsed expressions respect the levels of their operators

The kind of a node says how tightly it holds together (`Kind.level?`), and the kind
of a node with operands how tightly each of them has to (`Node.Graded`). Every tree
of the parser has operands that are tight enough, whatever was wrong with its text:
a rule of the grammar finds an operand of its own level (`IsOperand`), and what it puts
around an operand asks for no more.

A text without errors has only what its mode permits (`Permitted`). Both are shown at
once, as each error is recorded by the rule that makes the node.
-/

namespace ComponentExtraction

namespace Expression.BinaryOperator

def leftLeast (operator : BinaryOperator) : Nat :=
  match operator.level with
  | 0 => 1
  | 9 => 10
  | level => level

def rightLeast (operator : BinaryOperator) : Nat :=
  match operator.level with
  | 0 => 0
  | 9 => 9
  | level => level + 1

theorem level_of_ofLexeme? {level : Nat} {lexeme : Lexeme} {operator : BinaryOperator}
    (found : ofLexeme? level lexeme = some operator) : operator.level = level := by
  have accepted := List.find?_some found
  simp only [decide_eq_true_eq] at accepted
  exact accepted.2

/-- The operators between two operands of about their own level associate to the left. -/
theorem least_eq {level : Nat} {operator : BinaryOperator} (level_eq : operator.level = level)
    (two_le : 2 ≤ level) (below : level < 9) :
    operator.leftLeast = level ∧ operator.rightLeast = level + 1 := by
  subst level_eq
  cases operator <;> simp [level] at two_le below <;> exact ⟨rfl, rfl⟩

end Expression.BinaryOperator

/-- How tightly nodes of a kind hold together: as their operator does, and most tightly
where no operator is open. Pipes and chains are no operands. -/
def Kind.level? : Kind → Option Nat
  | binary operator => some operator.level
  | conditional => some 1
  | prefixed _ => some 10
  | pipe | chain => none
  | _ => some 11

namespace Node

open Expression

/-- The node is an operand of a level or a higher one. Nodes
that are no operands, such as tokens, have no level. -/
def Tight (least : Nat) (node : Node) : Prop :=
  ∃ level, node.kind.level? = some level ∧ least ≤ level

/-- The operands of a node hold together as tightly as its kind
asks for. What stands between brackets may be anything. -/
def Graded : Kind → List Node → Prop
  | .binary operator, children => ∃ left mark right, children = [left, leaf mark, right] ∧
      left.Tight operator.leftLeast ∧ right.Tight operator.rightLeast
  | .conditional, children => ∃ condition more, children = condition :: more ∧ condition.Tight 2
  | .prefixed _, children => ∃ mark operand, children = [leaf mark, operand] ∧ operand.Tight 10
  | .reference _, children | .indexed, children | .call, children | .nonNull, children =>
      ∃ receiver more, children = receiver :: more ∧ receiver.Tight 11
  | .pipeArguments, children => ∀ argument ∈ children, argument.Tight 0
  | _, _ => True

/-- Operands are tight enough, and none of them is a chain. -/
structure Leveled (kind : Kind) (children : List Node) : Prop where
  graded : Graded kind children
  unchained : ∀ child ∈ children, child.kind ≠ .chain

/-- What an expression without errors may hold depends on how it is used:
pipes belong to bindings, several expressions and assignments to handlers. -/
structure Permitted (mode : Mode) (kind : Kind) (children : List Node) : Prop where
  pipe : kind = .pipe → mode = .binding
  chain : kind = .chain → mode = .action
  assignment : ∀ operator, kind = .binary operator → operator.level = 0 → mode = .action ∧
    ∃ target more, children = target :: more ∧
      (target.kind.isReference = true ∨ target.kind = .indexed)

theorem Tight.mono {node : Node} {least least' : Nat} (tight : node.Tight least)
    (le : least' ≤ least) : node.Tight least' := by
  obtain ⟨level, level_eq, bound⟩ := tight
  exact ⟨level, level_eq, Nat.le_trans le bound⟩

theorem Tight.kind_ne_chain {node : Node} {least : Nat} (tight : node.Tight least) :
    node.kind ≠ .chain := by
  intro chain
  obtain ⟨level, level_eq, -⟩ := tight
  rw [chain] at level_eq
  exact absurd level_eq (by simp [Kind.level?])

theorem tight_leaf (span : Span) : (leaf span).Tight 11 :=
  ⟨11, rfl, Nat.le_refl 11⟩

theorem permitted_of_ne {mode : Mode} {kind : Kind} (children : List Node) (pipe : kind ≠ .pipe)
    (chain : kind ≠ .chain)
    (operation : ∀ operator : BinaryOperator, kind = .binary operator → operator.level ≠ 0) :
    Permitted mode kind children :=
  ⟨fun eq => absurd eq pipe, fun eq => absurd eq chain,
    fun operator eq assigns => absurd assigns (operation operator eq)⟩

end Node

namespace Expression

open Node Diagnostic
open Parsing (Spells)

variable {cx : Context} {faulty : Prop} {tokens : List Token} {node receiver : Node}
variable {kind : Kind} {nodes more : List Node} {start least : Nat}

def Legitimate (cx : Context) (faulty : Prop) (kind : Kind) (children : List Node) : Prop :=
  Leveled kind children ∧ (faulty ∨ Permitted cx.mode kind children)

/-- A whole expression, with its pipes. -/
structure IsWhole (cx : Context) (faulty : Prop) (node : Node) : Prop where
  legitimate : Every (Legitimate cx faulty) node
  unchained : node.kind ≠ .chain

structure IsOperand (cx : Context) (faulty : Prop) (least : Nat) (node : Node) : Prop where
  legitimate : Every (Legitimate cx faulty) node
  tight : node.Tight least

def AllWhole (cx : Context) (faulty : Prop) (nodes : List Node) : Prop :=
  ∀ node ∈ nodes, IsWhole cx faulty node

@[simp] theorem allWhole_nil : AllWhole cx faulty [] := by
  simp [AllWhole]

@[simp] theorem allWhole_cons :
    AllWhole cx faulty (node :: nodes) ↔ IsWhole cx faulty node ∧ AllWhole cx faulty nodes :=
  List.forall_mem_cons

@[simp] theorem allWhole_append :
    AllWhole cx faulty (nodes ++ more) ↔ AllWhole cx faulty nodes ∧ AllWhole cx faulty more :=
  List.forall_mem_append

namespace IsOperand

theorem mono {least' : Nat} (operand : IsOperand cx faulty least node) (le : least' ≤ least) :
    IsOperand cx faulty least' node :=
  ⟨operand.legitimate, operand.tight.mono le⟩

theorem whole (operand : IsOperand cx faulty least node) : IsWhole cx faulty node :=
  ⟨operand.legitimate, operand.tight.kind_ne_chain⟩

end IsOperand

theorem legitimate_enclosing (below : AllWhole cx faulty nodes) (graded : Graded kind nodes)
    (permitted : faulty ∨ Permitted cx.mode kind nodes) :
    Every (Legitimate cx faulty) (Node.enclosing kind start nodes) :=
  .intro ⟨⟨graded, fun child member => (below child member).unchained⟩, permitted⟩
    fun child member => (below child member).legitimate

theorem operand_enclosing (below : AllWhole cx faulty nodes) (graded : Graded kind nodes)
    (level : kind.level? = some least)
    (operation : ∀ operator : BinaryOperator, kind = .binary operator → operator.level ≠ 0 := by
      simp) : IsOperand cx faulty least (Node.enclosing kind start nodes) := by
  have pipe : kind ≠ .pipe := by
    rintro rfl
    simp [Kind.level?] at level
  have chain : kind ≠ .chain := by
    rintro rfl
    simp [Kind.level?] at level
  exact ⟨legitimate_enclosing below graded (.inr (permitted_of_ne nodes pipe chain operation)),
    least, level, Nat.le_refl least⟩

theorem operand_leaf (span : Span) : IsOperand cx faulty 11 (leaf span) :=
  ⟨.intro ⟨⟨trivial, by simp⟩, .inr (permitted_of_ne [] (by simp) (by simp) (by simp))⟩ (by simp),
    tight_leaf span⟩

@[simp] theorem whole_leaf (token : Token) : IsWhole cx faulty token.leaf :=
  (operand_leaf token.span).whole

theorem operand_single {token : Token} (graded : Graded kind [token.leaf])
    (level : kind.level? = some 11) (operation : ∀ operator, kind ≠ .binary operator) :
    IsOperand cx faulty 11 (single kind token) :=
  operand_enclosing (by simp) graded level fun operator eq => absurd eq (operation operator)

theorem operand_reference (name : Text) (token : Token) :
    IsOperand cx faulty 11 (single (.reference name) token) :=
  operand_single ⟨_, [], rfl, tight_leaf _⟩ rfl (by simp)

theorem level_expect (cx : Context) (c : Char) (tokens : List Token) :
    (expect cx c tokens).Spells faulty fun nodes _ => AllWhole cx faulty nodes := by
  cases tokens with
  | nil => exact .reporting fun _ => .done allWhole_nil
  | cons token rest =>
    rw [expect]
    split
    · exact .after (.done (by simp))
    · exact .reporting fun _ => .done allWhole_nil

theorem level_pipeName (cx : Context) (tokens : List Token) :
    (pipeName cx tokens).Spells faulty fun nodes _ => AllWhole cx faulty nodes := by
  cases tokens with
  | nil => exact .reporting fun _ => .done allWhole_nil
  | cons token rest =>
    rw [pipeName]
    split
    · next name _ =>
      have named : Every (Legitimate cx faulty) (Node.mk (.pipeReference name) token.span
          [token.leaf]) :=
        .intro ⟨⟨trivial, by simp [Token.leaf, leaf]⟩,
          .inr (permitted_of_ne _ (by simp) (by simp) (by simp))⟩
          (by simpa using (whole_leaf token).legitimate)
      exact .after (.done (allWhole_cons.mpr ⟨⟨named, by simp⟩, allWhole_nil⟩))
    · exact .reporting fun _ => .done allWhole_nil

theorem level_member {dot : Token} (operand : IsOperand cx faulty 11 receiver) :
    (member cx receiver dot tokens).Spells faulty fun node _ => IsOperand cx faulty 11 node := by
  have whole := operand.whole
  have nameless : IsOperand cx faulty 11
      (Node.enclosing (.reference []) receiver.span.start [receiver, dot.leaf]) :=
    operand_enclosing (by simp [whole]) ⟨_, _, rfl, operand.tight⟩ rfl
  cases tokens with
  | nil => exact .reporting fun _ => .done nameless
  | cons token rest =>
    simp only [member]
    split
    · exact .after (.done (operand_enclosing (by simp [whole]) ⟨_, _, rfl, operand.tight⟩ rfl))
    · exact .reporting fun _ => .done nameless

theorem level_misplaced (token : Token) (rest : List Token) :
    (misplaced token rest).Spells faulty fun node _ => IsOperand cx faulty 11 node := by
  unfold misplaced
  split <;> exact .reporting fun _ => .done (operand_leaf token.span)

theorem permitted_assignment {target value : Node} {mark : Token} {operator : BinaryOperator}
    (known : ¬Harmless (assignmentProblems cx target tokens) → faulty) :
    faulty ∨ Permitted cx.mode (.binary operator) [target, mark.leaf, value] := by
  by_cases harmless : Harmless (assignmentProblems cx target tokens)
  · refine .inr ⟨by simp, by simp, fun _ _ _ => ?_⟩
    unfold assignmentProblems at harmless
    split at harmless
    · exact absurd rfl (harmless _ (List.mem_singleton.mpr rfl))
    · next mode_eq kind_eq => exact ⟨mode_eq, _, _, rfl, .inl (by simp [kind_eq, Kind.isReference])⟩
    · next mode_eq kind_eq => exact ⟨mode_eq, _, _, rfl, .inr kind_eq⟩
    · exact absurd rfl (harmless _ (List.mem_singleton.mpr rfl))
  · exact .inl (known harmless)

theorem permitted_pipe
    (known : ¬Harmless (if cx.mode = .action then [cx.problemAt tokens .pipeInAction] else []) →
      faulty) : faulty ∨ Permitted cx.mode .pipe nodes := by
  cases mode_eq : cx.mode with
  | binding => exact .inr ⟨fun _ => rfl, by simp, by simp⟩
  | action =>
    refine .inl (known ?_)
    simp [mode_eq, Context.problemAt, Diagnostic.severity, Problem.severity]

theorem permitted_chain
    (known : ¬Harmless (if cx.mode = .action then [] else [cx.problemAt tokens .chainInBinding]) →
      faulty) : faulty ∨ Permitted cx.mode .chain nodes := by
  cases mode_eq : cx.mode with
  | action => exact .inr ⟨by simp, fun _ => rfl, by simp⟩
  | binding =>
    refine .inl (known ?_)
    simp [mode_eq, Context.problemAt, Diagnostic.severity, Problem.severity]

theorem operand_operation {left right : Node} {mark : Token} {operator : BinaryOperator}
    {leftLevel rightLevel : Nat} (first : IsOperand cx faulty leftLevel left)
    (second : IsOperand cx faulty rightLevel right) (left_le : operator.leftLeast ≤ leftLevel)
    (right_le : operator.rightLeast ≤ rightLevel)
    (permitted : faulty ∨ Permitted cx.mode (.binary operator) [left, mark.leaf, right]) :
    IsOperand cx faulty operator.level
      (Node.enclosing (.binary operator) start [left, mark.leaf, right]) :=
  ⟨legitimate_enclosing (by simp [first.whole, second.whole])
    ⟨left, _, right, rfl, first.tight.mono left_le, second.tight.mono right_le⟩ permitted,
    operator.level, rfl, Nat.le_refl _⟩

mutual

theorem level_pipe (cx : Context) (tokens : List Token) :
    (pipe cx tokens).Spells faulty fun node _ => IsWhole cx faulty node := by
  rw [pipe]
  refine (level_assignment cx tokens).andThen fun value rest h operand => ?_
  exact level_pipeTail cx value rest operand.whole
termination_by rank tokens 40
decreasing_by
  all_goals simp only [rank_eq]
  · omega
  · have := h.length_le
    omega

theorem level_pipeTail (cx : Context) (value : Node) (tokens : List Token)
    (whole : IsWhole cx faulty value) :
    (pipeTail cx value tokens).Spells faulty fun node _ => IsWhole cx faulty node := by
  cases tokens with
  | nil =>
    rw [pipeTail]
    exact .done whole
  | cons token rest =>
    rw [pipeTail]
    split
    · refine .reporting fun known => .after ?_
      refine (level_pipeName cx rest).andThen fun name rest₁ h₁ name_whole => ?_
      refine (level_pipeArguments cx rest₁).andThen fun arguments rest₂ h₂ arguments_whole => ?_
      refine level_pipeTail cx _ rest₂ ⟨legitimate_enclosing ?_ trivial ?_, by simp [enclosing]⟩
      · simp [whole, name_whole, arguments_whole]
      · exact permitted_pipe known
    · exact .done whole
termination_by rank tokens 39
decreasing_by
  all_goals simp only [rank_eq]
  · have := h₁.length_le
    simp only [List.length_cons]
    omega
  · have := h₁.length_le
    have := h₂.length_le
    simp only [List.length_cons]
    omega

theorem level_pipeArguments (cx : Context) (tokens : List Token) :
    (pipeArguments cx tokens).Spells faulty fun nodes _ => AllWhole cx faulty nodes := by
  rw [pipeArguments]
  refine (level_pipeArgumentItems cx tokens).map fun items rest operands => ?_
  split
  · exact allWhole_nil
  · have arguments : IsOperand cx faulty 11
        (Node.enclosing .pipeArguments (cx.offset tokens) items) :=
      operand_enclosing (fun item member => (operands item member).whole)
        (fun item member => (operands item member).tight) rfl
    exact allWhole_cons.mpr ⟨arguments.whole, allWhole_nil⟩
termination_by rank tokens 38
decreasing_by
  all_goals simp only [rank_eq]
  omega

theorem level_pipeArgumentItems (cx : Context) (tokens : List Token) :
    (pipeArgumentItems cx tokens).Spells faulty fun nodes _ =>
      ∀ node ∈ nodes, IsOperand cx faulty 0 node := by
  cases tokens with
  | nil =>
    rw [pipeArgumentItems]
    exact .done (by simp)
  | cons token rest =>
    rw [pipeArgumentItems]
    split
    · refine .after ((level_assignment cx rest).andThen fun argument rest₁ h₁ operand => ?_)
      refine (level_pipeArgumentItems cx rest₁).map fun items left operands => ?_
      exact List.forall_mem_cons.mpr ⟨(operand_leaf token.span).mono (Nat.zero_le _),
        List.forall_mem_cons.mpr ⟨operand, operands⟩⟩
    · exact .done (by simp)
termination_by rank tokens 37
decreasing_by
  all_goals simp only [rank_eq]
  · simp only [List.length_cons]
    omega
  · have := h₁.length_le
    simp only [List.length_cons]
    omega

theorem level_assignment (cx : Context) (tokens : List Token) :
    (assignment cx tokens).Spells faulty fun node _ => IsOperand cx faulty 0 node := by
  rw [assignment]
  refine (level_conditional cx tokens).andThen fun target rest h operand => ?_
  cases rest with
  | nil => exact .done (operand.mono (Nat.zero_le _))
  | cons token rest₁ =>
    dsimp only
    split
    · next operator found =>
      have level := BinaryOperator.level_of_ofLexeme? found
      refine .reporting fun known => .after ((level_assignment cx rest₁).map ?_)
      intro value left value_operand
      have least : operator.leftLeast = 1 ∧ operator.rightLeast = 0 := by
        simp [BinaryOperator.leftLeast, BinaryOperator.rightLeast, level]
      exact level ▸ operand_operation operand value_operand (Nat.le_of_eq least.1)
          (Nat.le_of_eq least.2)
        (permitted_assignment known)
    · exact .done (operand.mono (Nat.zero_le _))
termination_by rank tokens 36
decreasing_by
  all_goals simp only [rank_eq]
  · omega
  · have := h.length_le
    simp only [List.length_cons] at this
    omega

theorem level_conditional (cx : Context) (tokens : List Token) :
    (conditional cx tokens).Spells faulty fun node _ => IsOperand cx faulty 1 node := by
  rw [conditional]
  refine (level_binary cx 2 tokens (by omega) (by omega)).andThen fun condition rest h operand => ?_
  cases rest with
  | nil => exact .done (operand.mono (by omega))
  | cons token rest₁ =>
    dsimp only
    split
    · refine .after ((level_pipe cx rest₁).andThen fun yes rest₂ h₂ yes_whole => ?_)
      refine (level_expect cx ':' rest₂).andThen fun colon rest₃ h₃ colon_whole => ?_
      refine (level_pipe cx rest₃).map fun no left no_whole => ?_
      exact operand_enclosing (by simp [operand.whole, yes_whole, colon_whole, no_whole])
        ⟨_, _, rfl, operand.tight⟩ rfl
    · exact .done (operand.mono (by omega))
termination_by rank tokens 35
decreasing_by
  all_goals simp only [rank_eq]
  · omega
  · have := h.length_le
    simp only [List.length_cons] at this
    omega
  · have := h₂.length_le
    have := h₃.length_le
    have := h.length_le
    simp only [List.length_cons] at this
    omega

theorem level_binary (cx : Context) (level : Nat) (tokens : List Token) (two_le : 2 ≤ level)
    (le_nine : level ≤ 9) :
    (binary cx level tokens).Spells faulty fun node _ => IsOperand cx faulty level node := by
  rw [binary]
  split
  · next below =>
    refine (level_binary cx (level + 1) tokens (by omega) (by omega)).andThen
      fun operand rest h tight => ?_
    exact level_binaryTail cx level operand rest two_le below (tight.mono (by omega))
  · exact (level_exponentiation cx tokens).mono fun _ _ tight => tight.mono le_nine
termination_by rank tokens (20 + (12 - level))
decreasing_by
  all_goals simp only [rank_eq]
  · omega
  · omega
  · have := h.length_le
    omega

theorem level_binaryTail (cx : Context) (level : Nat) (operand : Node) (tokens : List Token)
    (two_le : 2 ≤ level) (below : level < 9) (tight : IsOperand cx faulty level operand) :
    (binaryTail cx level operand tokens).Spells faulty fun node _ =>
      IsOperand cx faulty level node := by
  cases tokens with
  | nil =>
    rw [binaryTail]
    exact .done tight
  | cons token rest =>
    rw [binaryTail]
    split
    · next operator found =>
      have level_eq := BinaryOperator.level_of_ofLexeme? found
      refine .after ((level_binary cx (level + 1) rest (by omega) (by omega)).andThen
        fun right rest₁ h₁ right_tight => ?_)
      have least : operator.leftLeast = level ∧ operator.rightLeast = level + 1 :=
        BinaryOperator.least_eq level_eq two_le below
      refine level_binaryTail cx level _ rest₁ two_le below ?_
      rw [← level_eq]
      exact operand_operation tight right_tight (Nat.le_of_eq least.1)
          (Nat.le_of_eq least.2) (.inr (permitted_of_ne _
        (by simp) (by simp) (by simp; omega)))
    · exact .done tight
termination_by rank tokens 19
decreasing_by
  all_goals simp only [rank_eq]
  · simp only [List.length_cons]
    omega
  · have := h₁.length_le
    simp only [List.length_cons]
    omega

theorem level_exponentiation (cx : Context) (tokens : List Token) :
    (exponentiation cx tokens).Spells faulty fun node _ => IsOperand cx faulty 9 node := by
  rw [exponentiation]
  refine (level_prefixed cx tokens).andThen fun base rest h operand => ?_
  cases rest with
  | nil => exact .done (operand.mono (by omega))
  | cons token rest₁ =>
    dsimp only
    split
    · next operator found =>
      have level := BinaryOperator.level_of_ofLexeme? found
      refine .after ((level_exponentiation cx rest₁).map fun exponent left exponent_operand => ?_)
      have least : operator.leftLeast = 10 ∧ operator.rightLeast = 9 := by
        simp [BinaryOperator.leftLeast, BinaryOperator.rightLeast, level]
      rw [← level]
      exact operand_operation operand exponent_operand (Nat.le_of_eq least.1)
          (Nat.le_of_eq least.2)
        (.inr (permitted_of_ne _ (by simp) (by simp) (by simp [level])))
    · exact .done (operand.mono (by omega))
termination_by rank tokens 18
decreasing_by
  all_goals simp only [rank_eq]
  · omega
  · have := h.length_le
    simp only [List.length_cons] at this
    omega

theorem level_prefixed (cx : Context) (tokens : List Token) :
    (prefixed cx tokens).Spells faulty fun node _ => IsOperand cx faulty 10 node := by
  cases tokens with
  | nil =>
    rw [prefixed]
    exact (level_postfixed cx []).mono fun _ _ tight => tight.mono (by omega)
  | cons token rest =>
    rw [prefixed]
    split
    · refine .after ((level_prefixed cx rest).map fun operand left tight => ?_)
      exact operand_enclosing (by simp [tight.whole]) ⟨_, _, rfl, tight.tight⟩ rfl
    · exact (level_postfixed cx (token :: rest)).mono fun _ _ tight => tight.mono (by omega)
termination_by rank tokens 17
decreasing_by
  all_goals simp only [rank_eq]
  · simp only [List.length_nil]
    omega
  · simp only [List.length_cons]
    omega
  · simp only [List.length_cons]
    omega

theorem level_postfixed (cx : Context) (tokens : List Token) :
    (postfixed cx tokens).Spells faulty fun node _ => IsOperand cx faulty 11 node := by
  rw [postfixed]
  refine (level_primary cx tokens).andThen fun receiver rest h operand => ?_
  exact level_postfixTail cx receiver rest operand
termination_by rank tokens 16
decreasing_by
  all_goals simp only [rank_eq]
  · omega
  · have := h.length_le
    omega

theorem level_postfixTail (cx : Context) (receiver : Node) (tokens : List Token)
    (operand : IsOperand cx faulty 11 receiver) :
    (postfixTail cx receiver tokens).Spells faulty fun node _ => IsOperand cx faulty 11 node := by
  cases tokens with
  | nil =>
    rw [postfixTail]
    exact .done operand
  | cons token rest =>
    rw [postfixTail]
    split
    · refine .after ((level_member operand).andThen fun node rest₁ h₁ next => ?_)
      exact level_postfixTail cx node rest₁ next
    split
    · refine .after ((level_keyed cx receiver [token.leaf] rest operand (by simp)).andThen
        fun node rest₁ h₁ next => ?_)
      exact level_postfixTail cx node rest₁ next
    split
    · refine .after ((level_call cx receiver [] token rest operand (by simp)).andThen
        fun node rest₁ h₁ next => ?_)
      exact level_postfixTail cx node rest₁ next
    split
    · exact .after (level_postfixTail cx _ rest
        (operand_enclosing (by simp [operand.whole]) ⟨_, _, rfl, operand.tight⟩ rfl))
    split
    · refine .after ((level_safeAccess cx receiver token rest operand).andThen
        fun node rest₁ h₁ next => ?_)
      exact level_postfixTail cx node rest₁ next
    · exact .done operand
termination_by rank tokens 15
decreasing_by
  all_goals simp only [rank_eq]
  all_goals
    try have := h₁.length_le
    simp only [List.length_cons]
    omega

theorem level_safeAccess (cx : Context) (receiver : Node) (mark : Token) (tokens : List Token)
    (operand : IsOperand cx faulty 11 receiver) :
    (safeAccess cx receiver mark tokens).Spells faulty fun node _ =>
      IsOperand cx faulty 11 node := by
  cases tokens with
  | nil =>
    rw [safeAccess]
    exact level_member operand
  | cons opening rest =>
    rw [safeAccess]
    split
    · exact .after (level_call cx receiver [mark.leaf] opening rest operand (by simp))
    split
    · exact .after (level_keyed cx receiver [mark.leaf, opening.leaf] rest operand (by simp))
    · exact level_member operand
termination_by rank tokens 14
decreasing_by
  all_goals simp only [rank_eq]
  all_goals
    simp only [List.length_cons]
    omega

theorem level_keyed (cx : Context) (receiver : Node) (marks : List Node) (tokens : List Token)
    (operand : IsOperand cx faulty 11 receiver) (marks_whole : AllWhole cx faulty marks) :
    (keyed cx receiver marks tokens).Spells faulty fun node _ => IsOperand cx faulty 11 node := by
  rw [keyed]
  refine (level_pipe cx tokens).andThen fun key rest _ key_whole => ?_
  refine (level_expect cx ']' rest).map fun closing left closing_whole => ?_
  exact operand_enclosing (by simp [operand.whole, marks_whole, key_whole, closing_whole])
    ⟨_, _, rfl, operand.tight⟩ rfl
termination_by rank tokens 43
decreasing_by
  all_goals simp only [rank_eq]
  omega

theorem level_call (cx : Context) (callee : Node) (marks : List Node) (opening : Token)
    (tokens : List Token) (operand : IsOperand cx faulty 11 callee)
    (marks_whole : AllWhole cx faulty marks) :
    (call cx callee marks opening tokens).Spells faulty fun node _ =>
      IsOperand cx faulty 11 node := by
  rw [call]
  refine (level_items cx ')' tokens).map fun arguments left arguments_whole => ?_
  have list : IsOperand cx faulty 11
      (Node.enclosing .argumentList opening.span.start (opening.leaf :: arguments)) :=
    operand_enclosing (by simp [arguments_whole]) trivial rfl
  exact operand_enclosing (by simp [operand.whole, marks_whole, list.whole])
    ⟨_, _, rfl, operand.tight⟩ rfl
termination_by rank tokens 43
decreasing_by
  all_goals simp only [rank_eq]
  omega

theorem level_items (cx : Context) (closing : Char) (tokens : List Token) :
    (items cx closing tokens).Spells faulty fun nodes _ => AllWhole cx faulty nodes := by
  cases tokens with
  | nil =>
    rw [items]
    exact level_itemsTail cx closing []
  | cons token rest =>
    rw [items]
    split
    · exact .after (.done (by simp))
    · exact level_itemsTail cx closing (token :: rest)
termination_by rank tokens 42
decreasing_by
  all_goals simp only [rank_eq]
  all_goals
    simp only [List.length_nil, List.length_cons]
    omega

theorem level_itemsTail (cx : Context) (closing : Char) (tokens : List Token) :
    (itemsTail cx closing tokens).Spells faulty fun nodes _ => AllWhole cx faulty nodes := by
  rw [itemsTail]
  refine (level_pipe cx tokens).andThen fun item rest h whole => ?_
  cases rest with
  | nil =>
    refine (level_expect cx closing []).map fun ending left ending_whole => ?_
    exact allWhole_cons.mpr ⟨whole, ending_whole⟩
  | cons token rest₁ =>
    dsimp only
    split
    · refine .after ((level_itemsTail cx closing rest₁).map fun more left more_whole => ?_)
      simp [whole, more_whole]
    · refine (level_expect cx closing (token :: rest₁)).map fun ending left ending_whole => ?_
      exact allWhole_cons.mpr ⟨whole, ending_whole⟩
termination_by rank tokens 41
decreasing_by
  all_goals simp only [rank_eq]
  · omega
  · have := h.length_le
    simp only [List.length_cons] at this
    omega

theorem level_primary (cx : Context) (tokens : List Token) :
    (primary cx tokens).Spells faulty fun node _ => IsOperand cx faulty 11 node := by
  cases tokens with
  | nil =>
    rw [primary]
    exact .reporting fun _ => .done (operand_leaf _)
  | cons token rest =>
    rw [primary]
    split
    · refine .after ((level_pipe cx rest).andThen fun inner rest₁ h inner_whole => ?_)
      refine (level_expect cx ')' rest₁).map fun closing left closing_whole => ?_
      exact operand_enclosing (by simp [inner_whole, closing_whole]) trivial rfl
    split
    · refine .after ((level_items cx ']' rest).map fun elements left elements_whole => ?_)
      exact operand_enclosing (by simp [elements_whole]) trivial rfl
    split
    · refine .after ((level_entries cx rest).map fun members left members_whole => ?_)
      exact operand_enclosing (by simp [members_whole]) trivial rfl
    split
    · exact .after (.done (operand_single trivial rfl (by simp)))
    split
    · exact .after (.done (operand_single trivial rfl (by simp)))
    split
    · exact .after (.done (operand_reference _ token))
    · exact .after (level_misplaced token rest)
termination_by rank tokens 13
decreasing_by
  all_goals simp only [rank_eq]
  all_goals
    simp only [List.length_cons]
    omega

theorem level_entries (cx : Context) (tokens : List Token) :
    (entries cx tokens).Spells faulty fun nodes _ => AllWhole cx faulty nodes := by
  cases tokens with
  | nil =>
    rw [entries]
    exact level_expect cx _ []
  | cons token rest =>
    rw [entries]
    split
    · exact .after (.done (by simp))
    · exact level_entriesTail cx (token :: rest)
termination_by rank tokens 12
decreasing_by
  all_goals simp only [rank_eq]
  simp only [List.length_cons]
  omega

theorem level_entriesTail (cx : Context) (tokens : List Token) :
    (entriesTail cx tokens).Spells faulty fun nodes _ => AllWhole cx faulty nodes := by
  cases tokens with
  | nil =>
    rw [entriesTail]
    exact level_expect cx _ []
  | cons key rest =>
    rw [entriesTail]
    refine .after ((level_entry cx key rest).andThen fun nodes rest₁ h₁ first => ?_)
    cases rest₁ with
    | nil =>
      refine (level_expect cx _ []).map fun ending left ending_whole => ?_
      exact allWhole_append.mpr ⟨first, ending_whole⟩
    | cons token rest₂ =>
      dsimp only
      split
      · refine .after ((level_entriesTail cx rest₂).map fun more left more_whole => ?_)
        simp [first, more_whole]
      · refine (level_expect cx _ (token :: rest₂)).map fun ending left ending_whole => ?_
        exact allWhole_append.mpr ⟨first, ending_whole⟩
termination_by rank tokens 11
decreasing_by
  all_goals simp only [rank_eq]
  · simp only [List.length_cons]
    omega
  · have := h₁.length_le
    simp only [List.length_cons] at this ⊢
    omega

theorem level_entry (cx : Context) (key : Token) (tokens : List Token) :
    (entry cx key tokens).Spells faulty fun nodes _ => AllWhole cx faulty nodes := by
  rw [entry]
  split
  · exact .done (allWhole_cons.mpr ⟨(operand_reference _ key).whole, allWhole_nil⟩)
  · refine (level_expect cx ':' tokens).andThen fun colon rest h colon_whole => ?_
    refine (level_pipe cx rest).map fun value left value_whole => ?_
    simp [colon_whole, value_whole]
termination_by rank tokens 44
decreasing_by
  all_goals simp only [rank_eq]
  have := h.length_le
  omega

end

theorem level_chainTail (cx : Context) (tokens : List Token) :
    (chainTail cx tokens).Spells faulty fun nodes _ => AllWhole cx faulty nodes := by
  cases tokens with
  | nil =>
    rw [chainTail]
    exact .done allWhole_nil
  | cons token tail =>
    cases tail with
    | nil =>
      rw [chainTail]
      split
      · exact .after (.done (by simp))
      · exact .done allWhole_nil
    | cons next rest =>
      rw [chainTail]
      split
      · refine .after ((level_pipe cx (next :: rest)).andThen fun value rest₁ h₁ whole => ?_)
        refine (level_chainTail cx rest₁).map fun more left more_whole => ?_
        simp [whole, more_whole]
      · exact .done allWhole_nil
termination_by tokens.length
decreasing_by
  have := h₁.length_le
  simp only [List.length_cons] at this ⊢
  omega

/-- Only here a chain is made, so it stands below nothing. -/
theorem level_chain (cx : Context) (tokens : List Token) :
    (chain cx tokens).Spells faulty fun nodes _ =>
      ∀ node ∈ nodes, Every (Legitimate cx faulty) node := by
  cases tokens with
  | nil => exact .done (by simp)
  | cons token rest =>
    rw [chain]
    refine (level_pipe cx (token :: rest)).andThen fun first rest₁ h₁ whole => ?_
    cases rest₁ with
    | nil => exact .done (by simpa using whole.legitimate)
    | cons separator rest₂ =>
      dsimp only
      split
      · refine .reporting fun known => (level_chainTail cx (separator :: rest₂)).map ?_
        intro more left more_whole
        refine List.forall_mem_singleton.mpr (legitimate_enclosing ?_ trivial ?_)
        · exact allWhole_cons.mpr ⟨whole, more_whole⟩
        · exact permitted_chain known
      · exact .done (by simpa using whole.legitimate)

namespace Directive

theorem whole_variableNode (name : Text) (tokens : List Token) :
    IsWhole cx faulty (variableNode name tokens) := by
  have leaves : AllWhole cx faulty (tokens.map Token.leaf) := by
    intro child member
    obtain ⟨token, -, rfl⟩ := List.mem_map.mp member
    exact whole_leaf token
  have operand : IsOperand cx faulty 11 (variableNode name tokens) :=
    operand_enclosing leaves trivial rfl
  exact operand.whole

theorem whole_templateBinding (name : Text) (below : AllWhole cx faulty nodes) :
    IsWhole cx faulty (Node.enclosing (.templateBinding name) start nodes) := by
  have operand : IsOperand cx faulty 11 (Node.enclosing (.templateBinding name) start nodes) :=
    operand_enclosing below trivial rfl
  exact operand.whole

theorem level_variableEntry (cx : Context) (keyword : Token) (tokens : List Token) :
    (variableEntry cx keyword tokens).Spells faulty fun nodes _ => AllWhole cx faulty nodes := by
  cases tokens with
  | nil => exact .reporting fun _ => .done allWhole_nil
  | cons token rest =>
    rw [variableEntry]
    split
    · exact .reporting fun _ => .done allWhole_nil
    · refine .after ?_
      cases rest with
      | nil => exact .done (by simp [whole_variableNode])
      | cons equals rest =>
        dsimp only
        split
        · refine .after ?_
          cases rest with
          | nil => exact .reporting fun _ => .done (by simp [whole_variableNode])
          | cons value rest =>
            dsimp only
            split
            · exact .after (.done (by simp [whole_variableNode]))
            · exact .reporting fun _ => .done (by simp [whole_variableNode])
        · exact .done (by simp [whole_variableNode])

theorem level_aliasName (cx : Context) (front tokens : List Token) :
    (aliasName cx front tokens).Spells faulty fun nodes _ => AllWhole cx faulty nodes := by
  cases tokens with
  | nil => exact .reporting fun _ => .done allWhole_nil
  | cons token rest =>
    rw [aliasName]
    split
    · exact .after (.done (by simp [whole_variableNode]))
    · exact .reporting fun _ => .done allWhole_nil

theorem level_optionalAlias (cx : Context) (tokens : List Token) :
    (optionalAlias cx tokens).Spells faulty fun nodes _ => AllWhole cx faulty nodes := by
  cases tokens with
  | nil => exact .done allWhole_nil
  | cons token rest =>
    rw [optionalAlias]
    split
    · exact .after (level_aliasName cx [token] rest)
    · exact .done allWhole_nil

theorem level_ownExpression (cx : Context) (directive : Text) (tokens : List Token) :
    (ownExpression cx directive tokens).Spells faulty fun nodes _ =>
      AllWhole cx faulty nodes := by
  refine (level_pipe cx tokens).andThen fun value rest _ whole => ?_
  refine (level_optionalAlias cx rest).map fun names left names_whole => ?_
  exact allWhole_cons.mpr ⟨whole_templateBinding _ (by simp [whole]), names_whole⟩

theorem level_optionalColon (cx : Context) (tokens : List Token) :
    (optionalColon tokens).Spells faulty fun nodes _ => AllWhole cx faulty nodes := by
  cases tokens with
  | nil => exact .done allWhole_nil
  | cons token rest =>
    rw [optionalColon]
    split
    · exact .after (.done (by simp))
    · exact .done allWhole_nil

theorem level_optionalValue (cx : Context) (tokens : List Token) :
    (optionalValue cx tokens).Spells faulty fun nodes _ => AllWhole cx faulty nodes := by
  cases tokens with
  | nil => exact .done allWhole_nil
  | cons token rest =>
    rw [optionalValue]
    split
    · exact .done allWhole_nil
    · exact (level_pipe cx (token :: rest)).map fun value left whole => by simpa using whole

theorem level_keyedExpression (cx : Context) (directive key : Text) (token : Token)
    (tokens : List Token) :
    (keyedExpression cx directive key token tokens).Spells faulty fun nodes _ =>
      AllWhole cx faulty nodes := by
  refine (level_optionalColon cx tokens).andThen fun colon rest _ colon_whole => ?_
  refine (level_optionalValue cx rest).andThen fun value rest₁ _ value_whole => ?_
  refine (level_optionalAlias cx rest₁).map fun names left names_whole => ?_
  exact allWhole_cons.mpr ⟨whole_templateBinding _ (by simp [colon_whole, value_whole]),
    names_whole⟩

theorem level_keyedEntry (cx : Context) (directive key : Text) (token : Token)
    (tokens : List Token) :
    (keyedEntry cx directive key token tokens).Spells faulty fun nodes _ =>
      AllWhole cx faulty nodes := by
  cases tokens with
  | nil => exact level_keyedExpression cx directive key token []
  | cons next rest =>
    rw [keyedEntry]
    split
    · exact .after (level_aliasName cx [token, next] rest)
    · exact level_keyedExpression cx directive key token (next :: rest)

theorem level_entry (cx : Context) (directive : Text) (isFirst : Bool) (token : Token)
    (tokens : List Token) :
    (entry cx directive isFirst token tokens).Spells faulty fun nodes _ =>
      AllWhole cx faulty nodes := by
  unfold entry
  split
  · exact .after (level_variableEntry cx token tokens)
  split
  · exact level_ownExpression cx directive (token :: tokens)
  split
  · exact .after (level_keyedEntry cx directive _ token tokens)
  · exact .reporting fun _ => .after (.done allWhole_nil)

theorem level_entries (cx : Context) (directive : Text) (isFirst : Bool) (tokens : List Token)
    (known : ¬Harmless (entries cx directive isFirst tokens).2 → faulty) :
    AllWhole cx faulty (entries cx directive isFirst tokens).1 := by
  fun_induction entries cx directive isFirst tokens with
  | case1 => exact allWhole_nil
  | case2 isFirst token rest _ more ih => exact allWhole_cons.mpr ⟨whole_leaf token, ih known⟩
  | case3 isFirst token rest _ first more ih₁ ih₂ =>
    have found := level_entry cx directive isFirst token rest fun problems =>
      known fun harmless => problems (harmless_append.mp harmless).1
    have known_more : ¬Harmless more.2 → faulty := fun problems =>
      known fun harmless => problems (harmless_append.mp harmless).2
    refine allWhole_append.mpr ⟨found, ?_⟩
    simp only [more] at known_more ⊢
    split
    · next shorter =>
      rw [dif_pos shorter] at known_more
      exact ih₁ shorter known_more
    · next longer =>
      rw [dif_neg longer] at known_more
      exact ih₂ known_more

end Directive

/-- Trees respect the levels of their operators. If nothing was wrong, they hold
nothing that their mode does not permit. -/
structure Ordered (mode : Mode) (found : List Node × List Diagnostic) : Prop where
  leveled : ∀ node ∈ found.1, Every Leveled node
  permitted : Harmless found.2 → ∀ node ∈ found.1, Every (Permitted mode) node

theorem ordered_of_legitimate (cx : Context) {found : List Node × List Diagnostic}
    (legitimate : ∀ {faulty : Prop}, (¬Harmless found.2 → faulty) →
      ∀ node ∈ found.1, Every (Legitimate cx faulty) node) : Ordered cx.mode found where
  leveled node member := (legitimate (fun _ => trivial) node member).mono fun _ _ here => here.1
  permitted harmless node member :=
    (legitimate (absurd harmless) node member).mono fun _ _ here => here.2.resolve_left id

/-- Expressions of both modes and the values of structural directives, whatever their
text, become trees that respect the levels of the operators. -/
theorem ordered_parse (offset : Nat) (text : Text) :
    (∀ mode, Ordered mode (parse mode offset text)) ∧
      ∀ directive, Ordered .binding (Directive.parse directive offset text) := by
  refine ⟨fun mode => ?_, fun directive => ?_⟩
  · refine ordered_of_legitimate ⟨mode, offset + text.byteLength⟩ fun known => ?_
    exact level_chain _ (tokensAt offset text) fun problems =>
      known fun harmless => problems (harmless_append.mp harmless).1
  · refine ordered_of_legitimate ⟨.binding, offset + text.byteLength⟩ fun known => ?_
    exact fun node member =>
      (Directive.level_entries _ directive true (tokensAt offset text) known node member).legitimate

end Expression

end ComponentExtraction
