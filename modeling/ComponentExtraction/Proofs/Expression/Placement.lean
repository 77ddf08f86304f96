import ComponentExtraction.Expression.Parser
import ComponentExtraction.Proofs.Tree.Placement

/-!
# Parsed expressions lie in their source

The tokens of a text lie one after the other in it (`laid_tokensAt`), and every
step of the parser turns tokens that lie so into trees that do. A step is
described by what it ensures of its value and of the position that it leaves
(`Parsing.Ensures`), and such descriptions are composed as steps are. What one
operand needs is `Operand`: it stands between two positions and is empty only at
the end of the text, where an operand is missing.
-/

namespace ComponentExtraction

namespace Expression

open Node

variable {source text : Text} {cx : Context} {tokens rest : List Token} {token : Token}

/-- Tokens lie one after the other in the text of an expression, each with at
least one byte. -/
structure Laid (source : Text) (cx : Context) (tokens : List Token) : Prop where
  stop : source.Boundary cx.stop
  solid : ∀ token ∈ tokens, token.span.start < token.span.stop ∧ token.span.stop ≤ cx.stop
  boundaries : ∀ token ∈ tokens,
    source.Boundary token.span.start ∧ source.Boundary token.span.stop
  ordered : tokens.Pairwise fun first second => first.span.stop ≤ second.span.start

namespace Laid

theorem suffix (laid : Laid source cx tokens) (h : rest <:+ tokens) : Laid source cx rest :=
  ⟨laid.stop, fun token member => laid.solid token (h.subset member),
    fun token member => laid.boundaries token (h.subset member),
    laid.ordered.sublist h.sublist⟩

theorem tail (laid : Laid source cx (token :: rest)) : Laid source cx rest :=
  laid.suffix (List.suffix_cons _ _)

theorem head_solid (laid : Laid source cx (token :: rest)) :
    token.span.start < token.span.stop ∧ token.span.stop ≤ cx.stop :=
  laid.solid token List.mem_cons_self

theorem boundary_offset (laid : Laid source cx tokens) : source.Boundary (cx.offset tokens) := by
  cases tokens with
  | nil => exact laid.stop
  | cons token rest => exact (laid.boundaries token List.mem_cons_self).1

theorem stop_le_offset (laid : Laid source cx (token :: rest)) :
    token.span.stop ≤ cx.offset rest := by
  cases rest with
  | nil => exact laid.head_solid.2
  | cons next rest => exact (List.pairwise_cons.mp laid.ordered).1 next List.mem_cons_self

theorem offset_le_stop (laid : Laid source cx tokens) : cx.offset tokens ≤ cx.stop := by
  cases tokens with
  | nil => exact Nat.le_refl _
  | cons token rest =>
    have := laid.head_solid
    change token.span.start ≤ cx.stop
    omega

theorem leaf (laid : Laid source cx (token :: rest)) :
    Placed source 3 token.span.start [token.leaf] (cx.offset rest) := by
  obtain ⟨start, stop⟩ := laid.boundaries token List.mem_cons_self
  have solid := laid.head_solid.1
  exact .single (Placed.regular_leaf start stop (Nat.le_of_lt solid)) (Nat.le_refl 3)
    (Nat.le_refl _) laid.stop_le_offset

theorem boundary_problemAt (laid : Laid source cx tokens) (problem : Problem) :
    ∀ d ∈ [cx.problemAt tokens problem], source.Boundary d.span.start := by
  intro d member
  cases List.mem_singleton.mp member
  exact laid.boundary_offset

theorem boundary_problem (laid : Laid source cx (token :: rest)) (problem : Problem) :
    ∀ d ∈ [token.problem problem], source.Boundary d.span.start := by
  intro d member
  cases List.mem_singleton.mp member
  exact (laid.boundaries token List.mem_cons_self).1

end Laid

/-- Reading on from a cursor of a text gives tokens that lie in it, none of them
before the cursor. -/
theorem laid_scanFrom (expression : Text) (mode : Mode) (c : Cursor)
    (reached : (Cursor.start text).Reaches c) :
    Laid text ⟨mode, text.byteLength⟩ (Token.scanFrom expression c) ∧
      ∀ token ∈ Token.scanFrom expression c, c.offset ≤ token.span.start := by
  fun_induction Token.scanFrom expression c with
  | case1 => exact ⟨⟨Text.boundary_byteLength text, by simp, by simp, List.Pairwise.nil⟩, by simp⟩
  | case2 c first rest h here read ih =>
    have spaces := Cursor.reaches_skipWhile Text.isSpace c
    have advances : here.Advances (here.skip (read.2 + 1)) :=
      Cursor.advances_skip (Nat.succ_pos _) (by rw [h]; simp)
    have reached_here := reached.trans spaces
    have reached_next := reached_here.trans advances.1
    obtain ⟨laid, later⟩ := ih reached_next
    refine ⟨⟨laid.stop, ?_, ?_, List.Pairwise.cons later laid.ordered⟩, ?_⟩
    · intro token member
      rcases List.mem_cons.mp member with rfl | member
      · exact ⟨advances.offset_lt, reached_next.boundary.le⟩
      · exact laid.solid token member
    · intro token member
      rcases List.mem_cons.mp member with rfl | member
      · exact ⟨reached_here.boundary, reached_next.boundary⟩
      · exact laid.boundaries token member
    · intro token member
      rcases List.mem_cons.mp member with rfl | member
      · exact spaces.offset_le
      · exact Nat.le_trans (spaces.trans advances.1).offset_le (later token member)

/-- The tokens of a text that stands in a source lie in the source. -/
theorem laid_tokensAt {offset : Nat} (mode : Mode) (stands : text.StandsAt offset source) :
    Laid source ⟨mode, offset + text.byteLength⟩ (tokensAt offset text) := by
  obtain ⟨laid, -⟩ := laid_scanFrom text mode (Cursor.start text) (.refl _)
  refine ⟨stands.stop, ?_, ?_, ?_⟩
  · intro token member
    obtain ⟨original, found, rfl⟩ := List.mem_map.mp member
    obtain ⟨solid, stop⟩ := laid.solid original found
    simp only [Token.shift, Span.shift] at *
    omega
  · intro token member
    obtain ⟨original, found, rfl⟩ := List.mem_map.mp member
    obtain ⟨start, stop⟩ := laid.boundaries original found
    simp only [Token.shift, Span.shift, Nat.add_comm _ offset]
    exact ⟨stands.boundary start, stands.boundary stop⟩
  · refine List.pairwise_map.mpr (laid.ordered.imp ?_)
    intro first second ordered
    exact Nat.add_le_add_right ordered offset

namespace Parsing

variable {α β : Type} {Q : α → Nat → Prop} {R : β → Nat → Prop}

/-- A step ensures something of its value and of the position in front of what it
leaves; the problems it meets are noticed at boundaries. -/
structure Ensures (source : Text) (cx : Context) (Q : α → Nat → Prop)
    (step : Parsing α tokens) : Prop where
  value : Q step.value (cx.offset step.rest)
  diagnostics : ∀ d ∈ step.diagnostics, source.Boundary d.span.start

namespace Ensures

theorem done {value : α} (h : Q value (cx.offset tokens)) :
    (Parsing.done value tokens).Ensures source cx Q :=
  ⟨h, by simp [Parsing.done]⟩

theorem andThen {first : Parsing α tokens}
    {next : (value : α) → (rest : List Token) → rest <:+ tokens → Parsing β rest}
    (h : first.Ensures source cx Q)
    (continues : ∀ value rest (suffix : rest <:+ tokens), Q value (cx.offset rest) →
      (next value rest suffix).Ensures source cx R) :
    (first.andThen next).Ensures source cx R := by
  have second := continues first.value first.rest first.rest_suffix h.value
  refine ⟨second.value, ?_⟩
  intro d member
  rcases List.mem_append.mp member with member | member
  · exact h.diagnostics d member
  · exact second.diagnostics d member

theorem map {step : Parsing α tokens} {f : α → β} (h : step.Ensures source cx Q)
    (implies : ∀ value stop, Q value stop → R (f value) stop) :
    (step.map f).Ensures source cx R :=
  ⟨implies _ _ h.value, h.diagnostics⟩

theorem after {step : Parsing α tokens} (h : step.Ensures source cx Q) :
    (step.after token).Ensures source cx Q :=
  ⟨h.value, h.diagnostics⟩

theorem reporting {step : Parsing α tokens} {diagnostics : List Diagnostic}
    (h : step.Ensures source cx Q) (noticed : ∀ d ∈ diagnostics, source.Boundary d.span.start) :
    (step.reporting diagnostics).Ensures source cx Q := by
  refine ⟨h.value, ?_⟩
  intro d member
  rcases List.mem_append.mp member with member | member
  · exact noticed d member
  · exact h.diagnostics d member

end Ensures

end Parsing

/-- The tree of an operand stands between two positions. It is empty only where
the text ends. -/
structure Operand (source : Text) (cx : Context) (start : Nat) (node : Node) (stop : Nat) :
    Prop where
  placed : Placed source 3 start [node] stop
  solid : node.span.start < cx.stop → node.Solid

namespace Operand

variable {node first : Node} {more : List Node} {a b c : Nat} {kind : Kind}

theorem regular (h : Operand source cx a node b) : Everywhere (Regular source) node :=
  h.placed.regular node (List.mem_singleton.mpr rfl)

theorem ofToken (laid : Laid source cx (token :: rest)) :
    Operand source cx token.span.start token.leaf (cx.offset rest) :=
  ⟨laid.leaf, fun _ => laid.head_solid.1⟩

theorem solid_before (h : Operand source cx a node token.span.start)
    (laid : Laid source cx (token :: rest)) : node.Solid := by
  apply h.solid
  have ordered := h.regular.here.ordered
  have stop : node.span.stop ≤ token.span.start := h.placed.fits.2.2
  have := laid.head_solid
  omega

theorem wrap (inner : kind.layer = 3) (h : Operand source cx a first b) (solid : first.Solid)
    (behind : Placed source 3 b more c) :
    Operand source cx a (Node.enclosing kind first.span.start (first :: more)) c := by
  obtain ⟨start, -, stop⟩ := h.placed.fits
  have front : Placed source 3 first.span.start [first] b :=
    .single h.regular (h.placed.layers first (List.mem_singleton.mpr rfl)) (Nat.le_refl _) stop
  have children := front.cons behind
  have leads : ∀ first' second rest, first :: more = first' :: second :: rest → first'.Solid := by
    intro first' second rest same
    cases same
    exact solid
  have enclosed : Placed source kind.layer first.span.start
      [Node.enclosing kind first.span.start (first :: more)] c :=
    children.enclosing h.regular.here.start (.inr (by omega)) leads
  rw [inner] at enclosed
  refine ⟨enclosed.mono_start start, fun _ => ?_⟩
  have reaches : first.span.stop ≤ Node.endOf first.span.start (first :: more) :=
    children.fits.endOf.1.2.2.le
  exact Nat.lt_of_lt_of_le solid reaches

theorem single (inner : kind.layer = 3) (laid : Laid source cx (token :: rest)) :
    Operand source cx token.span.start (single kind token) (cx.offset rest) :=
  wrap inner (ofToken laid) laid.head_solid.1 (.nil (Nat.le_refl _))

end Operand

open Parsing (Ensures)

theorem ensures_expect (c : Char) (laid : Laid source cx tokens) :
    (expect cx c tokens).Ensures source cx (Placed source 3 (cx.offset tokens)) := by
  cases tokens with
  | nil =>
    exact (Ensures.done (.nil (Nat.le_refl _))).reporting (laid.boundary_problemAt _)
  | cons token rest =>
    rw [expect]
    split
    · exact (Ensures.done laid.leaf).after
    · exact (Ensures.done (.nil (Nat.le_refl _))).reporting (laid.boundary_problemAt _)

theorem ensures_pipeName (laid : Laid source cx tokens) :
    (pipeName cx tokens).Ensures source cx (Placed source 3 (cx.offset tokens)) := by
  cases tokens with
  | nil =>
    exact (Ensures.done (.nil (Nat.le_refl _))).reporting (laid.boundary_problemAt _)
  | cons token rest =>
    rw [pipeName]
    split
    · next name _ =>
      refine (Ensures.done ?_).after
      obtain ⟨start, stop⟩ := laid.boundaries token List.mem_cons_self
      have cut : Placed source 3 token.span.start [token.leaf] token.span.stop :=
        .single (laid.leaf.regular _ (List.mem_singleton.mpr rfl)) (Nat.le_refl 3) (Nat.le_refl _)
          (Nat.le_refl _)
      have regular : Everywhere (Regular source)
          (Node.mk (.pipeReference name) token.span [token.leaf]) :=
        cut.regular_mk start stop (.inr (Nat.le_refl 3)) (by simp)
      exact .single regular (Nat.le_refl 3) (Nat.le_refl _) laid.stop_le_offset
    · exact (Ensures.done (.nil (Nat.le_refl _))).reporting (laid.boundary_problemAt _)

theorem ensures_member {receiver : Node} {dot : Token} {lo : Nat}
    (laid : Laid source cx (dot :: tokens))
    (operand : Operand source cx lo receiver dot.span.start) :
    (member cx receiver dot tokens).Ensures source cx (Operand source cx lo) := by
  have solid := operand.solid_before laid
  have nameless : Operand source cx lo
      (Node.enclosing (.reference []) receiver.span.start [receiver, dot.leaf])
      (cx.offset tokens) :=
    operand.wrap rfl solid laid.leaf
  cases tokens with
  | nil => exact (Ensures.done nameless).reporting (laid.tail.boundary_problemAt _)
  | cons token rest =>
    simp only [member]
    split
    · exact (Ensures.done (operand.wrap rfl solid (laid.leaf.cons laid.tail.leaf))).after
    · exact (Ensures.done nameless).reporting (laid.tail.boundary_problemAt _)

theorem ensures_misplaced (laid : Laid source cx (token :: rest)) :
    (misplaced token rest).Ensures source cx (Operand source cx token.span.start) := by
  unfold misplaced
  split <;> exact (Ensures.done (.ofToken laid)).reporting (laid.boundary_problem _)

theorem boundary_assignmentProblems (target : Node) (laid : Laid source cx tokens) :
    ∀ d ∈ assignmentProblems cx target tokens, source.Boundary d.span.start := by
  unfold assignmentProblems
  split
  · exact laid.boundary_problemAt _
  · simp
  · simp
  · exact laid.boundary_problemAt _

/-- A rule of the grammar calls others on fewer tokens, or on the same tokens and
at a lower level. -/
-- Irreducible, as comparing two ranks by unfolding their products takes long.
@[irreducible] def rank (tokens : List Token) (level : Nat) : Nat :=
  tokens.length * 64 + level

theorem rank_eq (tokens : List Token) (level : Nat) :
    rank tokens level = tokens.length * 64 + level := by
  rw [rank]

mutual

theorem ensures_pipe (cx : Context) (tokens : List Token) (laid : Laid source cx tokens) :
    (pipe cx tokens).Ensures source cx (Operand source cx (cx.offset tokens)) := by
  rw [pipe]
  refine (ensures_assignment cx tokens laid).andThen fun value rest h operand => ?_
  exact ensures_pipeTail cx value rest (laid.suffix h) operand
termination_by rank tokens 40
decreasing_by
  all_goals simp only [rank_eq]
  · omega
  · have := h.length_le
    omega

theorem ensures_pipeTail (cx : Context) (value : Node) (tokens : List Token) {lo : Nat}
    (laid : Laid source cx tokens) (operand : Operand source cx lo value (cx.offset tokens)) :
    (pipeTail cx value tokens).Ensures source cx (Operand source cx lo) := by
  match tokens, laid, operand with
  | [], laid, operand =>
    rw [pipeTail]
    exact .done operand
  | token :: rest, laid, operand =>
    rw [pipeTail]
    split
    · refine .reporting (.after ?_) ?_
      · refine (ensures_pipeName laid.tail).andThen fun name rest₁ h₁ name_placed => ?_
        refine (ensures_pipeArguments cx rest₁ (laid.tail.suffix h₁)).andThen
          fun arguments rest₂ h₂ arguments_placed => ?_
        refine ensures_pipeTail cx _ rest₂ (laid.tail.suffix (h₂.trans h₁)) ?_
        exact operand.wrap rfl (operand.solid_before laid)
          (laid.leaf.append (name_placed.append arguments_placed))
      · split
        · exact laid.boundary_problemAt _
        · simp
    · exact .done operand
termination_by rank tokens 39
decreasing_by
  all_goals simp only [rank_eq]
  · have := h₁.length_le
    simp only [List.length_cons]
    omega
  · have := h₁.length_le
    have := h₂.length_le
    simp only [List.length_cons]
    omega

theorem ensures_pipeArguments (cx : Context) (tokens : List Token)
    (laid : Laid source cx tokens) :
    (pipeArguments cx tokens).Ensures source cx (Placed source 3 (cx.offset tokens)) := by
  rw [pipeArguments]
  refine (ensures_pipeArgumentItems cx tokens laid).map ?_
  rintro items stop ⟨placed, leads⟩
  split
  · exact .nil placed.fits.le
  · have led : ∀ first second rest, items = first :: second :: rest → first.Solid := by
      intro first second rest items_eq
      exact leads first (by rw [items_eq]; rfl)
    have list : Placed source (Kind.layer .pipeArguments) (cx.offset tokens)
        [Node.enclosing .pipeArguments (cx.offset tokens) items] stop :=
      placed.enclosing laid.boundary_offset (.inr (Nat.le_refl 3)) led
    exact list
termination_by rank tokens 38
decreasing_by
  all_goals simp only [rank_eq]
  omega

theorem ensures_pipeArgumentItems (cx : Context) (tokens : List Token)
    (laid : Laid source cx tokens) :
    (pipeArgumentItems cx tokens).Ensures source cx fun items stop =>
      Placed source 3 (cx.offset tokens) items stop ∧ ∀ first ∈ items.head?, first.Solid := by
  match tokens, laid with
  | [], laid =>
    rw [pipeArgumentItems]
    exact .done ⟨.nil (Nat.le_refl _), by simp⟩
  | token :: rest, laid =>
    rw [pipeArgumentItems]
    split
    · refine .after ((ensures_assignment cx rest laid.tail).andThen
        fun argument rest₁ h₁ operand => ?_)
      refine (ensures_pipeArgumentItems cx rest₁ (laid.tail.suffix h₁)).map ?_
      rintro items stop ⟨placed, -⟩
      refine ⟨laid.leaf.cons (operand.placed.cons placed), ?_⟩
      intro first first_eq
      cases first_eq
      exact laid.head_solid.1
    · exact .done ⟨.nil (Nat.le_refl _), by simp⟩
termination_by rank tokens 37
decreasing_by
  all_goals simp only [rank_eq]
  · simp only [List.length_cons]
    omega
  · have := h₁.length_le
    simp only [List.length_cons]
    omega

theorem ensures_assignment (cx : Context) (tokens : List Token) (laid : Laid source cx tokens) :
    (assignment cx tokens).Ensures source cx (Operand source cx (cx.offset tokens)) := by
  rw [assignment]
  refine (ensures_conditional cx tokens laid).andThen fun target rest h operand => ?_
  cases rest with
  | nil => exact .done operand
  | cons token rest₁ =>
    have laid₁ := laid.suffix h
    dsimp only
    split
    · refine .reporting (.after ?_) (boundary_assignmentProblems target laid₁)
      refine (ensures_assignment cx rest₁ laid₁.tail).map ?_
      intro value stop value_operand
      exact operand.wrap rfl (operand.solid_before laid₁) (laid₁.leaf.cons value_operand.placed)
    · exact .done operand
termination_by rank tokens 36
decreasing_by
  all_goals simp only [rank_eq]
  · omega
  · have := h.length_le
    simp only [List.length_cons] at this
    omega

theorem ensures_conditional (cx : Context) (tokens : List Token) (laid : Laid source cx tokens) :
    (conditional cx tokens).Ensures source cx (Operand source cx (cx.offset tokens)) := by
  rw [conditional]
  refine (ensures_binary cx 2 tokens laid).andThen fun condition rest h operand => ?_
  cases rest with
  | nil => exact .done operand
  | cons token rest₁ =>
    have laid₁ := laid.suffix h
    dsimp only
    split
    · refine .after ((ensures_pipe cx rest₁ laid₁.tail).andThen fun yes rest₂ h₂ yes_operand => ?_)
      refine (ensures_expect ':' (laid₁.tail.suffix h₂)).andThen fun colon rest₃ h₃ placed => ?_
      refine (ensures_pipe cx rest₃ (laid₁.tail.suffix (h₃.trans h₂))).map ?_
      intro no stop no_operand
      exact operand.wrap rfl (operand.solid_before laid₁)
        (laid₁.leaf.cons (yes_operand.placed.cons (placed.append no_operand.placed)))
    · exact .done operand
termination_by rank tokens 35
decreasing_by
  all_goals simp only [rank_eq]
  · omega
  · have := h.length_le
    simp only [List.length_cons] at this
    omega
  · have := h₂.length_le
    have := h₃.length_le
    have := h.length_le
    simp only [List.length_cons] at this
    omega

theorem ensures_binary (cx : Context) (level : Nat) (tokens : List Token)
    (laid : Laid source cx tokens) :
    (binary cx level tokens).Ensures source cx (Operand source cx (cx.offset tokens)) := by
  rw [binary]
  split
  · refine (ensures_binary cx (level + 1) tokens laid).andThen fun left rest h operand => ?_
    exact ensures_binaryTail cx level left rest (laid.suffix h) operand
  · exact ensures_exponentiation cx tokens laid
termination_by rank tokens (20 + (12 - level))
decreasing_by
  all_goals simp only [rank_eq]
  · omega
  · omega
  · have := h.length_le
    omega

theorem ensures_binaryTail (cx : Context) (level : Nat) (left : Node) (tokens : List Token)
    {lo : Nat} (laid : Laid source cx tokens)
    (operand : Operand source cx lo left (cx.offset tokens)) :
    (binaryTail cx level left tokens).Ensures source cx (Operand source cx lo) := by
  match tokens, laid, operand with
  | [], laid, operand =>
    rw [binaryTail]
    exact .done operand
  | token :: rest, laid, operand =>
    rw [binaryTail]
    split
    · refine .after ((ensures_binary cx (level + 1) rest laid.tail).andThen
        fun right rest₁ h₁ right_operand => ?_)
      refine ensures_binaryTail cx level _ rest₁ (laid.tail.suffix h₁) ?_
      exact operand.wrap rfl (operand.solid_before laid) (laid.leaf.cons right_operand.placed)
    · exact .done operand
termination_by rank tokens 19
decreasing_by
  all_goals simp only [rank_eq]
  · simp only [List.length_cons]
    omega
  · have := h₁.length_le
    simp only [List.length_cons]
    omega

theorem ensures_exponentiation (cx : Context) (tokens : List Token)
    (laid : Laid source cx tokens) :
    (exponentiation cx tokens).Ensures source cx (Operand source cx (cx.offset tokens)) := by
  rw [exponentiation]
  refine (ensures_prefixed cx tokens laid).andThen fun base rest h operand => ?_
  cases rest with
  | nil => exact .done operand
  | cons token rest₁ =>
    have laid₁ := laid.suffix h
    dsimp only
    split
    · refine .after ((ensures_exponentiation cx rest₁ laid₁.tail).map ?_)
      intro exponent stop exponent_operand
      exact operand.wrap rfl (operand.solid_before laid₁)
        (laid₁.leaf.cons exponent_operand.placed)
    · exact .done operand
termination_by rank tokens 18
decreasing_by
  all_goals simp only [rank_eq]
  · omega
  · have := h.length_le
    simp only [List.length_cons] at this
    omega

theorem ensures_prefixed (cx : Context) (tokens : List Token) (laid : Laid source cx tokens) :
    (prefixed cx tokens).Ensures source cx (Operand source cx (cx.offset tokens)) := by
  match tokens, laid with
  | [], laid =>
    rw [prefixed]
    exact ensures_postfixed cx [] laid
  | token :: rest, laid =>
    rw [prefixed]
    split
    · refine .after ((ensures_prefixed cx rest laid.tail).map ?_)
      intro operand stop placed
      exact (Operand.ofToken laid).wrap rfl laid.head_solid.1 placed.placed
    · exact ensures_postfixed cx (token :: rest) laid
termination_by rank tokens 17
decreasing_by
  all_goals simp only [rank_eq]
  · simp only [List.length_nil]
    omega
  · simp only [List.length_cons]
    omega
  · simp only [List.length_cons]
    omega

theorem ensures_postfixed (cx : Context) (tokens : List Token) (laid : Laid source cx tokens) :
    (postfixed cx tokens).Ensures source cx (Operand source cx (cx.offset tokens)) := by
  rw [postfixed]
  refine (ensures_primary cx tokens laid).andThen fun receiver rest h operand => ?_
  exact ensures_postfixTail cx receiver rest (laid.suffix h) operand
termination_by rank tokens 16
decreasing_by
  all_goals simp only [rank_eq]
  · omega
  · have := h.length_le
    omega

theorem ensures_postfixTail (cx : Context) (receiver : Node) (tokens : List Token) {lo : Nat}
    (laid : Laid source cx tokens) (operand : Operand source cx lo receiver (cx.offset tokens)) :
    (postfixTail cx receiver tokens).Ensures source cx (Operand source cx lo) := by
  match tokens, laid, operand with
  | [], laid, operand =>
    rw [postfixTail]
    exact .done operand
  | token :: rest, laid, operand =>
    have solid := operand.solid_before laid
    rw [postfixTail]
    split
    · refine .after ((ensures_member laid operand).andThen fun node rest₁ h₁ next => ?_)
      exact ensures_postfixTail cx node rest₁ (laid.tail.suffix h₁) next
    split
    · refine .after ((ensures_keyed cx receiver [token.leaf] rest laid.tail operand solid
        laid.leaf).andThen fun node rest₁ h₁ next => ?_)
      exact ensures_postfixTail cx node rest₁ (laid.tail.suffix h₁) next
    split
    · refine .after ((ensures_call cx receiver [] token rest laid operand solid
        (.nil (Nat.le_refl _))).andThen fun node rest₁ h₁ next => ?_)
      exact ensures_postfixTail cx node rest₁ (laid.tail.suffix h₁) next
    split
    · exact .after (ensures_postfixTail cx _ rest laid.tail (operand.wrap rfl solid laid.leaf))
    split
    · refine .after ((ensures_safeAccess cx receiver token rest laid operand).andThen
        fun node rest₁ h₁ next => ?_)
      exact ensures_postfixTail cx node rest₁ (laid.tail.suffix h₁) next
    · exact .done operand
termination_by rank tokens 15
decreasing_by
  all_goals simp only [rank_eq]
  all_goals
    try have := h₁.length_le
    simp only [List.length_cons]
    omega

theorem ensures_safeAccess (cx : Context) (receiver : Node) (mark : Token) (tokens : List Token)
    {lo : Nat} (laid : Laid source cx (mark :: tokens))
    (operand : Operand source cx lo receiver mark.span.start) :
    (safeAccess cx receiver mark tokens).Ensures source cx (Operand source cx lo) := by
  match tokens, laid with
  | [], laid =>
    rw [safeAccess]
    exact ensures_member laid operand
  | opening :: rest, laid =>
    have solid := operand.solid_before laid
    rw [safeAccess]
    split
    · exact .after (ensures_call cx receiver [mark.leaf] opening rest laid.tail operand solid
        laid.leaf)
    split
    · exact .after (ensures_keyed cx receiver [mark.leaf, opening.leaf] rest laid.tail.tail operand
        solid (laid.leaf.cons laid.tail.leaf))
    · exact ensures_member laid operand
termination_by rank tokens 14
decreasing_by
  all_goals simp only [rank_eq]
  all_goals
    simp only [List.length_cons]
    omega

theorem ensures_keyed (cx : Context) (receiver : Node) (marks : List Node) (tokens : List Token)
    {lo mid : Nat} (laid : Laid source cx tokens) (operand : Operand source cx lo receiver mid)
    (solid : receiver.Solid) (placed : Placed source 3 mid marks (cx.offset tokens)) :
    (keyed cx receiver marks tokens).Ensures source cx (Operand source cx lo) := by
  rw [keyed]
  refine (ensures_pipe cx tokens laid).andThen fun key rest h key_operand => ?_
  refine (ensures_expect ']' (laid.suffix h)).map ?_
  intro closing stop closing_placed
  exact operand.wrap rfl solid (placed.append (key_operand.placed.cons closing_placed))
termination_by rank tokens 43
decreasing_by
  all_goals simp only [rank_eq]
  omega

theorem ensures_call (cx : Context) (callee : Node) (marks : List Node) (opening : Token)
    (tokens : List Token) {lo mid : Nat} (laid : Laid source cx (opening :: tokens))
    (operand : Operand source cx lo callee mid) (solid : callee.Solid)
    (placed : Placed source 3 mid marks opening.span.start) :
    (call cx callee marks opening tokens).Ensures source cx (Operand source cx lo) := by
  rw [call]
  refine (ensures_items cx ')' tokens laid.tail).map ?_
  intro arguments stop arguments_placed
  have list : Operand source cx opening.span.start
      (Node.enclosing .argumentList opening.span.start (opening.leaf :: arguments)) stop :=
    (Operand.ofToken laid).wrap rfl laid.head_solid.1 arguments_placed
  exact operand.wrap rfl solid (placed.append list.placed)
termination_by rank tokens 43
decreasing_by
  all_goals simp only [rank_eq]
  omega

theorem ensures_items (cx : Context) (closing : Char) (tokens : List Token)
    (laid : Laid source cx tokens) :
    (items cx closing tokens).Ensures source cx (Placed source 3 (cx.offset tokens)) := by
  match tokens, laid with
  | [], laid =>
    rw [items]
    exact ensures_itemsTail cx closing [] laid
  | token :: rest, laid =>
    rw [items]
    split
    · exact .after (.done laid.leaf)
    · exact ensures_itemsTail cx closing (token :: rest) laid
termination_by rank tokens 42
decreasing_by
  all_goals simp only [rank_eq]
  all_goals
    simp only [List.length_nil, List.length_cons]
    omega

theorem ensures_itemsTail (cx : Context) (closing : Char) (tokens : List Token)
    (laid : Laid source cx tokens) :
    (itemsTail cx closing tokens).Ensures source cx (Placed source 3 (cx.offset tokens)) := by
  rw [itemsTail]
  refine (ensures_pipe cx tokens laid).andThen fun item rest h operand => ?_
  cases rest with
  | nil =>
    refine (ensures_expect closing (laid.suffix h)).map ?_
    intro ending stop placed
    exact operand.placed.cons placed
  | cons token rest₁ =>
    have laid₁ := laid.suffix h
    dsimp only
    split
    · refine .after ((ensures_itemsTail cx closing rest₁ laid₁.tail).map ?_)
      intro more stop placed
      exact operand.placed.cons (laid₁.leaf.cons placed)
    · refine (ensures_expect closing laid₁).map ?_
      intro ending stop placed
      exact operand.placed.cons placed
termination_by rank tokens 41
decreasing_by
  all_goals simp only [rank_eq]
  · omega
  · have := h.length_le
    simp only [List.length_cons] at this
    omega

theorem ensures_primary (cx : Context) (tokens : List Token) (laid : Laid source cx tokens) :
    (primary cx tokens).Ensures source cx (Operand source cx (cx.offset tokens)) := by
  match tokens, laid with
  | [], laid =>
    rw [primary]
    refine .reporting (.done ⟨?_, ?_⟩) (laid.boundary_problemAt _)
    · exact .single (Placed.regular_leaf laid.stop laid.stop (Nat.le_refl _)) (Nat.le_refl 3)
        (Nat.le_refl _) (Nat.le_refl _)
    · intro before
      exact absurd before (Nat.lt_irrefl _)
  | token :: rest, laid =>
    have opens : ∀ {kind : Kind} {more : List Node} {stop : Nat}, kind.layer = 3 →
        Placed source 3 (cx.offset rest) more stop →
        Operand source cx token.span.start
          (Node.enclosing kind token.span.start (token.leaf :: more)) stop := by
      intro kind more stop inner placed
      exact (Operand.ofToken laid).wrap inner laid.head_solid.1 placed
    rw [primary]
    split
    · refine .after ((ensures_pipe cx rest laid.tail).andThen fun inner rest₁ h operand => ?_)
      refine (ensures_expect ')' (laid.tail.suffix h)).map ?_
      intro closing stop placed
      exact opens rfl (operand.placed.cons placed)
    split
    · refine .after ((ensures_items cx ']' rest laid.tail).map ?_)
      intro elements stop placed
      exact opens rfl placed
    split
    · refine .after ((ensures_entries cx rest laid.tail).map ?_)
      intro members stop placed
      exact opens rfl placed
    split
    · exact .after (.done (.single rfl laid))
    split
    · exact .after (.done (.single rfl laid))
    split
    · exact .after (.done (.single rfl laid))
    · exact .after (ensures_misplaced laid)
termination_by rank tokens 13
decreasing_by
  all_goals simp only [rank_eq]
  all_goals
    simp only [List.length_cons]
    omega

theorem ensures_entries (cx : Context) (tokens : List Token) (laid : Laid source cx tokens) :
    (entries cx tokens).Ensures source cx (Placed source 3 (cx.offset tokens)) := by
  match tokens, laid with
  | [], laid =>
    rw [entries]
    exact ensures_expect _ laid
  | token :: rest, laid =>
    rw [entries]
    split
    · exact .after (.done laid.leaf)
    · exact ensures_entriesTail cx (token :: rest) laid
termination_by rank tokens 12
decreasing_by
  all_goals simp only [rank_eq]
  simp only [List.length_cons]
  omega

theorem ensures_entriesTail (cx : Context) (tokens : List Token) (laid : Laid source cx tokens) :
    (entriesTail cx tokens).Ensures source cx (Placed source 3 (cx.offset tokens)) := by
  match tokens, laid with
  | [], laid =>
    rw [entriesTail]
    exact ensures_expect _ laid
  | key :: rest, laid =>
    rw [entriesTail]
    refine .after ((ensures_entry cx key rest laid).andThen fun nodes rest₁ h₁ first => ?_)
    cases rest₁ with
    | nil =>
      refine (ensures_expect _ (laid.tail.suffix h₁)).map ?_
      intro ending stop placed
      exact first.append placed
    | cons token rest₂ =>
      have laid₁ := laid.tail.suffix h₁
      dsimp only
      split
      · refine .after ((ensures_entriesTail cx rest₂ laid₁.tail).map ?_)
        intro more stop placed
        exact first.append (laid₁.leaf.cons placed)
      · refine (ensures_expect _ laid₁).map ?_
        intro ending stop placed
        exact first.append placed
termination_by rank tokens 11
decreasing_by
  all_goals simp only [rank_eq]
  · simp only [List.length_cons]
    omega
  · have := h₁.length_le
    simp only [List.length_cons] at this ⊢
    omega

theorem ensures_entry (cx : Context) (key : Token) (tokens : List Token)
    (laid : Laid source cx (key :: tokens)) :
    (entry cx key tokens).Ensures source cx (Placed source 3 key.span.start) := by
  rw [entry]
  split
  · exact .done (Operand.single rfl laid).placed
  · refine (ensures_expect ':' laid.tail).andThen fun colon rest h placed => ?_
    refine (ensures_pipe cx rest (laid.tail.suffix h)).map ?_
    intro value stop operand
    exact laid.leaf.cons (placed.append operand.placed)
termination_by rank tokens 44
decreasing_by
  all_goals simp only [rank_eq]
  have := h.length_le
  omega

end

theorem ensures_chainTail (cx : Context) (tokens : List Token) (laid : Laid source cx tokens) :
    (chainTail cx tokens).Ensures source cx (Placed source 3 (cx.offset tokens)) := by
  match tokens, laid with
  | [], laid =>
    rw [chainTail]
    exact .done (.nil (Nat.le_refl _))
  | [token], laid =>
    rw [chainTail]
    split
    · exact .after (.done laid.leaf)
    · exact .done (.nil (Nat.le_refl _))
  | token :: next :: rest, laid =>
    rw [chainTail]
    split
    · refine .after ((ensures_pipe cx (next :: rest) laid.tail).andThen
        fun value rest₁ h₁ operand => ?_)
      refine (ensures_chainTail cx rest₁ (laid.tail.suffix h₁)).map ?_
      intro more stop placed
      exact laid.leaf.cons (operand.placed.cons placed)
    · exact .done (.nil (Nat.le_refl _))
termination_by tokens.length
decreasing_by
  have := h₁.length_le
  simp only [List.length_cons] at this ⊢
  omega

theorem ensures_chain (laid : Laid source cx tokens) :
    (chain cx tokens).Ensures source cx fun nodes stop =>
      Placed source 3 (cx.offset tokens) nodes stop ∧ nodes.length ≤ 1 := by
  cases tokens with
  | nil => exact .done ⟨.nil (Nat.le_refl _), Nat.zero_le 1⟩
  | cons token rest =>
    rw [chain]
    refine (ensures_pipe cx (token :: rest) laid).andThen fun first rest₁ h₁ operand => ?_
    cases rest₁ with
    | nil => exact .done ⟨operand.placed, Nat.le_refl 1⟩
    | cons separator rest₂ =>
      have laid₁ := laid.suffix h₁
      dsimp only
      split
      · refine .reporting ((ensures_chainTail cx (separator :: rest₂) laid₁).map ?_) ?_
        · intro more stop placed
          exact ⟨(operand.wrap rfl (operand.solid_before laid₁) placed).placed, Nat.le_refl 1⟩
        · split
          · simp
          · exact laid₁.boundary_problemAt _
      · exact .done ⟨operand.placed, Nat.le_refl 1⟩

/-- Trees were found between two positions, and problems at boundaries. -/
structure Found (source : Text) (layer start stop : Nat) (found : List Node × List Diagnostic) :
    Prop where
  placed : Placed source layer start found.1 stop
  diagnostics : ∀ d ∈ found.2, source.Boundary d.span.start

theorem offset_le_tokensAt (mode : Mode) (offset : Nat) (text : Text) :
    offset ≤ Context.offset ⟨mode, offset + text.byteLength⟩ (tokensAt offset text) := by
  unfold tokensAt
  cases Token.scan text with
  | nil => exact Nat.le_add_right _ _
  | cons token rest => exact Nat.le_add_left _ _

theorem boundary_leftover (laid : Laid source cx tokens) :
    ∀ d ∈ leftover tokens, source.Boundary d.span.start := by
  cases tokens with
  | nil => simp [leftover]
  | cons token rest => exact laid.boundary_problem _

/-- The tree of an expression stands in the expression's text. -/
theorem found_parse {offset : Nat} (mode : Mode) (stands : text.StandsAt offset source) :
    Found source 3 offset (offset + text.byteLength) (parse mode offset text) ∧
      (parse mode offset text).1.length ≤ 1 := by
  have laid := laid_tokensAt mode stands
  obtain ⟨⟨placed, short⟩, diagnostics⟩ := ensures_chain laid
  have laid' := laid.suffix
    (chain ⟨mode, offset + text.byteLength⟩ (tokensAt offset text)).rest_suffix
  refine ⟨⟨placed.mono (offset_le_tokensAt mode offset text) laid'.offset_le_stop, ?_⟩, short⟩
  intro d member
  rcases List.mem_append.mp member with member | member
  · exact diagnostics d member
  · exact boundary_leftover laid' d member

end Expression

end ComponentExtraction
