import ComponentExtraction.Expression.Directive
import ComponentExtraction.Proofs.Expression.Placement
import ComponentExtraction.Proofs.Source.Diagnostic
import ComponentExtraction.Proofs.Tree.Heads

/-!
# How the parser puts trees together

Every tree of the parser is put together from trees that were read one after the
other (`Assembled`). The relation knows of the grammar what other proofs ask for:
which tokens a tree was read from, what stands around the dot of a member and
between a callee and its arguments, and whose name a reference has. It forgets how
operators bind. What holds of all trees, whatever was wrong with their text, then
follows by induction on it, without another walk through the rules of the parser.

A node starts with a token or an operand (`Leading`), never with the arguments of
a call or with the name of a pipe. What the relation says of each node by itself is
`Formed`.
-/

namespace ComponentExtraction

namespace Kind

/-- Kinds of nodes that hold whatever was read one after the other, if it starts with
a token or an operand. -/
def isCompound : Kind → Bool
  | token | reference _ | call | argumentList | pipeReference _ => false
  | _ => true

theorem leads_of_isCompound {kind : Kind} (compound : kind.isCompound = true) :
    kind.leads = true := by
  cases kind <;> first | rfl | cases compound

end Kind

namespace Expression

open Node Diagnostic

variable {cx : Context} {faulty : Prop} {all tokens rest left : List Token}
variable {token dot last : Token} {kind : Kind} {node first : Node} {nodes more : List Node}
variable {name : Text} {start : Nat}

namespace Parsing

variable {α β : Type} {Q : α → List Token → Prop} {R : β → List Token → Prop}

/-- A step ensures something of its value and of what it leaves, when its errors
are known to be errors of the text. -/
def Spells (faulty : Prop) (step : Parsing α tokens) (Q : α → List Token → Prop) : Prop :=
  (¬Harmless step.diagnostics → faulty) → Q step.value step.rest

namespace Spells

theorem done {value : α} (h : Q value tokens) : (Parsing.done value tokens).Spells faulty Q :=
  fun _ => h

theorem andThen {first : Parsing α tokens}
    {next : (value : α) → (rest : List Token) → rest <:+ tokens → Parsing β rest}
    (h : first.Spells faulty Q)
    (continues : ∀ value rest (suffix : rest <:+ tokens), Q value rest →
      (next value rest suffix).Spells faulty R) :
    (first.andThen next).Spells faulty R := by
  intro known
  have split : ∀ {problems : Prop}, (Harmless (first.andThen next).diagnostics → problems) →
      ¬problems → faulty := by
    intro problems implies fails
    exact known fun harmless => fails (implies harmless)
  have found := h (split fun harmless => (harmless_append.mp harmless).1)
  exact continues _ _ _ found (split fun harmless => (harmless_append.mp harmless).2)

theorem map {step : Parsing α tokens} {f : α → β} (h : step.Spells faulty Q)
    (implies : ∀ value rest, Q value rest → R (f value) rest) :
    (step.map f).Spells faulty R :=
  fun known => implies _ _ (h known)

theorem mono {Q' : α → List Token → Prop} {step : Parsing α tokens} (h : step.Spells faulty Q)
    (implies : ∀ value rest, Q value rest → Q' value rest) : step.Spells faulty Q' :=
  fun known => implies _ _ (h known)

theorem after {step : Parsing α tokens} (h : step.Spells faulty Q) :
    (step.after token).Spells faulty Q :=
  h

theorem reporting {step : Parsing α tokens} {diagnostics : List Diagnostic}
    (h : (¬Harmless diagnostics → faulty) → step.Spells faulty Q) :
    (step.reporting diagnostics).Spells faulty Q := by
  intro known
  refine h (fun problems => known fun harmless => ?_) (fun problems => known fun harmless => ?_)
  · exact problems (harmless_append.mp harmless).1
  · exact problems (harmless_append.mp harmless).2

end Spells

end Parsing

def IsAccess (dot : Token) : Prop :=
  dot.isPunctuation '.' = true ∨ dot.isOperator .safeAccess = true

/-- Trees are put together from the tokens between two lists. An operand is missing
at the end of a faulty text only, and so is the name of a member. -/
inductive Assembled (cx : Context) (faulty : Prop) :
    List Token → List Node → List Token → Prop
  | nil (tokens : List Token) : Assembled cx faulty tokens [] tokens
  | cons {tokens rest left : List Token} {node : Node} {nodes : List Node}
      (first : Assembled cx faulty tokens [node] rest)
      (behind : Assembled cx faulty rest nodes left) :
      Assembled cx faulty tokens (node :: nodes) left
  | token (token : Token) (rest : List Token) :
      Assembled cx faulty (token :: rest) [token.leaf] rest
  | missing (fault : faulty) : Assembled cx faulty [] [Node.leaf (Span.point cx.stop)] []
  | identifier {token : Token} {name : Text} (named : token.lexeme.name? = some name)
      (rest : List Token) :
      Assembled cx faulty (token :: rest) [single (.reference name) token] rest
  | pipeName {token : Token} {name : Text} (rest : List Token) :
      Assembled cx faulty (token :: rest)
        [Node.mk (.pipeReference name) token.span [token.leaf]] rest
  | member {tokens rest : List Token} {receiver : Node} {dot last : Token} {name : Text}
      (operand : Assembled cx faulty tokens [receiver] (dot :: last :: rest))
      (leads : receiver.kind.leads = true) (access : IsAccess dot)
      (named : last.lexeme.name? = some name) :
      Assembled cx faulty tokens [Node.enclosing (.reference name) receiver.span.start
        [receiver, dot.leaf, last.leaf]] rest
  | nameless {tokens rest : List Token} {receiver : Node} {dot : Token} (fault : faulty)
      (operand : Assembled cx faulty tokens [receiver] (dot :: rest))
      (leads : receiver.kind.leads = true) :
      Assembled cx faulty tokens [Node.enclosing (.reference []) receiver.span.start
        [receiver, dot.leaf]] rest
  | call {tokens between inside rest : List Token} {callee : Node} {marks arguments : List Node}
      {opening : Token} (operand : Assembled cx faulty tokens [callee] between)
      (leads : callee.kind.leads = true)
      (marked : Assembled cx faulty between marks (opening :: inside))
      (marks_kind : ∀ mark ∈ marks, mark.kind = .token)
      (given : Assembled cx faulty inside arguments rest) :
      Assembled cx faulty tokens [Node.enclosing .call callee.span.start (callee :: marks ++
        [Node.enclosing .argumentList opening.span.start (opening.leaf :: arguments)])] rest
  | compound {tokens rest : List Token} {kind : Kind} {first : Node} {nodes : List Node}
      (compound : kind.isCompound = true) (start : Nat) (leads : first.kind.leads = true)
      (inner : Assembled cx faulty tokens (first :: nodes) rest) :
      Assembled cx faulty tokens [Node.enclosing kind start (first :: nodes)] rest

/-- An operand or a token is read from the tokens between two lists. -/
structure Leading (cx : Context) (faulty : Prop) (tokens : List Token) (node : Node)
    (rest : List Token) : Prop where
  assembled : Assembled cx faulty tokens [node] rest
  leads : node.kind.leads = true

namespace Assembled

theorem exists_between (h : Assembled cx faulty tokens (node :: nodes) left) :
    ∃ rest, Assembled cx faulty tokens [node] rest ∧ Assembled cx faulty rest nodes left := by
  have whole := h
  cases h with
  | cons first behind => exact ⟨_, first, behind⟩
  | _ => exact ⟨_, whole, .nil _⟩

theorem append (h : Assembled cx faulty tokens nodes rest)
    (behind : Assembled cx faulty rest more left) :
    Assembled cx faulty tokens (nodes ++ more) left := by
  induction nodes generalizing tokens with
  | nil =>
    cases h
    exact behind
  | cons node nodes ih =>
    obtain ⟨between, first, later⟩ := h.exists_between
    exact first.cons (ih later)

theorem leaves (front rest : List Token) :
    Assembled cx faulty (front ++ rest) (front.map Token.leaf) rest := by
  induction front with
  | nil => exact .nil rest
  | cons token front ih => exact (Assembled.token token _).cons ih

theorem suffix (h : Assembled cx faulty tokens nodes rest) : rest <:+ tokens := by
  induction h with
  | nil tokens => exact List.suffix_rfl
  | cons _ _ first behind => exact behind.trans first
  | token token rest => exact List.suffix_cons token rest
  | missing => exact List.suffix_rfl
  | identifier _ rest => exact List.suffix_cons _ rest
  | pipeName rest => exact List.suffix_cons _ rest
  | member _ _ _ _ ih =>
    exact ((List.suffix_cons _ _).trans (List.suffix_cons _ _)).trans ih
  | nameless _ _ _ ih => exact (List.suffix_cons _ _).trans ih
  | call _ _ _ _ _ callee marked given =>
    exact given.trans ((List.suffix_cons _ _).trans (marked.trans callee))
  | compound _ _ _ _ ih => exact ih

end Assembled

namespace Leading

theorem ofToken (token : Token) (rest : List Token) :
    Leading cx faulty (token :: rest) token.leaf rest :=
  ⟨.token token rest, rfl⟩

theorem cons (h : Leading cx faulty tokens node rest)
    (behind : Assembled cx faulty rest more left) :
    Assembled cx faulty tokens (node :: more) left :=
  h.assembled.cons behind

theorem wrap (h : Leading cx faulty tokens first rest)
    (behind : Assembled cx faulty rest more left) (compound : kind.isCompound = true := by rfl) :
    Leading cx faulty tokens (Node.enclosing kind start (first :: more)) left :=
  ⟨.compound compound start h.leads (h.cons behind), Kind.leads_of_isCompound compound⟩

theorem single (token : Token) (rest : List Token) (compound : kind.isCompound = true := by rfl) :
    Leading cx faulty (token :: rest) (Expression.single kind token) rest :=
  (ofToken token rest).wrap (.nil rest) compound

theorem identifier (named : token.lexeme.name? = some name) (rest : List Token) :
    Leading cx faulty (token :: rest) (Expression.single (.reference name) token) rest :=
  ⟨.identifier named rest, rfl⟩

end Leading

open Parsing (Spells)

theorem name?_of_shorthand? {key : Token} (h : shorthand? key tokens = some name) :
    key.lexeme.name? = some name := by
  cases tokens with
  | nil => exact absurd h (by simp [shorthand?])
  | cons next rest =>
    simp only [shorthand?] at h
    split at h
    · cases lexeme_eq : key.lexeme <;> simp [lexeme_eq, Lexeme.identifier?] at h
      simp [Lexeme.name?, h]
    · exact absurd h (by simp)

theorem assembles_expect (cx : Context) (c : Char) (tokens : List Token) :
    (expect cx c tokens).Spells faulty (Assembled cx faulty tokens) := by
  cases tokens with
  | nil => exact .reporting fun _ => .done (.nil [])
  | cons token rest =>
    rw [expect]
    split
    · exact .after (.done (.token token rest))
    · exact .reporting fun _ => .done (.nil _)

theorem assembles_pipeName (cx : Context) (tokens : List Token) :
    (pipeName cx tokens).Spells faulty (Assembled cx faulty tokens) := by
  cases tokens with
  | nil => exact .reporting fun _ => .done (.nil [])
  | cons token rest =>
    rw [pipeName]
    split
    · exact .after (.done (.pipeName rest))
    · exact .reporting fun _ => .done (.nil _)

theorem assembles_member {receiver : Node} (operand : Leading cx faulty left receiver (dot :: tokens))
    (access : IsAccess dot) :
    (member cx receiver dot tokens).Spells faulty (Leading cx faulty left) := by
  -- Without a name an error is reported.
  have nameless : ∀ tokens, Leading cx faulty left receiver (dot :: tokens) →
      (¬Diagnostic.Harmless [cx.problemAt tokens .missingMemberName] → faulty) →
      Leading cx faulty left
        (Node.enclosing (.reference []) receiver.span.start [receiver, dot.leaf]) tokens := by
    intro tokens operand known
    have fault := known (by
      simp [Diagnostic.Harmless, Context.problemAt, Diagnostic.severity, Problem.severity])
    exact ⟨.nameless fault operand.assembled operand.leads, rfl⟩
  cases tokens with
  | nil => exact .reporting fun known => .done (nameless [] operand known)
  | cons token rest =>
    simp only [member]
    split
    · next named =>
      exact .after (.done ⟨.member operand.assembled operand.leads access named, rfl⟩)
    · exact .reporting fun known => .done (nameless _ operand known)

theorem assembles_misplaced (token : Token) (rest : List Token) :
    (misplaced token rest).Spells faulty (Leading cx faulty (token :: rest)) := by
  unfold misplaced
  split <;> exact .reporting fun _ => .done (.ofToken token rest)

mutual

theorem assembles_pipe (cx : Context) (tokens : List Token) :
    (pipe cx tokens).Spells faulty (Leading cx faulty tokens) := by
  rw [pipe]
  refine (assembles_assignment cx tokens).andThen fun value rest h operand => ?_
  exact assembles_pipeTail cx value rest operand
termination_by rank tokens 40
decreasing_by
  all_goals simp only [rank_eq]
  · omega
  · have := h.length_le
    omega

theorem assembles_pipeTail (cx : Context) (value : Node) (tokens : List Token) {left : List Token}
    (operand : Leading cx faulty left value tokens) :
    (pipeTail cx value tokens).Spells faulty (Leading cx faulty left) := by
  match tokens, operand with
  | [], operand =>
    rw [pipeTail]
    exact .done operand
  | token :: rest, operand =>
    rw [pipeTail]
    split
    · refine .reporting fun _ => .after ?_
      refine (assembles_pipeName cx rest).andThen fun name rest₁ h₁ name_read => ?_
      refine (assembles_pipeArguments cx rest₁).andThen fun arguments rest₂ h₂ arguments_read => ?_
      refine assembles_pipeTail cx _ rest₂ ?_
      exact operand.wrap ((Assembled.token token rest).append (name_read.append arguments_read))
    · exact .done operand
termination_by rank tokens 39
decreasing_by
  all_goals simp only [rank_eq]
  · have := h₁.length_le
    simp only [List.length_cons]
    omega
  · have := h₁.length_le
    have := h₂.length_le
    simp only [List.length_cons]
    omega

theorem assembles_pipeArguments (cx : Context) (tokens : List Token) :
    (pipeArguments cx tokens).Spells faulty (Assembled cx faulty tokens) := by
  rw [pipeArguments]
  refine (assembles_pipeArgumentItems cx tokens).map ?_
  rintro items rest ⟨items_read, leads⟩
  cases items with
  | nil => exact items_read
  | cons first items =>
    exact .compound rfl (cx.offset tokens) (leads first (Option.mem_some_self first)) items_read
termination_by rank tokens 38
decreasing_by
  all_goals simp only [rank_eq]
  omega

theorem assembles_pipeArgumentItems (cx : Context) (tokens : List Token) :
    (pipeArgumentItems cx tokens).Spells faulty fun items rest =>
      Assembled cx faulty tokens items rest ∧ ∀ first ∈ items.head?, first.kind.leads = true := by
  match tokens with
  | [] =>
    rw [pipeArgumentItems]
    exact .done ⟨.nil [], by simp⟩
  | token :: rest =>
    rw [pipeArgumentItems]
    split
    · refine .after ((assembles_assignment cx rest).andThen fun argument rest₁ h₁ operand => ?_)
      refine (assembles_pipeArgumentItems cx rest₁).map ?_
      rintro items left ⟨items_read, -⟩
      refine ⟨(Assembled.token token rest).cons (operand.cons items_read), ?_⟩
      rintro first ⟨⟩
      rfl
    · exact .done ⟨.nil _, by simp⟩
termination_by rank tokens 37
decreasing_by
  all_goals simp only [rank_eq]
  · simp only [List.length_cons]
    omega
  · have := h₁.length_le
    simp only [List.length_cons]
    omega

theorem assembles_assignment (cx : Context) (tokens : List Token) :
    (assignment cx tokens).Spells faulty (Leading cx faulty tokens) := by
  rw [assignment]
  refine (assembles_conditional cx tokens).andThen fun target rest h operand => ?_
  cases rest with
  | nil => exact .done operand
  | cons token rest₁ =>
    dsimp only
    split
    · refine .reporting fun _ => .after ((assembles_assignment cx rest₁).map ?_)
      intro value left value_read
      exact operand.wrap ((Assembled.token token rest₁).cons value_read.assembled)
    · exact .done operand
termination_by rank tokens 36
decreasing_by
  all_goals simp only [rank_eq]
  · omega
  · have := h.length_le
    simp only [List.length_cons] at this
    omega

theorem assembles_conditional (cx : Context) (tokens : List Token) :
    (conditional cx tokens).Spells faulty (Leading cx faulty tokens) := by
  rw [conditional]
  refine (assembles_binary cx 2 tokens).andThen fun condition rest h operand => ?_
  cases rest with
  | nil => exact .done operand
  | cons token rest₁ =>
    dsimp only
    split
    · refine .after ((assembles_pipe cx rest₁).andThen fun yes rest₂ h₂ yes_read => ?_)
      refine (assembles_expect cx ':' rest₂).andThen fun colon rest₃ h₃ colon_read => ?_
      refine (assembles_pipe cx rest₃).map ?_
      intro no left no_read
      exact operand.wrap ((Assembled.token token rest₁).cons
        (yes_read.cons (colon_read.append no_read.assembled)))
    · exact .done operand
termination_by rank tokens 35
decreasing_by
  all_goals simp only [rank_eq]
  · omega
  · have := h.length_le
    simp only [List.length_cons] at this
    omega
  · have := h₂.length_le
    have := h₃.length_le
    have := h.length_le
    simp only [List.length_cons] at this
    omega

theorem assembles_binary (cx : Context) (level : Nat) (tokens : List Token) :
    (binary cx level tokens).Spells faulty (Leading cx faulty tokens) := by
  rw [binary]
  split
  · refine (assembles_binary cx (level + 1) tokens).andThen fun value rest h operand => ?_
    exact assembles_binaryTail cx level value rest operand
  · exact assembles_exponentiation cx tokens
termination_by rank tokens (20 + (12 - level))
decreasing_by
  all_goals simp only [rank_eq]
  · omega
  · omega
  · have := h.length_le
    omega

theorem assembles_binaryTail (cx : Context) (level : Nat) (value : Node) (tokens : List Token)
    {left : List Token} (operand : Leading cx faulty left value tokens) :
    (binaryTail cx level value tokens).Spells faulty (Leading cx faulty left) := by
  match tokens, operand with
  | [], operand =>
    rw [binaryTail]
    exact .done operand
  | token :: rest, operand =>
    rw [binaryTail]
    split
    · refine .after ((assembles_binary cx (level + 1) rest).andThen
        fun right rest₁ h₁ right_read => ?_)
      refine assembles_binaryTail cx level _ rest₁ ?_
      exact operand.wrap ((Assembled.token token rest).cons right_read.assembled)
    · exact .done operand
termination_by rank tokens 19
decreasing_by
  all_goals simp only [rank_eq]
  · simp only [List.length_cons]
    omega
  · have := h₁.length_le
    simp only [List.length_cons]
    omega

theorem assembles_exponentiation (cx : Context) (tokens : List Token) :
    (exponentiation cx tokens).Spells faulty (Leading cx faulty tokens) := by
  rw [exponentiation]
  refine (assembles_prefixed cx tokens).andThen fun base rest h operand => ?_
  cases rest with
  | nil => exact .done operand
  | cons token rest₁ =>
    dsimp only
    split
    · refine .after ((assembles_exponentiation cx rest₁).map ?_)
      intro exponent left exponent_read
      exact operand.wrap ((Assembled.token token rest₁).cons exponent_read.assembled)
    · exact .done operand
termination_by rank tokens 18
decreasing_by
  all_goals simp only [rank_eq]
  · omega
  · have := h.length_le
    simp only [List.length_cons] at this
    omega

theorem assembles_prefixed (cx : Context) (tokens : List Token) :
    (prefixed cx tokens).Spells faulty (Leading cx faulty tokens) := by
  match tokens with
  | [] =>
    rw [prefixed]
    exact assembles_postfixed cx []
  | token :: rest =>
    rw [prefixed]
    split
    · refine .after ((assembles_prefixed cx rest).map ?_)
      intro value left operand
      exact (Leading.ofToken token rest).wrap operand.assembled
    · exact assembles_postfixed cx (token :: rest)
termination_by rank tokens 17
decreasing_by
  all_goals simp only [rank_eq]
  · simp only [List.length_nil]
    omega
  · simp only [List.length_cons]
    omega
  · simp only [List.length_cons]
    omega

theorem assembles_postfixed (cx : Context) (tokens : List Token) :
    (postfixed cx tokens).Spells faulty (Leading cx faulty tokens) := by
  rw [postfixed]
  refine (assembles_primary cx tokens).andThen fun receiver rest h operand => ?_
  exact assembles_postfixTail cx receiver rest operand
termination_by rank tokens 16
decreasing_by
  all_goals simp only [rank_eq]
  · omega
  · have := h.length_le
    omega

theorem assembles_postfixTail (cx : Context) (receiver : Node) (tokens : List Token)
    {left : List Token} (operand : Leading cx faulty left receiver tokens) :
    (postfixTail cx receiver tokens).Spells faulty (Leading cx faulty left) := by
  match tokens, operand with
  | [], operand =>
    rw [postfixTail]
    exact .done operand
  | token :: rest, operand =>
    rw [postfixTail]
    split
    · next dotted =>
      refine .after ((assembles_member operand (.inl dotted)).andThen fun node rest₁ h₁ next => ?_)
      exact assembles_postfixTail cx node rest₁ next
    split
    · refine .after ((assembles_keyed cx receiver [token.leaf] rest operand
        (.token token rest)).andThen fun node rest₁ h₁ next => ?_)
      exact assembles_postfixTail cx node rest₁ next
    split
    · refine .after ((assembles_call cx receiver [] token rest operand (.nil _) (by simp)).andThen
        fun node rest₁ h₁ next => ?_)
      exact assembles_postfixTail cx node rest₁ next
    split
    · exact .after (assembles_postfixTail cx _ rest (operand.wrap (.token token rest)))
    split
    · next safe =>
      refine .after ((assembles_safeAccess cx receiver token rest operand safe).andThen
        fun node rest₁ h₁ next => ?_)
      exact assembles_postfixTail cx node rest₁ next
    · exact .done operand
termination_by rank tokens 15
decreasing_by
  all_goals simp only [rank_eq]
  all_goals
    try have := h₁.length_le
    simp only [List.length_cons]
    omega

theorem assembles_safeAccess (cx : Context) (receiver : Node) (mark : Token) (tokens : List Token)
    {left : List Token} (operand : Leading cx faulty left receiver (mark :: tokens))
    (safe : mark.isOperator .safeAccess = true) :
    (safeAccess cx receiver mark tokens).Spells faulty (Leading cx faulty left) := by
  match tokens, operand with
  | [], operand =>
    rw [safeAccess]
    exact assembles_member operand (.inr safe)
  | opening :: rest, operand =>
    rw [safeAccess]
    split
    · exact .after (assembles_call cx receiver [mark.leaf] opening rest operand (.token mark _)
        (by simp [Token.leaf, Node.leaf]))
    split
    · exact .after (assembles_keyed cx receiver [mark.leaf, opening.leaf] rest operand
        ((Assembled.token mark _).cons (.token opening rest)))
    · exact assembles_member operand (.inr safe)
termination_by rank tokens 14
decreasing_by
  all_goals simp only [rank_eq]
  all_goals
    simp only [List.length_cons]
    omega

theorem assembles_keyed (cx : Context) (receiver : Node) (marks : List Node) (tokens : List Token)
    {left between : List Token} (operand : Leading cx faulty left receiver between)
    (marks_read : Assembled cx faulty between marks tokens) :
    (keyed cx receiver marks tokens).Spells faulty (Leading cx faulty left) := by
  rw [keyed]
  refine (assembles_pipe cx tokens).andThen fun key rest _ key_read => ?_
  refine (assembles_expect cx ']' rest).map ?_
  intro closing left closing_read
  exact operand.wrap (marks_read.append (key_read.cons closing_read))
termination_by rank tokens 43
decreasing_by
  all_goals simp only [rank_eq]
  omega

theorem assembles_call (cx : Context) (callee : Node) (marks : List Node) (opening : Token)
    (tokens : List Token) {left between : List Token}
    (operand : Leading cx faulty left callee between)
    (marks_read : Assembled cx faulty between marks (opening :: tokens))
    (marks_kind : ∀ mark ∈ marks, mark.kind = .token) :
    (call cx callee marks opening tokens).Spells faulty (Leading cx faulty left) := by
  rw [call]
  refine (assembles_items cx ')' tokens).map ?_
  intro arguments left arguments_read
  exact ⟨.call operand.assembled operand.leads marks_read marks_kind arguments_read, rfl⟩
termination_by rank tokens 43
decreasing_by
  all_goals simp only [rank_eq]
  omega

theorem assembles_items (cx : Context) (closing : Char) (tokens : List Token) :
    (items cx closing tokens).Spells faulty (Assembled cx faulty tokens) := by
  match tokens with
  | [] =>
    rw [items]
    exact assembles_itemsTail cx closing []
  | token :: rest =>
    rw [items]
    split
    · exact .after (.done (.token token rest))
    · exact assembles_itemsTail cx closing (token :: rest)
termination_by rank tokens 42
decreasing_by
  all_goals simp only [rank_eq]
  all_goals
    simp only [List.length_nil, List.length_cons]
    omega

theorem assembles_itemsTail (cx : Context) (closing : Char) (tokens : List Token) :
    (itemsTail cx closing tokens).Spells faulty (Assembled cx faulty tokens) := by
  rw [itemsTail]
  refine (assembles_pipe cx tokens).andThen fun item rest h operand => ?_
  cases rest with
  | nil =>
    refine (assembles_expect cx closing []).map ?_
    intro ending left ending_read
    exact operand.cons ending_read
  | cons token rest₁ =>
    dsimp only
    split
    · refine .after ((assembles_itemsTail cx closing rest₁).map ?_)
      intro more left more_read
      exact operand.cons ((Assembled.token token rest₁).cons more_read)
    · refine (assembles_expect cx closing (token :: rest₁)).map ?_
      intro ending left ending_read
      exact operand.cons ending_read
termination_by rank tokens 41
decreasing_by
  all_goals simp only [rank_eq]
  · omega
  · have := h.length_le
    simp only [List.length_cons] at this
    omega

theorem assembles_primary (cx : Context) (tokens : List Token) :
    (primary cx tokens).Spells faulty (Leading cx faulty tokens) := by
  match tokens with
  | [] =>
    rw [primary]
    refine .reporting fun known => .done ?_
    -- The end of the text is reported, so an empty leaf may stand here.
    have fault := known (by
      simp [Diagnostic.Harmless, Context.problemAt, Diagnostic.severity, Problem.severity])
    exact ⟨.missing fault, rfl⟩
  | token :: rest =>
    have opening : Leading cx faulty (token :: rest) token.leaf rest := .ofToken token rest
    rw [primary]
    split
    · refine .after ((assembles_pipe cx rest).andThen fun inner rest₁ h inner_read => ?_)
      refine (assembles_expect cx ')' rest₁).map ?_
      intro closing left closing_read
      exact opening.wrap (inner_read.cons closing_read)
    split
    · refine .after ((assembles_items cx ']' rest).map ?_)
      intro elements left elements_read
      exact opening.wrap elements_read
    split
    · refine .after ((assembles_entries cx rest).map ?_)
      intro members left members_read
      exact opening.wrap members_read
    split
    · exact .after (.done (.single token rest))
    split
    · exact .after (.done (.single token rest))
    split
    · next named => exact .after (.done (.identifier named rest))
    · exact .after (assembles_misplaced token rest)
termination_by rank tokens 13
decreasing_by
  all_goals simp only [rank_eq]
  all_goals
    simp only [List.length_cons]
    omega

theorem assembles_entries (cx : Context) (tokens : List Token) :
    (entries cx tokens).Spells faulty (Assembled cx faulty tokens) := by
  match tokens with
  | [] =>
    rw [entries]
    exact assembles_expect cx _ []
  | token :: rest =>
    rw [entries]
    split
    · exact .after (.done (.token token rest))
    · exact assembles_entriesTail cx (token :: rest)
termination_by rank tokens 12
decreasing_by
  all_goals simp only [rank_eq]
  simp only [List.length_cons]
  omega

theorem assembles_entriesTail (cx : Context) (tokens : List Token) :
    (entriesTail cx tokens).Spells faulty (Assembled cx faulty tokens) := by
  match tokens with
  | [] =>
    rw [entriesTail]
    exact assembles_expect cx _ []
  | key :: rest =>
    rw [entriesTail]
    refine .after ((assembles_entry cx key rest).andThen fun nodes rest₁ h₁ first => ?_)
    cases rest₁ with
    | nil =>
      refine (assembles_expect cx _ []).map ?_
      intro ending left ending_read
      exact first.append ending_read
    | cons token rest₂ =>
      dsimp only
      split
      · refine .after ((assembles_entriesTail cx rest₂).map ?_)
        intro more left more_read
        exact first.append ((Assembled.token token rest₂).cons more_read)
      · refine (assembles_expect cx _ (token :: rest₂)).map ?_
        intro ending left ending_read
        exact first.append ending_read
termination_by rank tokens 11
decreasing_by
  all_goals simp only [rank_eq]
  · simp only [List.length_cons]
    omega
  · have := h₁.length_le
    simp only [List.length_cons] at this ⊢
    omega

theorem assembles_entry (cx : Context) (key : Token) (tokens : List Token) :
    (entry cx key tokens).Spells faulty (Assembled cx faulty (key :: tokens)) := by
  rw [entry]
  split
  · next found => exact .done (.identifier (name?_of_shorthand? found) tokens)
  · refine (assembles_expect cx ':' tokens).andThen fun colon rest h colon_read => ?_
    refine (assembles_pipe cx rest).map ?_
    intro value left value_read
    exact (Assembled.token key tokens).cons (colon_read.append value_read.assembled)
termination_by rank tokens 44
decreasing_by
  all_goals simp only [rank_eq]
  have := h.length_le
  omega

end

theorem assembles_chainTail (cx : Context) (tokens : List Token) :
    (chainTail cx tokens).Spells faulty (Assembled cx faulty tokens) := by
  match tokens with
  | [] =>
    rw [chainTail]
    exact .done (.nil [])
  | [token] =>
    rw [chainTail]
    split
    · exact .after (.done (.token token []))
    · exact .done (.nil _)
  | token :: next :: rest =>
    rw [chainTail]
    split
    · refine .after ((assembles_pipe cx (next :: rest)).andThen fun value rest₁ h₁ operand => ?_)
      refine (assembles_chainTail cx rest₁).map ?_
      intro more left more_read
      exact (Assembled.token token _).cons (operand.cons more_read)
    · exact .done (.nil _)
termination_by tokens.length
decreasing_by
  have := h₁.length_le
  simp only [List.length_cons] at this ⊢
  omega

/-- An expression has one tree, or none where there is no token. -/
theorem assembles_chain (cx : Context) (tokens : List Token) :
    (chain cx tokens).Spells faulty fun nodes rest => Assembled cx faulty tokens nodes rest ∧
      ∀ node ∈ nodes, Leading cx faulty tokens node rest := by
  have found : ∀ {node rest}, Leading cx faulty tokens node rest →
      Assembled cx faulty tokens [node] rest ∧
        ∀ node' ∈ [node], Leading cx faulty tokens node' rest := fun operand =>
    ⟨operand.assembled, List.forall_mem_singleton.mpr operand⟩
  cases tokens with
  | nil => exact .done ⟨.nil [], by simp⟩
  | cons token rest =>
    rw [chain]
    refine (assembles_pipe cx (token :: rest)).andThen fun first rest₁ h₁ operand => ?_
    cases rest₁ with
    | nil => exact .done (found operand)
    | cons separator rest₂ =>
      dsimp only
      split
      · refine .reporting fun _ => (assembles_chainTail cx (separator :: rest₂)).map ?_
        intro more left more_read
        exact found (operand.wrap more_read)
      · exact .done (found operand)

/-- Every tree is put together from some of the tokens. -/
def Scattered (cx : Context) (all : List Token) (nodes : List Node) : Prop :=
  ∀ node ∈ nodes, ∃ tokens rest, tokens <:+ all ∧ Leading cx True tokens node rest

@[simp] theorem scattered_nil : Scattered cx all [] := by
  simp [Scattered]

@[simp] theorem scattered_cons :
    Scattered cx all (node :: nodes) ↔
      (∃ tokens rest, tokens <:+ all ∧ Leading cx True tokens node rest) ∧
        Scattered cx all nodes :=
  List.forall_mem_cons

@[simp] theorem scattered_append :
    Scattered cx all (nodes ++ more) ↔ Scattered cx all nodes ∧ Scattered cx all more :=
  List.forall_mem_append

namespace Directive

theorem leading_variableNode (name : Text) (token : Token) (front rest : List Token) :
    Leading cx faulty (token :: front ++ rest) (variableNode name (token :: front)) rest :=
  (Leading.ofToken token _).wrap (.leaves front rest)
    (rfl : (Kind.templateVariable name).isCompound = true)

theorem assembles_variableEntry (cx : Context) (keyword : Token) (tokens : List Token)
    (within : keyword :: tokens <:+ all) :
    (variableEntry cx keyword tokens).Spells True fun nodes _ => Scattered cx all nodes := by
  have declared : ∀ name front rest, tokens = front ++ rest →
      Scattered cx all [variableNode name (keyword :: front)] := by
    rintro name front rest rfl
    exact scattered_cons.mpr
      ⟨⟨_, rest, within, leading_variableNode name keyword front rest⟩, scattered_nil⟩
  unfold variableEntry
  split
  · exact .reporting fun _ => .done scattered_nil
  · next token rest =>
    split
    · exact .reporting fun _ => .done scattered_nil
    · refine .after ?_
      split
      · exact .done (declared _ [token] [] rfl)
      · next equals rest₁ =>
        split
        · refine .after ?_
          split
          · exact .reporting fun _ => .done (declared _ [token, equals] [] rfl)
          · next value rest₂ =>
            split
            · exact .after (.done (declared _ [token, equals, value] rest₂ rfl))
            · exact .reporting fun _ => .done (declared _ [token, equals] _ rfl)
        · exact .done (declared _ [token] _ rfl)

theorem assembles_aliasName (cx : Context) (opening : Token) (front tokens : List Token)
    (within : opening :: front ++ tokens <:+ all) :
    (aliasName cx (opening :: front) tokens).Spells True fun nodes _ =>
      Scattered cx all nodes := by
  unfold aliasName
  split
  · exact .reporting fun _ => .done scattered_nil
  · next token rest =>
    split
    · next name _ =>
      have declared : Leading cx True _ _ rest :=
        leading_variableNode name opening (front ++ [token]) rest
      rw [List.cons_append, List.append_assoc] at declared
      exact .after (.done (scattered_cons.mpr ⟨⟨_, rest, within, declared⟩, scattered_nil⟩))
    · exact .reporting fun _ => .done scattered_nil

theorem assembles_optionalAlias (cx : Context) (tokens : List Token) (within : tokens <:+ all) :
    (optionalAlias cx tokens).Spells True fun nodes _ => Scattered cx all nodes := by
  unfold optionalAlias
  split
  · exact .done scattered_nil
  · split
    · exact .after (assembles_aliasName cx _ [] _ within)
    · exact .done scattered_nil

theorem assembles_ownExpression (cx : Context) (directive : Text) (tokens : List Token)
    (within : tokens <:+ all) :
    (ownExpression cx directive tokens).Spells True fun nodes _ => Scattered cx all nodes := by
  unfold ownExpression
  refine (assembles_pipe cx tokens).andThen fun value rest suffix operand => ?_
  refine (assembles_optionalAlias cx rest (suffix.trans within)).map fun names _ found => ?_
  exact scattered_cons.mpr ⟨⟨tokens, rest, within,
    operand.wrap (.nil rest) (rfl : (Kind.templateBinding directive).isCompound = true)⟩, found⟩

theorem assembles_optionalColon (cx : Context) (tokens : List Token) :
    (optionalColon tokens).Spells True (Assembled cx True tokens) := by
  unfold optionalColon
  split
  · exact .done (.nil [])
  · split
    · exact .after (.done (.token _ _))
    · exact .done (.nil _)

theorem assembles_optionalValue (cx : Context) (tokens : List Token) :
    (optionalValue cx tokens).Spells True (Assembled cx True tokens) := by
  unfold optionalValue
  split
  · exact .done (.nil [])
  · split
    · exact .done (.nil _)
    · exact (assembles_pipe cx _).map fun value rest operand => operand.assembled

theorem assembles_keyedExpression (cx : Context) (directive key : Text) (token : Token)
    (tokens : List Token) (within : token :: tokens <:+ all) :
    (keyedExpression cx directive key token tokens).Spells True fun nodes _ =>
      Scattered cx all nodes := by
  unfold keyedExpression
  refine (assembles_optionalColon cx tokens).andThen fun colon rest suffix colon_read => ?_
  refine (assembles_optionalValue cx rest).andThen fun value rest₁ suffix₁ value_read => ?_
  have within' : tokens <:+ all := (List.suffix_cons token tokens).trans within
  refine (assembles_optionalAlias cx rest₁ ((suffix₁.trans suffix).trans within')).map
    fun names _ found => ?_
  exact scattered_cons.mpr ⟨⟨_, rest₁, within, (Leading.ofToken token tokens).wrap
    (colon_read.append value_read)
    (rfl : (Kind.templateBinding (directive ++ Text.capitalize key)).isCompound = true)⟩, found⟩

theorem assembles_keyedEntry (cx : Context) (directive key : Text) (token : Token)
    (tokens : List Token) (within : token :: tokens <:+ all) :
    (keyedEntry cx directive key token tokens).Spells True fun nodes _ =>
      Scattered cx all nodes := by
  unfold keyedEntry
  split
  · exact assembles_keyedExpression cx directive key token [] within
  · next next rest =>
    split
    · exact .after (assembles_aliasName cx token [next] rest within)
    · exact assembles_keyedExpression cx directive key token (next :: rest) within

theorem assembles_entry (cx : Context) (directive : Text) (isFirst : Bool) (token : Token)
    (tokens : List Token) (within : token :: tokens <:+ all) :
    (entry cx directive isFirst token tokens).Spells True fun nodes _ =>
      Scattered cx all nodes := by
  unfold entry
  split
  · exact .after (assembles_variableEntry cx token tokens within)
  split
  · exact assembles_ownExpression cx directive (token :: tokens) within
  split
  · exact .after (assembles_keyedEntry cx directive _ token tokens within)
  · exact .reporting fun _ => .after (.done scattered_nil)

theorem scattered_entries (cx : Context) (directive : Text) (isFirst : Bool) (tokens : List Token)
    (within : tokens <:+ all) : Scattered cx all (entries cx directive isFirst tokens).1 := by
  fun_induction entries cx directive isFirst tokens with
  | case1 => exact scattered_nil
  | case2 isFirst token rest _ more ih =>
    have later : rest <:+ all := (List.suffix_cons token rest).trans within
    exact scattered_cons.mpr ⟨⟨_, rest, within, .ofToken token rest⟩, ih later⟩
  | case3 isFirst token rest _ first more ih₁ ih₂ =>
    have later : rest <:+ all := (List.suffix_cons token rest).trans within
    have found := assembles_entry cx directive isFirst token rest within fun _ => trivial
    refine scattered_append.mpr ⟨found, ?_⟩
    simp only [more]
    split
    · next shorter => exact ih₁ shorter (first.rest_suffix.trans within)
    · exact ih₂ later

end Directive

/-- How a node is put together from some of the tokens. A name behind a dot is the
token behind it, and the receiver reaches as far as the token before the dot. -/
inductive Formed (all : List Token) : Node → Prop
  | leaf (span : Span) : Formed all (Node.leaf span)
  | identifier {token : Token} {name : Text} (within : token ∈ all)
      (named : token.lexeme.name? = some name) : Formed all (single (.reference name) token)
  | pipeName (name : Text) (token : Token) :
      Formed all (Node.mk (.pipeReference name) token.span [token.leaf])
  | member {before dot last : Token} {receiver : Node} {name : Text}
      (within : [before, dot, last] <:+: all) (reaches : before.span.stop ≤ receiver.span.stop)
      (leads : receiver.kind.leads = true) (access : IsAccess dot)
      (named : last.lexeme.name? = some name) :
      Formed all (Node.enclosing (.reference name) receiver.span.start
        [receiver, dot.leaf, last.leaf])
  | nameless {receiver : Node} (leads : receiver.kind.leads = true) (dot : Token) :
      Formed all (Node.enclosing (.reference []) receiver.span.start [receiver, dot.leaf])
  | call {callee list : Node} {marks : List Node} (leads : callee.kind.leads = true)
      (marks_kind : ∀ mark ∈ marks, mark.kind = .token) (arguments : list.kind = .argumentList) :
      Formed all (Node.enclosing .call callee.span.start (callee :: marks ++ [list]))
  | arguments (opening : Token) (nodes : List Node) :
      Formed all (Node.enclosing .argumentList opening.span.start (opening.leaf :: nodes))
  | compound {kind : Kind} {first : Node} (compound : kind.isCompound = true) (start : Nat)
      (leads : first.kind.leads = true) (nodes : List Node) :
      Formed all (Node.enclosing kind start (first :: nodes))

def Reaches (tokens : List Token) (nodes : List Node) (rest : List Token) : Prop :=
  ∀ final ∈ nodes.getLast?, ∃ front before,
    tokens = front ++ before :: rest ∧ before.span.stop ≤ final.span.stop

namespace Reaches

theorem nil : Reaches tokens [] rest := by
  simp [Reaches]

theorem single {before : Token} {node : Node} (stop : before.span.stop ≤ node.span.stop) :
    Reaches (before :: rest) [node] rest := by
  rintro final ⟨⟩
  exact ⟨[], before, rfl, stop⟩

theorem leaf (token : Token) (rest : List Token) : Reaches (token :: rest) [token.leaf] rest :=
  single (Nat.le_refl token.span.stop)

theorem of_suffix (h : Reaches left nodes rest) (later : left <:+ tokens) :
    Reaches tokens nodes rest := by
  intro final final_eq
  obtain ⟨front, before, rfl, stop⟩ := h final final_eq
  obtain ⟨front', rfl⟩ := later
  exact ⟨front' ++ front, before, (List.append_assoc _ _ _).symm, stop⟩

theorem append (nodes : List Node) (h : Reaches left more rest) (inner : more ≠ [])
    (later : left <:+ tokens) : Reaches tokens (nodes ++ more) rest := by
  intro final final_eq
  obtain ⟨last, last_eq⟩ : ∃ last, more.getLast? = some last :=
    Option.isSome_iff_exists.mp (by simpa using inner)
  rw [List.getLast?_append, last_eq, Option.some_or, ← last_eq] at final_eq
  exact h.of_suffix later final final_eq

theorem cons (first : Reaches tokens [node] rest) (suffix : rest <:+ tokens)
    (behind : Assembled cx faulty rest nodes left) (later : Reaches rest nodes left) :
    Reaches tokens (node :: nodes) left := by
  cases nodes with
  | nil =>
    cases behind
    exact first
  | cons second nodes => exact later.append [node] (List.cons_ne_nil _ _) suffix

theorem enclosing (h : Reaches tokens (first :: nodes) rest) :
    Reaches tokens [Node.enclosing kind start (first :: nodes)] rest := by
  rintro final ⟨⟩
  obtain ⟨inner, inner_eq⟩ : ∃ inner, (first :: nodes).getLast? = some inner :=
    Option.isSome_iff_exists.mp (by simp)
  obtain ⟨front, before, tokens_eq, stop⟩ := h inner inner_eq
  refine ⟨front, before, tokens_eq, Nat.le_trans stop ?_⟩
  simp only [Node.enclosing, Node.endOf, inner_eq]
  exact Nat.le_max_right _ _

end Reaches

namespace Assembled

theorem reaches (h : Assembled cx faulty tokens nodes rest) (goes : rest ≠ []) :
    Reaches tokens nodes rest := by
  induction h with
  | nil => exact .nil
  | cons first behind node nodes =>
    refine Reaches.cons (node ?_) first.suffix behind (nodes goes)
    rintro rfl
    exact goes (List.suffix_nil.mp behind.suffix)
  | token token rest => exact .leaf token rest
  | missing => exact absurd rfl goes
  | identifier => exact Reaches.enclosing (.leaf _ _)
  | pipeName => exact .single (Nat.le_refl _)
  | member operand =>
    have last := (List.suffix_cons _ _).trans operand.suffix
    exact Reaches.enclosing ((Reaches.leaf _ _).append [_, _] (by simp) last)
  | nameless fault operand =>
    exact Reaches.enclosing ((Reaches.leaf _ _).append [_] (by simp) operand.suffix)
  | @call _ _ inside _ _ _ _ opening operand _ marked _ given _ _ arguments =>
    have list := (Reaches.leaf opening inside).cons (List.suffix_cons _ _) given (arguments goes)
    exact Reaches.enclosing (list.enclosing.append (_ :: _) (by simp)
      (marked.suffix.trans operand.suffix))
  | compound compound start leads inner reaches => exact (reaches goes).enclosing

theorem formed (h : Assembled cx faulty tokens nodes rest) (within : tokens <:+ all) :
    ∀ node ∈ nodes, Everywhere (Formed all) node := by
  have leaves : ∀ token : Token, Everywhere (Formed all) token.leaf := fun token =>
    .intro (.leaf token.span) (by simp [Token.leaf, Node.leaf])
  induction h with
  | nil => simp
  | cons first _ node nodes =>
    exact List.forall_mem_append.mpr ⟨node within, nodes (first.suffix.trans within)⟩
  | token token rest => exact List.forall_mem_singleton.mpr (leaves token)
  | missing =>
    exact List.forall_mem_singleton.mpr (.intro (.leaf _) (by simp [Node.leaf]))
  | @identifier token name named rest =>
    refine List.forall_mem_singleton.mpr (.intro (.identifier ?_ named) ?_)
    · exact within.subset List.mem_cons_self
    · exact List.forall_mem_singleton.mpr (leaves token)
  | @pipeName token name rest =>
    exact List.forall_mem_singleton.mpr
      (.intro (.pipeName name token) (List.forall_mem_singleton.mpr (leaves token)))
  | @member tokens rest receiver dot last name operand leads access named ih =>
    obtain ⟨front, before, tokens_eq, reaches⟩ := operand.reaches (by simp) receiver rfl
    have adjacent : [before, dot, last] <:+: tokens := ⟨front, rest, by simp [tokens_eq]⟩
    refine List.forall_mem_singleton.mpr (.intro
      (.member (adjacent.trans within.isInfix) reaches leads access named) ?_)
    exact List.forall_mem_cons.mpr ⟨ih within receiver (List.mem_singleton_self _),
      List.forall_mem_cons.mpr ⟨leaves dot, List.forall_mem_singleton.mpr (leaves last)⟩⟩
  | @nameless tokens rest receiver dot fault operand leads ih =>
    refine List.forall_mem_singleton.mpr (.intro (.nameless leads dot) ?_)
    exact List.forall_mem_cons.mpr ⟨ih within receiver (List.mem_singleton_self _),
      List.forall_mem_singleton.mpr (leaves dot)⟩
  | @call tokens between inside rest callee marks arguments opening operand leads marked marks_kind
      given ih marks_ih arguments_ih =>
    have within' := operand.suffix.trans within
    have list : Everywhere (Formed all) (Node.enclosing .argumentList opening.span.start
        (opening.leaf :: arguments)) :=
      .intro (.arguments opening arguments) (List.forall_mem_cons.mpr ⟨leaves opening,
        arguments_ih ((List.suffix_cons _ _).trans (marked.suffix.trans within'))⟩)
    refine List.forall_mem_singleton.mpr (.intro (.call leads marks_kind rfl) ?_)
    exact List.forall_mem_append.mpr ⟨List.forall_mem_cons.mpr
      ⟨ih within callee (List.mem_singleton_self _), marks_ih within'⟩,
      List.forall_mem_singleton.mpr list⟩
  | compound compound start leads inner ih =>
    exact List.forall_mem_singleton.mpr (.intro (.compound compound start leads _) (ih within))

end Assembled

/-- Every tree of an expression is put together from its tokens, whatever its text. -/
theorem formed_parse (mode : Mode) (offset : Nat) (text : Text) :
    ∀ node ∈ (parse mode offset text).1,
      node.kind.leads = true ∧ Everywhere (Formed (tokensAt offset text)) node := by
  intro node member
  obtain ⟨-, leading⟩ := assembles_chain ⟨mode, offset + text.byteLength⟩
    (tokensAt offset text) (fun _ => trivial : _ → True)
  have operand := leading node member
  exact ⟨operand.leads, operand.assembled.formed List.suffix_rfl node (List.mem_singleton_self _)⟩

/-- The same holds of the value of a structural directive. -/
theorem Directive.formed_parse (directive : Text) (offset : Nat) (text : Text) :
    ∀ node ∈ (parse directive offset text).1,
      node.kind.leads = true ∧ Everywhere (Formed (tokensAt offset text)) node := by
  intro node member
  obtain ⟨tokens, rest, within, operand⟩ := scattered_entries
    ⟨.binding, offset + text.byteLength⟩ directive true (tokensAt offset text) List.suffix_rfl
    node member
  exact ⟨operand.leads, operand.assembled.formed within node (List.mem_singleton_self _)⟩

end Expression

end ComponentExtraction
