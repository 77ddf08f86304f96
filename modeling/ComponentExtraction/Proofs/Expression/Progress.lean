import ComponentExtraction.Proofs.Expression.Replay

/-!
# Loops over tokens end

A loop is given by its body, which either wants another turn or is done (`Loop.Stops`).
When every turn leaves less to read, the loop ends after hardly more turns than there was
to read, with whatever its turns agree on (`Loop.Stops.of_turns`). Every loop of the
parser is of this kind, on well-formed and on malformed input alike (`Loops`): a turn that
wants another one has read a token. So has every expression in front of which a token is
left (`suffix_pipe`), so that a directive never has to pass over a token of its own accord
(`Directive.suffix_entry`).
-/

namespace ComponentExtraction

namespace Loop

variable {σ : Type} {body : σ → ForInStep σ}

/-- A loop is run from a state for a number of turns, the last of which
is done. That there is such a number says that the loop ends. -/
inductive Stops (body : σ → ForInStep σ) : σ → Nat → σ → Prop
  | done {s t : σ} (ended : body s = .done t) : Stops body s 1 t
  | yield {s t u : σ} {turns : Nat} (again : body s = .yield t) (more : Stops body t turns u) :
      Stops body s (turns + 1) u

/-- What one turn from a state does: it leads to a next state with the same outcome, or it
gives the outcome. -/
inductive Turn (Next : σ → σ → Prop) (outcome : σ → σ) (s : σ) : ForInStep σ → Prop
  | again {t : σ} (next : Next s t) (same : outcome s = outcome t) : Turn Next outcome s (.yield t)
  | ended {t : σ} (same : outcome s = t) : Turn Next outcome s (.done t)

variable {Next : σ → σ → Prop} {outcome : σ → σ}

theorem Turn.next {s t : σ} (h : Turn Next outcome s (.yield t)) : Next s t := by
  cases h with
  | again next _ => exact next

/-- A loop whose turns make something smaller ends with the outcome of its turns. -/
theorem Stops.of_turns (size : σ → Nat) (shrinks : ∀ s t, Next s t → size t < size s)
    (turns : ∀ s, Turn Next outcome s (body s)) (s : σ) :
    ∃ n ≤ size s + 1, Stops body s n (outcome s) := by
  have turn := turns s
  generalize step_eq : body s = step at turn
  cases turn with
  | ended same => exact ⟨1, Nat.succ_le_succ (Nat.zero_le _), .done (same ▸ step_eq)⟩
  | @again t next same =>
    have smaller := shrinks s t next
    obtain ⟨n, few, stops⟩ := of_turns size shrinks turns t
    rw [same]
    exact ⟨n + 1, by omega, .yield step_eq stops⟩
termination_by size s

end Loop

namespace Expression

variable {α β : Type} {tokens rest : List Token}

theorem takes_cons {token : Token} (suffix : rest <:+ tokens) : Takes (token :: tokens) rest :=
  ⟨token, tokens, rfl, suffix⟩

theorem takes_of_suffix {token : Token} (suffix : token :: rest <:+ tokens) : Takes tokens rest := by
  obtain ⟨front, rfl⟩ := suffix
  cases front with
  | nil => exact takes_cons List.suffix_rfl
  | cons first front =>
    exact takes_cons ((List.suffix_cons token rest).trans (List.suffix_append front _))

theorem Parsing.rest_after_suffix (step : Parsing α tokens) (token : Token) :
    (step.after token).rest <:+ tokens :=
  step.rest_suffix

theorem Parsing.rest_andThen_suffix (first : Parsing α tokens)
    (next : (value : α) → (rest : List Token) → rest <:+ tokens → Parsing β rest) :
    (first.andThen next).rest <:+ first.rest :=
  (next first.value first.rest first.rest_suffix).rest_suffix

section

variable (cx : Context) (token : Token) (rest : List Token)

theorem suffix_primary : (primary cx (token :: rest)).rest <:+ rest := by
  rw [primary_cons]
  exact Parsing.rest_after_suffix _ token

theorem suffix_postfixed : (postfixed cx (token :: rest)).rest <:+ rest := by
  rw [postfixed]
  exact (Parsing.rest_andThen_suffix _ _).trans (suffix_primary cx token rest)

theorem suffix_prefixed : (prefixed cx (token :: rest)).rest <:+ rest := by
  rw [prefixed]
  split
  · exact (prefixed cx rest).rest_suffix
  · exact suffix_postfixed cx token rest

theorem suffix_exponentiation : (exponentiation cx (token :: rest)).rest <:+ rest := by
  rw [exponentiation]
  exact (Parsing.rest_andThen_suffix _ _).trans (suffix_prefixed cx token rest)

theorem suffix_binary (level : Nat) : (binary cx level (token :: rest)).rest <:+ rest := by
  rw [binary]
  split
  · exact (Parsing.rest_andThen_suffix _ _).trans (suffix_binary (level + 1))
  · exact suffix_exponentiation cx token rest
termination_by 9 - level

theorem suffix_conditional : (conditional cx (token :: rest)).rest <:+ rest := by
  rw [conditional]
  exact (Parsing.rest_andThen_suffix _ _).trans (suffix_binary cx token rest 2)

theorem suffix_assignment : (assignment cx (token :: rest)).rest <:+ rest := by
  rw [assignment]
  exact (Parsing.rest_andThen_suffix _ _).trans (suffix_conditional cx token rest)

theorem suffix_pipe : (pipe cx (token :: rest)).rest <:+ rest := by
  rw [pipe]
  exact (Parsing.rest_andThen_suffix _ _).trans (suffix_assignment cx token rest)

end

/-- A loop of the parser with what was found so far and the tokens left: another turn
reads at least one token, and the loop ends with what a rule of the grammar gives. -/
structure Loops (body : α × List Token → ForInStep (α × List Token))
    (rule : α → (tokens : List Token) → Parsing α tokens) : Prop where
  consumes : ∀ s t, body s = .yield t → Takes s.2 t.2
  stops : ∀ value tokens, ∃ turns ≤ tokens.length + 1, Loop.Stops body (value, tokens) turns
    ((rule value tokens).value, (rule value tokens).rest)

theorem Loops.of_turns {body : α × List Token → ForInStep (α × List Token)}
    {rule : α → (tokens : List Token) → Parsing α tokens}
    (turns : ∀ value tokens, Loop.Turn (fun s t => Takes s.2 t.2)
      (fun s => ((rule s.1 s.2).value, (rule s.1 s.2).rest)) (value, tokens) (body (value, tokens))) :
    Loops body rule := by
  refine ⟨fun s t again => ?_, fun value tokens => ?_⟩
  · have turn := turns s.1 s.2
    rw [again] at turn
    exact turn.next
  · exact Loop.Stops.of_turns (fun s => s.2.length) (fun s t next => next.length_lt)
      (fun s => turns s.1 s.2) (value, tokens)

variable (cx : Context)

def chainTurn : List Node × List Token → ForInStep (List Node × List Token)
  | (nodes, []) => .done (nodes, [])
  | (nodes, [token]) =>
    if token.isPunctuation ';' then .done (nodes ++ [token.leaf], []) else .done (nodes, [token])
  | (nodes, token :: next :: rest) =>
    if token.isPunctuation ';' then
      let value := pipe cx (next :: rest)
      .yield (nodes ++ [token.leaf, value.value], value.rest)
    else .done (nodes, token :: next :: rest)

theorem loops_chainTail :
    Loops (chainTurn cx) fun nodes tokens => (chainTail cx tokens).map (nodes ++ ·) := by
  refine .of_turns fun nodes tokens => ?_
  match tokens with
  | [] =>
    refine .ended ?_
    simp [chainTail, Parsing.map, Parsing.done]
  | [token] =>
    rw [chainTurn]
    split
    · next more =>
      refine .ended ?_
      simp [chainTail, more, Parsing.map, Parsing.after, Parsing.done]
    · next last =>
      refine .ended ?_
      simp [chainTail, last, Parsing.map, Parsing.done]
  | token :: next :: rest =>
    rw [chainTurn]
    split
    · next more =>
      refine .again (takes_cons (pipe cx (next :: rest)).rest_suffix) ?_
      simp [chainTail, more, Parsing.map, Parsing.after, Parsing.andThen]
    · next last =>
      refine .ended ?_
      simp [chainTail, last, Parsing.map, Parsing.done]

def pipeTurn : Node × List Token → ForInStep (Node × List Token)
  | (value, []) => .done (value, [])
  | (value, token :: rest) =>
    if token.isOperator .pipe then
      let name := pipeName cx rest
      let arguments := pipeArguments cx name.rest
      .yield (Node.enclosing .pipe value.span.start
        (value :: token.leaf :: name.value ++ arguments.value), arguments.rest)
    else .done (value, token :: rest)

theorem loops_pipeTail : Loops (pipeTurn cx) (pipeTail cx) := by
  refine .of_turns fun value tokens => ?_
  cases tokens with
  | nil =>
    refine .ended ?_
    simp [pipeTail, Parsing.done]
  | cons token rest =>
    rw [pipeTurn]
    split
    · next more =>
      refine .again (takes_cons ?_) ?_
      · exact (pipeArguments cx (pipeName cx rest).rest).rest_suffix.trans
          (pipeName cx rest).rest_suffix
      · dsimp only
        rw [pipeTail, if_pos more]
        rfl
    · next last =>
      refine .ended ?_
      simp [pipeTail, last, Parsing.done]

/-- A turn of the arguments of a pipe, from a colon on. -/
def argumentTurn : List Node × List Token → ForInStep (List Node × List Token)
  | (nodes, []) => .done (nodes, [])
  | (nodes, token :: rest) =>
    if token.isPunctuation ':' then
      let argument := assignment cx rest
      .yield (nodes ++ [token.leaf, argument.value], argument.rest)
    else .done (nodes, token :: rest)

theorem loops_pipeArgumentItems :
    Loops (argumentTurn cx) fun nodes tokens => (pipeArgumentItems cx tokens).map (nodes ++ ·) := by
  refine .of_turns fun nodes tokens => ?_
  cases tokens with
  | nil =>
    refine .ended ?_
    simp [pipeArgumentItems, Parsing.map, Parsing.done]
  | cons token rest =>
    rw [argumentTurn]
    split
    · next more =>
      refine .again (takes_cons (assignment cx rest).rest_suffix) ?_
      dsimp only
      rw [pipeArgumentItems, if_pos more]
      simp [Parsing.map, Parsing.after, Parsing.andThen]
    · next last =>
      refine .ended ?_
      simp [pipeArgumentItems, last, Parsing.map, Parsing.done]

def operatorTurn (level : Nat) : Node × List Token → ForInStep (Node × List Token)
  | (left, []) => .done (left, [])
  | (left, token :: rest) =>
    match BinaryOperator.ofLexeme? level token.lexeme with
    | some operator =>
      let right := binary cx (level + 1) rest
      .yield (Node.enclosing (.binary operator) left.span.start [left, token.leaf, right.value],
        right.rest)
    | none => .done (left, token :: rest)

theorem loops_binaryTail (level : Nat) : Loops (operatorTurn cx level) (binaryTail cx level) := by
  refine .of_turns fun left tokens => ?_
  cases tokens with
  | nil =>
    refine .ended ?_
    simp [binaryTail, Parsing.done]
  | cons token rest =>
    rw [operatorTurn]
    split
    · next operator found =>
      refine .again (takes_cons (binary cx (level + 1) rest).rest_suffix) ?_
      dsimp only
      rw [binaryTail, found]
      rfl
    · next last =>
      refine .ended ?_
      dsimp only
      rw [binaryTail, last]
      rfl

/-- A turn of the members, keys, calls and non-null marks behind a receiver. -/
def postfixTurn : Node × List Token → ForInStep (Node × List Token)
  | (receiver, []) => .done (receiver, [])
  | (receiver, token :: rest) =>
    if isPostfix token then
      let node := postfixNode cx receiver token rest
      .yield (node.value, node.rest)
    else .done (receiver, token :: rest)

theorem loops_postfixTail : Loops (postfixTurn cx) (postfixTail cx) := by
  refine .of_turns fun receiver tokens => ?_
  cases tokens with
  | nil =>
    refine .ended ?_
    simp [postfixTail, Parsing.done]
  | cons token rest =>
    rw [postfixTurn]
    split
    · next more =>
      refine .again (takes_cons (postfixNode cx receiver token rest).rest_suffix) ?_
      dsimp only
      rw [postfixTail_cons, if_pos more]
      rfl
    · next last =>
      refine .ended ?_
      dsimp only
      rw [postfixTail_cons, if_neg last]
      rfl

/-- A turn of a list whose items are divided by commas. The last one looks for the bracket
that closes the list. -/
def listTurn (closing : Char) (nodes : List Node) : List Token → ForInStep (List Node × List Token)
  | [] => .done (nodes ++ (expect cx closing []).value, (expect cx closing []).rest)
  | token :: rest =>
    if token.isPunctuation ',' then .yield (nodes ++ [token.leaf], rest)
    else .done (nodes ++ (expect cx closing (token :: rest)).value,
      (expect cx closing (token :: rest)).rest)

/-- What a rule gives behind the nodes of an item, if it starts again behind a comma. -/
def listEnd (closing : Char) (rule : (tokens : List Token) → Parsing (List Node) tokens)
    (found : List Node) : (tokens : List Token) → Parsing (List Node) tokens
  | [] => (expect cx closing []).map (found ++ ·)
  | token :: rest =>
    if token.isPunctuation ',' then
      ((rule rest).map fun more => found ++ token.leaf :: more).after token
    else (expect cx closing (token :: rest)).map (found ++ ·)

variable {cx} in
theorem turn_listTurn {closing : Char} {rule : (tokens : List Token) → Parsing (List Node) tokens}
    {found : List Node} {tokens rest : List Token} (suffix : rest <:+ tokens)
    (value_eq : (rule tokens).value = (listEnd cx closing rule found rest).value)
    (rest_eq : (rule tokens).rest = (listEnd cx closing rule found rest).rest)
    (nodes : List Node) :
    Loop.Turn (fun s t => Takes s.2 t.2)
      (fun s => (((rule s.2).map (s.1 ++ ·)).value, ((rule s.2).map (s.1 ++ ·)).rest))
      (nodes, tokens) (listTurn cx closing (nodes ++ found) rest) := by
  cases rest with
  | nil =>
    refine .ended ?_
    simp [value_eq, rest_eq, listEnd, Parsing.map]
  | cons token rest =>
    rw [listEnd] at value_eq rest_eq
    rw [listTurn]
    split
    · next comma =>
      rw [if_pos comma] at value_eq rest_eq
      refine .again (takes_of_suffix suffix) ?_
      simp [value_eq, rest_eq, Parsing.map, Parsing.after]
    · next last =>
      rw [if_neg last] at value_eq rest_eq
      refine .ended ?_
      simp [value_eq, rest_eq, Parsing.map]

def itemTurn (closing : Char) :
    List Node × List Token → ForInStep (List Node × List Token)
  | (nodes, tokens) =>
    let item := pipe cx tokens
    listTurn cx closing (nodes ++ [item.value]) item.rest

theorem loops_itemsTail (closing : Char) : Loops (itemTurn cx closing) fun nodes tokens =>
    (itemsTail cx closing tokens).map (nodes ++ ·) := by
  refine .of_turns fun nodes tokens => ?_
  have end_eq : ∀ item tokens, itemsEnd cx closing item tokens =
      listEnd cx closing (itemsTail cx closing) [item] tokens := by
    intro item tokens
    cases tokens <;> rfl
  refine turn_listTurn (pipe cx tokens).rest_suffix ?_ ?_ nodes
  · rw [itemsTail_eq, ← end_eq]
    rfl
  · rw [itemsTail_eq, ← end_eq]
    rfl

def entryTurn : List Node × List Token → ForInStep (List Node × List Token)
  | (nodes, []) => .done (nodes ++ (expect cx '\x7d' []).value, (expect cx '\x7d' []).rest)
  | (nodes, key :: rest) =>
    let found := entry cx key rest
    listTurn cx '\x7d' (nodes ++ found.value) found.rest

theorem loops_entriesTail :
    Loops (entryTurn cx) fun nodes tokens => (entriesTail cx tokens).map (nodes ++ ·) := by
  refine .of_turns fun nodes tokens => ?_
  cases tokens with
  | nil =>
    refine .ended ?_
    dsimp only
    rw [entriesTail]
    rfl
  | cons key tokens =>
    have end_eq : ∀ nodes tokens, entriesEnd cx nodes tokens =
        listEnd cx '\x7d' (entriesTail cx) nodes tokens := by
      intro nodes tokens
      cases tokens <;> rfl
    have suffix := (entry cx key tokens).rest_suffix.trans (List.suffix_cons key tokens)
    refine turn_listTurn suffix ?_ ?_ nodes
    · rw [entriesTail_cons, ← end_eq]
      rfl
    · rw [entriesTail_cons, ← end_eq]
      rfl

namespace Directive

theorem suffix_entry (directive : Text) (isFirst : Bool) (token : Token) (tokens : List Token) :
    (entry cx directive isFirst token tokens).rest <:+ tokens := by
  unfold entry
  split
  · exact Parsing.rest_after_suffix _ token
  split
  · exact (Parsing.rest_andThen_suffix _ _).trans (suffix_pipe cx token tokens)
  split
  · exact Parsing.rest_after_suffix _ token
  · exact List.suffix_rfl

/-- A turn of the value of a directive, with whether an entry may be the directive's own
expression. -/
def turn (directive : Text) :
    (Bool × List Node) × List Token → ForInStep ((Bool × List Node) × List Token)
  | (found, []) => .done (found, [])
  | ((isFirst, nodes), token :: rest) =>
    if isSeparator token then .yield ((isFirst, nodes ++ [token.leaf]), rest)
    else
      let first := entry cx directive isFirst token rest
      .yield ((false, nodes ++ first.value), first.rest)

/-- The value of a directive as a step that leaves no token. -/
def whole (directive : Text) (found : Bool × List Node) (tokens : List Token) :
    Parsing (Bool × List Node) tokens :=
  let more := entries cx directive found.1 tokens
  ⟨(found.1 && tokens.all isSeparator, found.2 ++ more.1), more.2, [], List.nil_suffix⟩

theorem loops_entries (directive : Text) : Loops (turn cx directive) (whole cx directive) := by
  refine .of_turns fun (isFirst, nodes) tokens => ?_
  cases tokens with
  | nil =>
    refine .ended ?_
    simp [whole, entries]
  | cons token rest =>
    rw [turn]
    split
    · next separator =>
      refine .again (takes_cons List.suffix_rfl) ?_
      simp [whole, entries, separator]
    · next other =>
      have suffix := suffix_entry cx directive isFirst token rest
      refine .again (takes_cons suffix) ?_
      simp [whole, entries, other, suffix.length_le]

end Directive

/-- An expression takes a token wherever there is one, and all loops of the parser take
tokens with every turn and end. -/
structure Progress (cx : Context) : Prop where
  expressions : ∀ tokens, tokens ≠ [] → Takes tokens (pipe cx tokens).rest
  chains : Loops (chainTurn cx) fun nodes tokens => (chainTail cx tokens).map (nodes ++ ·)
  pipes : Loops (pipeTurn cx) (pipeTail cx)
  pipeArguments :
    Loops (argumentTurn cx) fun nodes tokens => (pipeArgumentItems cx tokens).map (nodes ++ ·)
  operators : ∀ level, Loops (operatorTurn cx level) (binaryTail cx level)
  callChains : Loops (postfixTurn cx) (postfixTail cx)
  items : ∀ closing, Loops (itemTurn cx closing) fun nodes tokens =>
    (itemsTail cx closing tokens).map (nodes ++ ·)
  entries : Loops (entryTurn cx) fun nodes tokens => (entriesTail cx tokens).map (nodes ++ ·)
  directives : ∀ directive, Loops (Directive.turn cx directive) (Directive.whole cx directive)

theorem progress : Progress cx where
  expressions := by
    intro tokens nonempty
    obtain ⟨token, rest, rfl⟩ := List.exists_cons_of_ne_nil nonempty
    exact takes_cons (suffix_pipe cx token rest)
  chains := loops_chainTail cx
  pipes := loops_pipeTail cx
  pipeArguments := loops_pipeArgumentItems cx
  operators := loops_binaryTail cx
  callChains := loops_postfixTail cx
  items := loops_itemsTail cx
  entries := loops_entriesTail cx
  directives := Directive.loops_entries cx

end Expression

end ComponentExtraction
