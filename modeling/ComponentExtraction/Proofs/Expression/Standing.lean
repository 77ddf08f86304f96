import ComponentExtraction.Proofs.Expression.Replay
import ComponentExtraction.Proofs.Tree.Shape

/-!
# References and calls that stand alone

In an expression without errors a reference or a call covers a run of tokens that
would have been read as an expression of its own (`Standing`). Such an operand is
built up from left to right: what is read so far is `Opened`, and every member, key
or call behind it goes on from there, whatever comes later.

A rule is described by what it finds where it meets no error (`Parsing.Yields`).
Names of references and pipes are names of tokens.
-/

namespace ComponentExtraction

namespace Expression

open Node Diagnostic Parsing

variable {source : Text} {cx cx' : Context} {mode : Mode} {token other : Token}
variable {all tokens rest front taken next left : List Token}

/-- A span reaches from the first of some tokens to the end of the last. -/
def Covers (tokens : List Token) (span : Span) : Prop :=
  ∃ first last, tokens.head? = some first ∧ tokens.getLast? = some last ∧
    span = ⟨first.span.start, last.span.stop⟩

def StopsAt (tokens rest : List Token) (stop : Nat) : Prop :=
  ∃ front last, tokens = front ++ last :: rest ∧ last.span.stop = stop

/-- The last of some nodes ends where the last token in front of the rest does. -/
def Ended (tokens : List Token) (nodes : List Node) (rest : List Token) : Prop :=
  ∃ node, nodes.getLast? = some node ∧ StopsAt tokens rest node.span.stop

theorem StopsAt.of_suffix {stop : Nat} (h : StopsAt left rest stop) (later : left <:+ tokens) :
    StopsAt tokens rest stop := by
  obtain ⟨front, last, rfl, stop_eq⟩ := h
  obtain ⟨before, rfl⟩ := later
  exact ⟨before ++ front, last, (List.append_assoc _ _ _).symm, stop_eq⟩

theorem Ended.cons {node : Node} {nodes : List Node} (h : Ended tokens nodes rest) :
    Ended tokens (node :: nodes) rest := by
  obtain ⟨last, last_eq, stops⟩ := h
  exact ⟨last, by rw [List.getLast?_cons, last_eq, Option.getD_some], stops⟩

theorem Ended.append {nodes more : List Node} (h : Ended tokens more rest) :
    Ended tokens (nodes ++ more) rest := by
  obtain ⟨last, last_eq, stops⟩ := h
  exact ⟨last, by rw [List.getLast?_append, last_eq, Option.some_or], stops⟩

theorem Ended.of_suffix {nodes : List Node} (h : Ended left nodes rest) (later : left <:+ tokens) :
    Ended tokens nodes rest := by
  obtain ⟨last, last_eq, stops⟩ := h
  exact ⟨last, last_eq, stops.of_suffix later⟩

theorem Ended.leaf (token : Token) (tokens : List Token) :
    Ended (token :: tokens) [token.leaf] tokens :=
  ⟨token.leaf, rfl, [], token, rfl, rfl⟩

theorem Laid.start_le_stop (laid : Laid source cx (token :: tokens))
    (member : other ∈ token :: tokens) : token.span.start ≤ other.span.stop := by
  rcases List.mem_cons.mp member with rfl | later
  · exact Nat.le_of_lt (laid.solid _ List.mem_cons_self).1
  · have ordered := (List.pairwise_cons.mp laid.ordered).1 other later
    have first := (laid.solid token List.mem_cons_self).1
    have last := (laid.solid other member).1
    omega

theorem Laid.endOf_eq {nodes : List Node} {node : Node} (laid : Laid source cx (token :: tokens))
    (member : other ∈ token :: tokens) (last_eq : nodes.getLast? = some node)
    (stop_eq : other.span.stop = node.span.stop) :
    Node.endOf token.span.start nodes = other.span.stop := by
  have ordered := laid.start_le_stop member
  simp only [Node.endOf, last_eq, ← stop_eq]
  exact Nat.max_eq_right ordered

/-- A node from the first token to the end of its last child covers the tokens up
to there. -/
theorem covers_enclosing {kind : Kind} {children : List Node}
    (laid : Laid source cx (token :: tokens)) (ended : Ended (token :: tokens) children rest)
    (tokens_eq : token :: tokens = taken ++ rest) :
    Covers taken (Node.enclosing kind token.span.start children).span := by
  obtain ⟨node, last_eq, before, last, split_eq, stop_eq⟩ := ended
  have same : taken ++ rest = (before ++ [last]) ++ rest := by
    rw [← tokens_eq, split_eq, List.append_assoc]
    rfl
  have taken_eq : taken = before ++ [last] := List.append_cancel_right same
  have member : last ∈ token :: tokens := by rw [split_eq]; simp
  have stop_eq' := laid.endOf_eq member last_eq stop_eq
  refine ⟨token, last, ?_, by simp [taken_eq], ?_⟩
  · cases before with
    | nil =>
      cases split_eq
      rw [taken_eq]
      rfl
    | cons first before =>
      cases split_eq
      rw [taken_eq]
      rfl
  · rw [Node.enclosing, Node.span_mk, stop_eq']

namespace Parsing

variable {α β : Type} {Q : α → List Token → Prop} {R : β → List Token → Prop}

/-- Without an error, a step finds and leaves what is described.
Of a step that meets an error nothing is said. -/
def Yields (step : Parsing α tokens) (Q : α → List Token → Prop) : Prop :=
  Harmless step.diagnostics → Q step.value step.rest

namespace Yields

theorem mono {step : Parsing α tokens} {Q' : α → List Token → Prop} (h : step.Yields Q)
    (implies : ∀ value rest, Q value rest → Q' value rest) : step.Yields Q' :=
  fun harmless => implies _ _ (h harmless)

theorem done {value : α} (h : Q value tokens) : (Parsing.done value tokens).Yields Q :=
  fun _ => h

theorem andThen {first : Parsing α tokens}
    {next : (value : α) → (rest : List Token) → rest <:+ tokens → Parsing β rest}
    (h : first.Yields Q)
    (continues : ∀ value rest (suffix : rest <:+ tokens), first.Gives (· = value) rest →
      Q value rest → (next value rest suffix).Yields R) : (first.andThen next).Yields R := by
  intro harmless
  obtain ⟨harmless₁, harmless₂⟩ := harmless_append.mp harmless
  exact continues first.value first.rest first.rest_suffix ⟨harmless₁, rfl, rfl⟩ (h harmless₁)
    harmless₂

theorem map {step : Parsing α tokens} {f : α → β} (h : step.Yields Q)
    (implies : ∀ value rest, Q value rest → R (f value) rest) : (step.map f).Yields R :=
  fun harmless => implies _ _ (h harmless)

theorem after {step : Parsing α tokens} (h : step.Yields Q) : (step.after token).Yields Q :=
  h

theorem reporting {step : Parsing α tokens} {diagnostics : List Diagnostic} (h : step.Yields Q) :
    (step.reporting diagnostics).Yields Q :=
  fun harmless => h (harmless_append.mp harmless).2

theorem error {step : Parsing α tokens} {d : Diagnostic} {diagnostics : List Diagnostic}
    (error : d.severity = .error := by rfl) :
    (step.reporting (d :: diagnostics)).Yields Q :=
  fun harmless => absurd error (harmless_cons.mp (harmless_append.mp harmless).1).1

end Yields

end Parsing

theorem yields_misplaced {Q : Node → List Token → Prop} : (misplaced token tokens).Yields Q := by
  unfold misplaced
  split <;> exact .error

theorem ended_expect (cx : Context) (c : Char) (tokens : List Token) :
    (expect cx c tokens).Yields (Ended tokens) := by
  cases tokens with
  | nil => exact .error
  | cons token tokens =>
    rw [expect]
    split
    · exact .after (.done (.leaf token tokens))
    · exact .error

theorem ended_itemsTail (cx : Context) (closing : Char) (tokens : List Token) :
    (itemsTail cx closing tokens).Yields (Ended tokens) := by
  rw [itemsTail]
  refine Yields.andThen (Q := fun _ _ => True) (fun _ => trivial) fun item rest suffix _ _ => ?_
  cases rest with
  | nil => exact (ended_expect cx closing []).map fun ending left h => (h.of_suffix suffix).cons
  | cons token rest =>
    dsimp only
    split
    · have shorter := suffix.length_le
      refine .after ((ended_itemsTail cx closing rest).map fun more left h => ?_)
      exact ((h.of_suffix (List.suffix_cons token rest)).of_suffix suffix).cons.cons
    · exact (ended_expect cx closing (token :: rest)).map fun ending left h =>
        (h.of_suffix suffix).cons
termination_by tokens.length
decreasing_by
  simp only [List.length_cons] at *
  omega

theorem ended_items (cx : Context) (closing : Char) (tokens : List Token) :
    (items cx closing tokens).Yields (Ended tokens) := by
  cases tokens with
  | nil =>
    rw [items]
    exact ended_itemsTail cx closing []
  | cons token tokens =>
    rw [items]
    split
    · exact .after (.done (.leaf token tokens))
    · exact ended_itemsTail cx closing (token :: tokens)

theorem ended_entriesTail (cx : Context) (tokens : List Token) :
    (entriesTail cx tokens).Yields (Ended tokens) := by
  cases tokens with
  | nil =>
    rw [entriesTail]
    exact .error
  | cons key tokens =>
    rw [entriesTail]
    refine .after (Yields.andThen (Q := fun _ _ => True) (fun _ => trivial)
      fun nodes rest suffix _ _ => ?_)
    have suffix' := suffix.trans (List.suffix_cons key tokens)
    cases rest with
    | nil => exact (ended_expect cx _ []).map fun ending left h => (h.of_suffix suffix').append
    | cons token rest =>
      dsimp only
      split
      · have shorter := suffix'.length_le
        refine .after ((ended_entriesTail cx rest).map fun more left h => ?_)
        exact ((h.of_suffix (List.suffix_cons token rest)).of_suffix suffix').cons.append
      · exact (ended_expect cx _ (token :: rest)).map fun ending left h =>
          (h.of_suffix suffix').append
termination_by tokens.length
decreasing_by
  simp only [List.length_cons] at *
  omega

theorem ended_entries (cx : Context) (tokens : List Token) :
    (entries cx tokens).Yields (Ended tokens) := by
  cases tokens with
  | nil =>
    rw [entries]
    exact .error
  | cons token tokens =>
    rw [entries]
    split
    · exact .after (.done (.leaf token tokens))
    · exact ended_entriesTail cx (token :: tokens)

/-- What is known of references and calls among some tokens: a name is the name of
a token, and what is read as a reference or as a call would be read alone. -/
structure Standing (mode : Mode) (all : List Token) (node : Node) : Prop where
  named : ∀ name, node.kind.referenceName? = some name →
    ∃ token ∈ all, token.lexeme.name? = some name
  alone : node.kind.isReference = true ∨ node.kind.isCall = true →
    ∃ excerpt, excerpt <:+: all ∧ Covers excerpt node.span ∧ ReadsAlone mode excerpt

def AllStanding (mode : Mode) (all : List Token) (nodes : List Node) : Prop :=
  ∀ node ∈ nodes, Everywhere (Standing mode all) node

@[simp] theorem allStanding_nil : AllStanding mode all [] := by
  simp [AllStanding]

@[simp] theorem allStanding_cons {node : Node} {nodes : List Node} :
    AllStanding mode all (node :: nodes) ↔
      Everywhere (Standing mode all) node ∧ AllStanding mode all nodes :=
  List.forall_mem_cons

@[simp] theorem allStanding_append {nodes more : List Node} :
    AllStanding mode all (nodes ++ more) ↔
      AllStanding mode all nodes ∧ AllStanding mode all more :=
  List.forall_mem_append

/-- A node that is neither a reference nor a call only needs what is below it to
stand. -/
theorem standing_mk {kind : Kind} {span : Span} {children : List Node}
    (nameless : kind.referenceName? = none) (call : kind.isCall = false)
    (below : AllStanding mode all children) :
    Everywhere (Standing mode all) (Node.mk kind span children) := by
  refine .intro ⟨fun name named => absurd (nameless.symm.trans named) (by simp), ?_⟩ below
  rintro (reference | called)
  · obtain ⟨name, rfl⟩ := Kind.isReference_iff.mp reference
    exact absurd nameless (by simp [Kind.referenceName?])
  · exact absurd (call.symm.trans called) (by simp)

@[simp] theorem standing_leaf (token : Token) : Everywhere (Standing mode all) token.leaf :=
  standing_mk rfl rfl allStanding_nil

/-- An operand that is read from a run of tokens and can be continued: wherever the
same tokens stand, reading goes on behind an operand of the same kind. -/
structure Opened (cx : Context) (all front tokens : List Token) (receiver : Node) : Prop where
  within : front ++ tokens <:+ all
  covers : Covers front receiver.span
  unprefixed : ∀ first ∈ front.head?, PrefixOperator.ofLexeme? first.lexeme = none
  resumes : ∀ cx' front' next, cx'.mode = cx.mode → List.Forall₂ Token.Alike front front' →
    Ahead tokens next → ∃ receiver', SameKind receiver receiver' ∧
      ∀ (Q : Node → Prop) left, (postfixTail cx' receiver' next).Gives Q left →
        (postfixed cx' (front' ++ next)).Gives Q left

theorem gives_binary_of_prefixed {Q : Node → Prop} {level : Nat}
    (given : (prefixed cx tokens).Gives Q []) : (binary cx level tokens).Gives Q [] := by
  rw [binary]
  split
  · refine (gives_binary_of_prefixed given).andThen fun operand _ described => ?_
    rw [binaryTail]
    exact .done described
  · rw [exponentiation_eq]
    exact given.andThen fun base _ described => .done described
termination_by 9 - level

/-- An operand that takes all tokens is a whole expression. -/
theorem gives_chain_of_prefixed {Q : Node → Prop}
    (given : (prefixed cx (token :: tokens)).Gives Q []) :
    (chain cx (token :: tokens)).Gives (fun _ => True) [] := by
  have conditional : (conditional cx (token :: tokens)).Gives Q [] := by
    rw [conditional_eq]
    exact (gives_binary_of_prefixed given).andThen fun condition _ described => .done described
  have assignment : (assignment cx (token :: tokens)).Gives Q [] := by
    rw [assignment_eq]
    exact conditional.andThen fun target _ described => .done described
  have pipe : (pipe cx (token :: tokens)).Gives Q [] := by
    rw [Expression.pipe]
    refine assignment.andThen fun value _ described => ?_
    rw [pipeTail]
    exact .done described
  rw [chain]
  exact pipe.andThen fun first _ _ => .done trivial

namespace Opened

variable {receiver node : Node}

theorem readsAlone (opened : Opened cx all front tokens receiver) : ReadsAlone cx.mode front := by
  intro cx' front' same alike
  obtain ⟨first, last, head_eq, -⟩ := opened.covers
  have plain := opened.unprefixed first head_eq
  obtain ⟨receiver', -, continues⟩ := opened.resumes cx' front' [] same alike (.nothing _)
  have whole : (postfixed cx' (front' ++ [])).Gives (fun _ => True) [] := by
    refine continues _ [] ?_
    rw [postfixTail]
    exact .done trivial
  rw [List.append_nil] at whole
  cases alike with
  | nil => simp at head_eq
  | @cons _ other _ more first_alike more_alike =>
    cases head_eq
    have given : (prefixed cx' (other :: more)).Gives (fun _ => True) [] := by
      rw [prefixed]
      simp only [first_alike.prefixed_eq, plain]
      exact whole
    obtain ⟨harmless, -, finished⟩ := gives_chain_of_prefixed given
    exact ⟨harmless, finished⟩

/-- An operand stands if all below it does and its name is the name of a token. -/
theorem standing (opened : Opened cx all front tokens receiver)
    (named : ∀ name, receiver.kind.referenceName? = some name →
      ∃ token ∈ all, token.lexeme.name? = some name)
    (below : AllStanding cx.mode all receiver.children) :
    Everywhere (Standing cx.mode all) receiver := by
  obtain ⟨kind, span, children⟩ := receiver
  refine .intro ⟨named, fun _ => ⟨front, ?_, opened.covers, opened.readsAlone⟩⟩ below
  exact (List.prefix_append front tokens).isInfix.trans opened.within.isInfix

theorem of_primary (within : front ++ tokens <:+ all) (covers : Covers front receiver.span)
    (unprefixed : ∀ first ∈ front.head?, PrefixOperator.ofLexeme? first.lexeme = none)
    (given : (primary cx (front ++ tokens)).Gives (· = receiver) tokens) :
    Opened cx all front tokens receiver := by
  refine ⟨within, covers, unprefixed, ?_⟩
  intro cx' front' next same alike ahead
  obtain ⟨harmless, kind_eq, rest_eq⟩ := again_primary (fun rest _ => replays same rest)
    _ _ _ _ given ⟨front, front', rfl, rfl, alike, ahead⟩
  refine ⟨(primary cx' (front' ++ next)).value, kind_eq, ?_⟩
  intro Q left continues
  rw [postfixed]
  refine Gives.andThen ⟨harmless, rfl, rest_eq⟩ fun value _ value_eq => ?_
  rw [← value_eq]
  exact continues

theorem step (opened : Opened cx all front (token :: (taken ++ rest)) receiver)
    (goesOn : isPostfix token = true)
    (given : (postfixNode cx receiver token (taken ++ rest)).Gives (· = node) rest)
    (covers : Covers (front ++ token :: taken) node.span) :
    Opened cx all (front ++ token :: taken) rest node := by
  refine ⟨by simpa using opened.within, covers, ?_, ?_⟩
  · obtain ⟨first, last, head_eq, -⟩ := opened.covers
    intro other other_eq
    rw [List.head?_append, head_eq, Option.some_or] at other_eq
    cases other_eq
    exact opened.unprefixed _ head_eq
  · intro cx' front' next same alike ahead
    obtain ⟨before, behind, rfl, before_alike, behind_alike⟩ := exists_append_of_forall₂ alike
    cases behind_alike with
    | @cons _ other _ taken' token_alike taken_alike =>
      obtain ⟨receiver', -, continues⟩ := opened.resumes cx' before (other :: (taken' ++ next)) same
        before_alike (.alike token_alike _ _)
      have again : (postfixNode cx' receiver' other (taken' ++ next)).Gives (SameKind node) next :=
        (replays same _).postfixNode token_alike _ _ _ _ given
          ⟨taken, taken', rfl, rfl, taken_alike, ahead⟩
      obtain ⟨harmless, kind_eq, rest_eq⟩ := again
      refine ⟨(postfixNode cx' receiver' other (taken' ++ next)).value, kind_eq, ?_⟩
      intro Q left goes
      rw [List.append_assoc]
      refine continues Q left ?_
      rw [postfixTail_cons, if_pos ((isPostfix_eq token_alike).trans goesOn)]
      refine .after (Gives.andThen ⟨harmless, rfl, rest_eq⟩ fun value _ value_eq => ?_)
      rw [← value_eq]
      exact goes

end Opened

abbrev StandingNode (cx : Context) (all : List Token) (node : Node) (_ : List Token) : Prop :=
  Everywhere (Standing cx.mode all) node

abbrev StandingNodes (cx : Context) (all : List Token) (nodes : List Node) (_ : List Token) :
    Prop :=
  AllStanding cx.mode all nodes

/-- An operand from a position up to the last token in front of the rest, of which
everything below stands. -/
structure Built (cx : Context) (all : List Token) (start : Nat) (tokens : List Token) (node : Node)
    (rest : List Token) : Prop where
  ended : ∃ kind children, node = Node.enclosing kind start children ∧ Ended tokens children rest
  named : ∀ name, node.kind.referenceName? = some name →
    ∃ token ∈ all, token.lexeme.name? = some name
  below : AllStanding cx.mode all node.children

theorem Built.covers {node : Node} (built : Built cx all token.span.start left node rest)
    (laid : Laid source cx (token :: tokens)) (later : left <:+ token :: tokens)
    (tokens_eq : token :: tokens = taken ++ rest) : Covers taken node.span := by
  obtain ⟨kind, children, rfl, ended⟩ := built.ended
  exact covers_enclosing laid (ended.of_suffix later) tokens_eq

theorem Built.of_suffix {node : Node} {start : Nat} (built : Built cx all start left node rest)
    (later : left <:+ tokens) : Built cx all start tokens node rest := by
  obtain ⟨kind, children, node_eq, ended⟩ := built.ended
  exact ⟨⟨kind, children, node_eq, ended.of_suffix later⟩, built.named, built.below⟩

theorem ended_enclosing {kind : Kind} {nodes : List Node}
    (laid : Laid source cx (token :: tokens)) (ended : Ended (token :: tokens) nodes rest) :
    Ended (token :: tokens) [Node.enclosing kind token.span.start nodes] rest := by
  obtain ⟨node, last_eq, front, last, tokens_eq, stop_eq⟩ := ended
  have member : last ∈ token :: tokens := by rw [tokens_eq]; simp
  exact ⟨_, rfl, front, last, tokens_eq, (laid.endOf_eq member last_eq stop_eq).symm⟩

theorem standing_expect (cx : Context) (all : List Token) (c : Char) (tokens : List Token) :
    (expect cx c tokens).Yields (StandingNodes cx all) := by
  cases tokens with
  | nil => exact .error
  | cons token tokens =>
    rw [expect]
    split
    · exact .after (.done (by simp))
    · exact .error

theorem standing_pipeName (within : tokens <:+ all) :
    (pipeName cx tokens).Yields (StandingNodes cx all) := by
  cases tokens with
  | nil => exact .error
  | cons token tokens =>
    rw [pipeName]
    split
    · next name found =>
      refine .after (.done (allStanding_cons.mpr ⟨.intro ⟨?_, ?_⟩ (by simp), allStanding_nil⟩))
      · rintro _ ⟨⟩
        exact ⟨token, within.subset List.mem_cons_self, found⟩
      · rintro (⟨⟨⟩⟩ | ⟨⟨⟩⟩)
    · exact .error

theorem built_member {receiver : Node} (standing : Everywhere (Standing cx.mode all) receiver)
    (within : token :: tokens <:+ all) :
    (member cx receiver token tokens).Yields
      (Built cx all receiver.span.start (token :: tokens)) := by
  cases tokens with
  | nil => exact .error
  | cons name tokens =>
    simp only [member]
    split
    · next word found =>
      refine .after (.done ⟨⟨_, _, rfl, ?_⟩, ?_, ?_⟩)
      · exact ((Ended.leaf name tokens).of_suffix (List.suffix_cons _ _)).cons.cons
      · rintro _ ⟨⟩
        exact ⟨name, within.subset (by simp), found⟩
      · exact allStanding_cons.mpr ⟨standing, by simp⟩
    · exact .error

/-- Every rule finds what stands, from the given tokens. The rules call
each other, so this is proved of all of them at once (`stands`). -/
structure Stands (cx : Context) (all tokens : List Token) : Prop where
  pipe : (pipe cx tokens).Yields (StandingNode cx all)
  pipeTail : ∀ {value : Node}, Everywhere (Standing cx.mode all) value →
    (pipeTail cx value tokens).Yields (StandingNode cx all)
  pipeArgumentItems : (pipeArgumentItems cx tokens).Yields (StandingNodes cx all)
  assignment : (assignment cx tokens).Yields (StandingNode cx all)
  binary : ∀ level, (binary cx level tokens).Yields (StandingNode cx all)
  binaryTail : ∀ {level : Nat} {operand : Node}, Everywhere (Standing cx.mode all) operand →
    (binaryTail cx level operand tokens).Yields (StandingNode cx all)
  exponentiation : (exponentiation cx tokens).Yields (StandingNode cx all)
  prefixed : (prefixed cx tokens).Yields (StandingNode cx all)
  postfixTail : ∀ {front : List Token} {receiver : Node}, Opened cx all front tokens receiver →
    Everywhere (Standing cx.mode all) receiver →
      (postfixTail cx receiver tokens).Yields (StandingNode cx all)
  items : ∀ closing, (items cx closing tokens).Yields (StandingNodes cx all)
  itemsTail : ∀ closing, (itemsTail cx closing tokens).Yields (StandingNodes cx all)
  entries : (entries cx tokens).Yields (StandingNodes cx all)
  entriesTail : (entriesTail cx tokens).Yields (StandingNodes cx all)
  entry : ∀ {key : Token}, key :: tokens <:+ all →
    (entry cx key tokens).Yields (StandingNodes cx all)

theorem built_keyed {receiver : Node} {marks : List Node} (inner : Stands cx all tokens)
    (standing : Everywhere (Standing cx.mode all) receiver)
    (marked : AllStanding cx.mode all marks) :
    (keyed cx receiver marks tokens).Yields (Built cx all receiver.span.start tokens) := by
  rw [keyed]
  refine inner.pipe.andThen fun key rest suffix _ key_standing => ?_
  intro harmless
  have closing := ended_expect cx ']' rest harmless
  have closing_standing : AllStanding cx.mode all _ := standing_expect cx all ']' rest harmless
  refine ⟨⟨_, _, rfl, ((closing.of_suffix suffix).cons.append).cons⟩, by rintro _ ⟨⟩, ?_⟩
  exact allStanding_cons.mpr ⟨standing,
    allStanding_append.mpr ⟨marked, allStanding_cons.mpr ⟨key_standing, closing_standing⟩⟩⟩

theorem built_call {callee : Node} {marks : List Node} {opening : Token}
    (laid : Laid source cx (opening :: tokens)) (inner : Stands cx all tokens)
    (standing : Everywhere (Standing cx.mode all) callee)
    (marked : AllStanding cx.mode all marks) :
    (call cx callee marks opening tokens).Yields
      (Built cx all callee.span.start (opening :: tokens)) := by
  rw [call]
  intro harmless
  have closing := ended_items cx ')' tokens harmless
  have arguments : AllStanding cx.mode all (opening.leaf :: (items cx ')' tokens).value) :=
    allStanding_cons.mpr ⟨standing_leaf opening, inner.items ')' harmless⟩
  have ended : Ended (opening :: tokens) (opening.leaf :: (items cx ')' tokens).value)
      (items cx ')' tokens).rest :=
    (closing.of_suffix (List.suffix_cons opening tokens)).cons
  refine ⟨⟨_, _, rfl, ((ended_enclosing laid ended).append).cons⟩, by rintro _ ⟨⟩, ?_⟩
  exact allStanding_cons.mpr ⟨standing, allStanding_append.mpr ⟨marked,
    allStanding_cons.mpr ⟨standing_mk rfl rfl arguments, allStanding_nil⟩⟩⟩

theorem built_postfixNode {receiver : Node} (laid : Laid source cx all)
    (within : token :: tokens <:+ all) (inner : ∀ rest, rest <:+ tokens → Stands cx all rest)
    (standing : Everywhere (Standing cx.mode all) receiver) :
    (postfixNode cx receiver token tokens).Yields
      (Built cx all receiver.span.start (token :: tokens)) := by
  have behind := List.suffix_cons token tokens
  unfold postfixNode
  split
  · exact built_member standing within
  split
  · exact (built_keyed (inner tokens List.suffix_rfl) standing (by simp)).mono
      fun node rest built => built.of_suffix behind
  split
  · exact built_call (laid.suffix within) (inner tokens List.suffix_rfl) standing (by simp)
  split
  · refine .done ⟨⟨_, _, rfl, (Ended.leaf token tokens).cons⟩, by rintro _ ⟨⟩, ?_⟩
    exact allStanding_cons.mpr ⟨standing, by simp⟩
  · match tokens with
    | [] =>
      rw [safeAccess]
      exact built_member standing within
    | opening :: tokens =>
      have behind' := List.suffix_cons opening tokens
      rw [safeAccess]
      split
      · refine .after ((built_call (laid.suffix (behind.trans within)) (inner tokens behind')
          standing (by simp)).mono fun node rest built => built.of_suffix behind)
      split
      · refine .after ((built_keyed (inner tokens behind') standing (by simp)).mono
          fun node rest built => built.of_suffix (behind'.trans behind))
      · exact built_member standing within

theorem opened_postfixNode {receiver : Node} (laid : Laid source cx all)
    (opened : Opened cx all front (token :: tokens) receiver)
    (inner : ∀ rest, rest <:+ tokens → Stands cx all rest)
    (standing : Everywhere (Standing cx.mode all) receiver) (goesOn : isPostfix token = true) :
    (postfixNode cx receiver token tokens).Yields fun node rest =>
      (∃ front', Opened cx all front' rest node) ∧ Everywhere (Standing cx.mode all) node := by
  have within := (List.suffix_append front (token :: tokens)).trans opened.within
  intro harmless
  have built := built_postfixNode laid within inner standing harmless
  have given : (postfixNode cx receiver token tokens).Gives (· = _) _ := ⟨harmless, rfl, rfl⟩
  generalize (postfixNode cx receiver token tokens).value = node at *
  generalize (postfixNode cx receiver token tokens).rest = rest at *
  obtain ⟨taken, rfl⟩ := given.suffix
  have covers : Covers (front ++ token :: taken) node.span := by
    obtain ⟨first, last, head_eq, -, span_eq⟩ := opened.covers
    cases front with
    | nil => simp at head_eq
    | cons _ front =>
      cases head_eq
      have built' : Built cx all first.span.start (token :: (taken ++ rest)) node rest := by
        rwa [span_eq] at built
      refine built'.covers (laid.suffix opened.within) ?_ (by simp)
      exact List.suffix_append (first :: front) _
  have next := opened.step goesOn given covers
  exact ⟨⟨_, next⟩, next.standing built.named built.below⟩

section Grammar

variable (laid : Laid source cx all) (within : tokens <:+ all)
variable (shorter : ∀ rest : List Token, rest.length < tokens.length → rest <:+ all →
  Stands cx all rest)
include within shorter

theorem stands_of_cons (tokens_eq : tokens = token :: rest) : ∀ left, left <:+ rest →
    Stands cx all left := by
  subst tokens_eq
  intro left later
  exact shorter left (length_lt_cons token later)
    (later.trans ((List.suffix_cons token rest).trans within))

theorem built_primary (tokens_eq : tokens = token :: rest) :
    (primary cx tokens).Yields (Built cx all token.span.start tokens) := by
  have inner := stands_of_cons within shorter tokens_eq rest List.suffix_rfl
  subst tokens_eq
  have behind := List.suffix_cons token rest
  rw [primary_cons]
  refine .after ?_
  split
  · unfold parenthesized
    refine inner.pipe.andThen fun node left suffix _ standing => ?_
    intro harmless
    have closing := ended_expect cx ')' left harmless
    have closing_standing : AllStanding cx.mode all _ := standing_expect cx all ')' left harmless
    refine ⟨⟨_, _, rfl, (closing.of_suffix (suffix.trans behind)).cons.cons⟩, by rintro _ ⟨⟩, ?_⟩
    exact allStanding_cons.mpr ⟨standing_leaf token,
      allStanding_cons.mpr ⟨standing, closing_standing⟩⟩
  split
  · intro harmless
    have closing := ended_items cx ']' rest harmless
    refine ⟨⟨_, _, rfl, (closing.of_suffix behind).cons⟩, by rintro _ ⟨⟩, ?_⟩
    exact allStanding_cons.mpr ⟨standing_leaf token, inner.items ']' harmless⟩
  split
  · intro harmless
    have closing := ended_entries cx rest harmless
    refine ⟨⟨_, _, rfl, (closing.of_suffix behind).cons⟩, by rintro _ ⟨⟩, ?_⟩
    exact allStanding_cons.mpr ⟨standing_leaf token, inner.entries harmless⟩
  · unfold atom
    split
    · exact .done ⟨⟨_, _, rfl, .leaf token rest⟩, by rintro _ ⟨⟩,
        allStanding_cons.mpr ⟨standing_leaf token, allStanding_nil⟩⟩
    split
    · exact .done ⟨⟨_, _, rfl, .leaf token rest⟩, by rintro _ ⟨⟩,
        allStanding_cons.mpr ⟨standing_leaf token, allStanding_nil⟩⟩
    split
    · next name found =>
      refine .done ⟨⟨_, _, rfl, .leaf token rest⟩, ?_,
        allStanding_cons.mpr ⟨standing_leaf token, allStanding_nil⟩⟩
      rintro _ ⟨⟩
      exact ⟨token, within.subset List.mem_cons_self, found⟩
    · exact yields_misplaced

include laid in
theorem standing_postfixed (plain : ∀ first ∈ tokens.head?,
    PrefixOperator.ofLexeme? first.lexeme = none) :
    (postfixed cx tokens).Yields (StandingNode cx all) := by
  cases tokens with
  | nil =>
    rw [postfixed]
    refine Yields.andThen (Q := fun _ _ => False) ?_ fun _ _ _ _ never => never.elim
    rw [primary]
    exact .error
  | cons token tokens =>
    rw [postfixed]
    refine (built_primary within shorter rfl).andThen fun receiver rest suffix given built => ?_
    have less := (takes_primary given).length_lt
    have later := suffix.trans within
    obtain ⟨front, tokens_eq⟩ := suffix
    have covers := built.covers (laid.suffix within) List.suffix_rfl tokens_eq.symm
    rw [← tokens_eq] at given within plain
    have opened : Opened cx all front rest receiver := by
      refine .of_primary within covers ?_ given
      intro first head_eq
      refine plain first ?_
      rw [List.head?_append, head_eq]
      rfl
    exact (shorter rest less later).postfixTail opened (opened.standing built.named built.below)

include laid in
theorem standing_postfixTail {receiver : Node} (opened : Opened cx all front tokens receiver)
    (standing : Everywhere (Standing cx.mode all) receiver) :
    (postfixTail cx receiver tokens).Yields (StandingNode cx all) := by
  cases tokens with
  | nil =>
    rw [postfixTail]
    exact .done standing
  | cons token tokens =>
    have inner := stands_of_cons within shorter rfl
    rw [postfixTail_cons]
    split
    · next goesOn =>
      refine .after ((opened_postfixNode laid opened inner standing goesOn).andThen
        fun node rest suffix _ found => ?_)
      obtain ⟨⟨front', opened'⟩, standing'⟩ := found
      exact (inner rest suffix).postfixTail opened' standing'
    · exact .done standing

include laid in
theorem standing_prefixed : (prefixed cx tokens).Yields (StandingNode cx all) := by
  cases tokens with
  | nil =>
    rw [prefixed]
    exact standing_postfixed laid within shorter (by simp)
  | cons token tokens =>
    have inner := stands_of_cons within shorter rfl tokens List.suffix_rfl
    rw [prefixed]
    split
    · refine .after (inner.prefixed.map fun operand rest standing => standing_mk rfl rfl ?_)
      exact allStanding_cons.mpr ⟨standing_leaf token, allStanding_cons.mpr
        ⟨standing, allStanding_nil⟩⟩
    · next plain =>
      refine standing_postfixed laid within shorter ?_
      rintro first ⟨⟩
      exact plain

include laid in
theorem standing_exponentiation : (exponentiation cx tokens).Yields (StandingNode cx all) := by
  rw [exponentiation_eq]
  refine (standing_prefixed laid within shorter).andThen fun base rest suffix _ standing => ?_
  cases rest with
  | nil => exact .done standing
  | cons token rest =>
    rw [exponentiationTail]
    split
    · have behind := (List.suffix_cons token rest).trans suffix
      have less := Nat.lt_of_lt_of_le (length_lt_cons token List.suffix_rfl) suffix.length_le
      refine .after ((shorter rest less (behind.trans within)).exponentiation.map
        fun exponent _ standing' => standing_mk rfl rfl ?_)
      simp [standing, standing']
    · exact .done standing

include laid in
theorem standing_binary (level : Nat) : (binary cx level tokens).Yields (StandingNode cx all) := by
  rw [binary]
  split
  · refine (standing_binary (level + 1)).andThen fun operand rest suffix given standing => ?_
    exact (shorter rest (takes_binary given).length_lt (suffix.trans within)).binaryTail standing
  · exact standing_exponentiation laid within shorter
termination_by 9 - level

theorem standing_binaryTail {level : Nat} {operand : Node}
    (standing : Everywhere (Standing cx.mode all) operand) :
    (binaryTail cx level operand tokens).Yields (StandingNode cx all) := by
  cases tokens with
  | nil =>
    rw [binaryTail]
    exact .done standing
  | cons token tokens =>
    have inner := stands_of_cons within shorter rfl
    rw [binaryTail]
    split
    · refine .after (((inner tokens List.suffix_rfl).binary (level + 1)).andThen
        fun right rest suffix _ standing' => (inner rest suffix).binaryTail ?_)
      exact standing_mk rfl rfl (by simp [standing, standing'])
    · exact .done standing

include laid in
theorem standing_conditional : (conditional cx tokens).Yields (StandingNode cx all) := by
  rw [conditional_eq]
  refine (standing_binary laid within shorter 2).andThen fun condition rest suffix _ standing => ?_
  cases rest with
  | nil => exact .done standing
  | cons token rest =>
    rw [conditionalTail]
    split
    · have inner : ∀ left, left <:+ rest → Stands cx all left := by
        intro left later
        have less := Nat.lt_of_lt_of_le (length_lt_cons token later) suffix.length_le
        exact shorter left less ((later.trans (List.suffix_cons token rest)).trans
          (suffix.trans within))
      refine .after ((inner rest List.suffix_rfl).pipe.andThen fun yes rest₁ h₁ _ yes_standing => ?_)
      refine (standing_expect cx all ':' rest₁).andThen fun colon rest₂ h₂ _ colon_standing => ?_
      refine (inner rest₂ (h₂.trans h₁)).pipe.map fun no _ no_standing => standing_mk rfl rfl ?_
      exact allStanding_cons.mpr ⟨standing, allStanding_cons.mpr ⟨standing_leaf token,
        allStanding_cons.mpr ⟨yes_standing, allStanding_append.mpr ⟨colon_standing,
          allStanding_cons.mpr ⟨no_standing, allStanding_nil⟩⟩⟩⟩⟩
    · exact .done standing

include laid in
theorem standing_assignment : (assignment cx tokens).Yields (StandingNode cx all) := by
  rw [assignment_eq]
  refine (standing_conditional laid within shorter).andThen fun target rest suffix _ standing => ?_
  cases rest with
  | nil => exact .done standing
  | cons token rest =>
    rw [assignmentTail]
    split
    · have behind := (List.suffix_cons token rest).trans suffix
      have less := Nat.lt_of_lt_of_le (length_lt_cons token List.suffix_rfl) suffix.length_le
      refine .reporting (.after ((shorter rest less (behind.trans within)).assignment.map
        fun value _ standing' => standing_mk rfl rfl ?_))
      simp [standing, standing']
    · exact .done standing

theorem standing_pipeArgumentItems :
    (pipeArgumentItems cx tokens).Yields (StandingNodes cx all) := by
  cases tokens with
  | nil =>
    rw [pipeArgumentItems]
    exact .done allStanding_nil
  | cons token tokens =>
    have inner := stands_of_cons within shorter rfl
    rw [pipeArgumentItems]
    split
    · refine .after ((inner tokens List.suffix_rfl).assignment.andThen
        fun argument rest suffix _ standing => ?_)
      refine (inner rest suffix).pipeArgumentItems.map fun items _ standing' => ?_
      exact allStanding_cons.mpr ⟨standing_leaf token, allStanding_cons.mpr ⟨standing, standing'⟩⟩
    · exact .done allStanding_nil

include laid in
theorem standing_pipe : (pipe cx tokens).Yields (StandingNode cx all) := by
  rw [pipe]
  refine (standing_assignment laid within shorter).andThen fun value rest suffix given standing => ?_
  exact (shorter rest (takes_assignment given).length_lt (suffix.trans within)).pipeTail standing

theorem standing_pipeTail {value : Node} (standing : Everywhere (Standing cx.mode all) value) :
    (pipeTail cx value tokens).Yields (StandingNode cx all) := by
  cases tokens with
  | nil =>
    rw [pipeTail]
    exact .done standing
  | cons token tokens =>
    have inner := stands_of_cons within shorter rfl
    rw [pipeTail]
    split
    · refine .reporting (.after ((standing_pipeName
        ((List.suffix_cons token tokens).trans within)).andThen
          fun name rest₁ h₁ _ name_standing => ?_))
      have arguments : (pipeArguments cx rest₁).Yields (StandingNodes cx all) := by
        rw [pipeArguments]
        refine (inner rest₁ h₁).pipeArgumentItems.map fun items _ standing' => ?_
        split
        · exact allStanding_nil
        · exact allStanding_cons.mpr ⟨standing_mk rfl rfl standing', allStanding_nil⟩
      refine arguments.andThen fun arguments rest₂ h₂ _ arguments_standing => ?_
      refine (inner rest₂ (h₂.trans h₁)).pipeTail (standing_mk rfl rfl ?_)
      exact allStanding_cons.mpr ⟨standing, allStanding_cons.mpr ⟨standing_leaf token,
        allStanding_append.mpr ⟨name_standing, arguments_standing⟩⟩⟩
    · exact .done standing

include laid in
theorem standing_itemsTail (closing : Char) :
    (itemsTail cx closing tokens).Yields (StandingNodes cx all) := by
  rw [itemsTail_eq]
  refine (standing_pipe laid within shorter).andThen fun item rest suffix _ standing => ?_
  have closes : ((expect cx closing rest).map fun ending => item :: ending).Yields
      (StandingNodes cx all) :=
    (standing_expect cx all closing rest).map fun ending _ standing' =>
      allStanding_cons.mpr ⟨standing, standing'⟩
  cases rest with
  | nil => exact closes
  | cons token rest =>
    rw [itemsEnd]
    split
    · have behind := (List.suffix_cons token rest).trans suffix
      have less := Nat.lt_of_lt_of_le (length_lt_cons token List.suffix_rfl) suffix.length_le
      refine .after (((shorter rest less (behind.trans within)).itemsTail closing).map
        fun more _ standing' => ?_)
      exact allStanding_cons.mpr ⟨standing, allStanding_cons.mpr ⟨standing_leaf token, standing'⟩⟩
    · exact closes

include laid in
theorem standing_items (closing : Char) :
    (items cx closing tokens).Yields (StandingNodes cx all) := by
  cases tokens with
  | nil =>
    rw [items]
    exact standing_itemsTail laid within shorter closing
  | cons token tokens =>
    rw [items]
    split
    · exact .after (.done (by simp))
    · exact standing_itemsTail laid within shorter closing

omit within shorter in
theorem gives_primary_of_identifier {name : Text} (identifier : token.lexeme = .identifier name)
    (tokens : List Token) :
    (primary cx (token :: tokens)).Gives (· = single (.reference name) token) tokens := by
  have other : ∀ c, token.isPunctuation c = false := by
    intro c
    simp [Token.isPunctuation, identifier]
  rw [primary_cons]
  simp only [other, atom, identifier, Token.isKeyword, Lexeme.isLiteral, Lexeme.name?]
  exact .after (.done rfl)

omit within shorter in
theorem identifier_of_shorthand? {key : Token} {name : Text}
    (found : shorthand? key tokens = some name) : key.lexeme = .identifier name := by
  unfold shorthand? at found
  split at found
  · exact absurd found (by simp)
  · split at found
    · cases lexeme_eq : key.lexeme <;> simp [lexeme_eq, Lexeme.identifier?] at found
      rw [found]
    · exact absurd found (by simp)

include laid in
theorem standing_entry {key : Token} (within' : key :: tokens <:+ all) :
    (entry cx key tokens).Yields (StandingNodes cx all) := by
  rw [entry]
  split
  · next name found =>
    have identifier := identifier_of_shorthand? found
    have covers : Covers [key] (single (.reference name) key).span :=
      covers_enclosing (laid.suffix within') (.leaf key tokens) rfl
    have opened : Opened cx all [key] tokens (single (.reference name) key) := by
      refine .of_primary within' covers ?_ (gives_primary_of_identifier identifier tokens)
      rintro first ⟨⟩
      rw [identifier]
      rfl
    refine .done (allStanding_cons.mpr ⟨opened.standing ?_ ?_, allStanding_nil⟩)
    · rintro _ ⟨⟩
      exact ⟨key, within'.subset List.mem_cons_self, by rw [identifier]; rfl⟩
    · exact allStanding_cons.mpr ⟨standing_leaf key, allStanding_nil⟩
  · refine (standing_expect cx all ':' tokens).andThen fun colon rest suffix given standing => ?_
    refine (shorter rest (takes_expect given).length_lt (suffix.trans within)).pipe.map
      fun value _ standing' => ?_
    exact allStanding_cons.mpr ⟨standing_leaf key, allStanding_append.mpr
      ⟨standing, allStanding_cons.mpr ⟨standing', allStanding_nil⟩⟩⟩

theorem standing_entriesTail : (entriesTail cx tokens).Yields (StandingNodes cx all) := by
  cases tokens with
  | nil =>
    rw [entriesTail]
    exact .error
  | cons key tokens =>
    have inner := stands_of_cons within shorter rfl
    rw [entriesTail_cons]
    refine .after (((inner tokens List.suffix_rfl).entry within).andThen
      fun nodes rest suffix _ standing => ?_)
    have closes : ((expect cx '\x7d' rest).map fun ending => nodes ++ ending).Yields
        (StandingNodes cx all) :=
      (standing_expect cx all _ rest).map fun ending _ standing' =>
        allStanding_append.mpr ⟨standing, standing'⟩
    cases rest with
    | nil => exact closes
    | cons token rest =>
      rw [entriesEnd]
      split
      · refine .after ((inner rest ((List.suffix_cons token rest).trans suffix)).entriesTail.map
          fun more _ standing' => ?_)
        exact allStanding_append.mpr ⟨standing, allStanding_cons.mpr
          ⟨standing_leaf token, standing'⟩⟩
      · exact closes

theorem standing_entries : (entries cx tokens).Yields (StandingNodes cx all) := by
  cases tokens with
  | nil =>
    rw [entries]
    exact .error
  | cons token tokens =>
    rw [entries]
    split
    · exact .after (.done (by simp))
    · exact standing_entriesTail within shorter

end Grammar

theorem stands (laid : Laid source cx all) (tokens : List Token) (within : tokens <:+ all) :
    Stands cx all tokens := by
  have shorter : ∀ rest : List Token, rest.length < tokens.length → rest <:+ all →
      Stands cx all rest := fun rest _ later => stands laid rest later
  exact
    { pipe := standing_pipe laid within shorter
      pipeTail := standing_pipeTail within shorter
      pipeArgumentItems := standing_pipeArgumentItems within shorter
      assignment := standing_assignment laid within shorter
      binary := standing_binary laid within shorter
      binaryTail := standing_binaryTail within shorter
      exponentiation := standing_exponentiation laid within shorter
      prefixed := standing_prefixed laid within shorter
      postfixTail := standing_postfixTail laid within shorter
      items := standing_items laid within shorter
      itemsTail := standing_itemsTail laid within shorter
      entries := standing_entries within shorter
      entriesTail := standing_entriesTail within shorter
      entry := standing_entry laid within shorter }
termination_by tokens.length

theorem standing_chainTail (laid : Laid source cx all) (tokens : List Token)
    (within : tokens <:+ all) : (chainTail cx tokens).Yields (StandingNodes cx all) := by
  match tokens with
  | [] =>
    rw [chainTail]
    exact .done allStanding_nil
  | [token] =>
    rw [chainTail]
    split
    · exact .after (.done (by simp))
    · exact .done allStanding_nil
  | token :: next :: tokens =>
    have behind := (List.suffix_cons token (next :: tokens)).trans within
    rw [chainTail]
    split
    · refine .after ((stands laid _ behind).pipe.andThen fun value rest suffix _ standing => ?_)
      have less := suffix.length_le
      refine (standing_chainTail laid rest (suffix.trans behind)).map fun more _ standing' => ?_
      exact allStanding_cons.mpr ⟨standing_leaf token, allStanding_cons.mpr ⟨standing, standing'⟩⟩
    · exact .done allStanding_nil
termination_by tokens.length
decreasing_by
  simp only [List.length_cons] at *
  omega

theorem standing_chain (laid : Laid source cx tokens) :
    (chain cx tokens).Yields (StandingNodes cx tokens) := by
  cases tokens with
  | nil => exact .done allStanding_nil
  | cons token tokens =>
    rw [chain]
    refine (stands laid _ List.suffix_rfl).pipe.andThen fun first rest suffix _ standing => ?_
    have whole : AllStanding cx.mode (token :: tokens) [first] :=
      allStanding_cons.mpr ⟨standing, allStanding_nil⟩
    cases rest with
    | nil => exact .done whole
    | cons separator rest =>
      dsimp only
      split
      · refine .reporting ((standing_chainTail laid _ suffix).map fun more _ standing' => ?_)
        exact allStanding_cons.mpr ⟨standing_mk rfl rfl (allStanding_cons.mpr ⟨standing, standing'⟩),
          allStanding_nil⟩
      · exact .done whole

theorem standing_parse {offset : Nat} {text : Text} (stands : text.StandsAt offset source)
    (harmless : Harmless (parse mode offset text).2) :
    AllStanding mode (tokensAt offset text) (parse mode offset text).1 :=
  standing_chain (laid_tokensAt mode stands) (harmless_append.mp harmless).1

namespace Directive

theorem standing_variableNode (name : Text) (tokens : List Token) :
    Everywhere (Standing mode all) (variableNode name tokens) :=
  standing_mk rfl rfl (by simp [AllStanding])

theorem standing_variableEntry (cx : Context) (all : List Token) (keyword : Token)
    (tokens : List Token) : (variableEntry cx keyword tokens).Yields (StandingNodes cx all) := by
  have declared : ∀ name front, AllStanding cx.mode all [variableNode name front] :=
    fun name front => allStanding_cons.mpr ⟨standing_variableNode name front, allStanding_nil⟩
  unfold variableEntry
  split
  · exact .error
  · split
    · exact .error
    · split
      · exact fun _ => declared _ _
      · split
        · split
          · exact fun _ => declared _ _
          · split <;> exact fun _ => declared _ _
        · exact fun _ => declared _ _

theorem standing_aliasName (cx : Context) (all front tokens : List Token) :
    (aliasName cx front tokens).Yields (StandingNodes cx all) := by
  unfold aliasName
  split
  · exact .error
  · split
    · exact .after (.done (allStanding_cons.mpr ⟨standing_variableNode _ _, allStanding_nil⟩))
    · exact .error

theorem standing_optionalAlias (cx : Context) (all tokens : List Token) :
    (optionalAlias cx tokens).Yields (StandingNodes cx all) := by
  unfold optionalAlias
  split
  · exact .done allStanding_nil
  · split
    · exact .after (standing_aliasName cx all _ _)
    · exact .done allStanding_nil

theorem standing_ownExpression (laid : Laid source cx all) (within : tokens <:+ all)
    (directive : Text) : (ownExpression cx directive tokens).Yields (StandingNodes cx all) := by
  refine (stands laid tokens within).pipe.andThen fun value rest suffix _ standing => ?_
  refine (standing_optionalAlias cx all rest).map fun names _ standing' => ?_
  exact allStanding_cons.mpr ⟨standing_mk rfl rfl (by simp [standing]), standing'⟩

theorem standing_optionalColon (cx : Context) (all tokens : List Token) :
    (optionalColon tokens).Yields (StandingNodes cx all) := by
  unfold optionalColon
  split
  · exact .done allStanding_nil
  · split
    · exact .after (.done (by simp))
    · exact .done allStanding_nil

theorem standing_optionalValue (laid : Laid source cx all) (within : tokens <:+ all) :
    (optionalValue cx tokens).Yields (StandingNodes cx all) := by
  unfold optionalValue
  split
  · exact .done allStanding_nil
  · split
    · exact .done allStanding_nil
    · refine (stands laid _ within).pipe.map fun value _ standing => ?_
      exact allStanding_cons.mpr ⟨standing, allStanding_nil⟩

theorem standing_keyedExpression (laid : Laid source cx all) (within : tokens <:+ all)
    (directive key : Text) (token : Token) :
    (keyedExpression cx directive key token tokens).Yields (StandingNodes cx all) := by
  refine (standing_optionalColon cx all tokens).andThen fun colon rest suffix _ colon_standing => ?_
  refine (standing_optionalValue laid (suffix.trans within)).andThen
    fun value rest₁ _ _ value_standing => ?_
  refine (standing_optionalAlias cx all rest₁).map fun names _ names_standing => ?_
  refine allStanding_cons.mpr ⟨standing_mk rfl rfl (allStanding_cons.mpr ⟨standing_leaf token, ?_⟩),
    names_standing⟩
  exact allStanding_append.mpr ⟨colon_standing, value_standing⟩

theorem standing_entry (laid : Laid source cx all) (within : token :: tokens <:+ all)
    (directive : Text) (isFirst : Bool) :
    (entry cx directive isFirst token tokens).Yields (StandingNodes cx all) := by
  have behind := (List.suffix_cons token tokens).trans within
  unfold entry
  split
  · exact .after (standing_variableEntry cx all token tokens)
  split
  · exact standing_ownExpression laid within directive
  split
  · refine .after ?_
    unfold keyedEntry
    split
    · exact standing_keyedExpression laid behind directive _ token
    · split
      · exact .after (standing_aliasName cx all _ _)
      · exact standing_keyedExpression laid behind directive _ token
  · exact .error

theorem standing_entries (laid : Laid source cx all) (directive : Text) (isFirst : Bool)
    (tokens : List Token) (within : tokens <:+ all)
    (harmless : Harmless (entries cx directive isFirst tokens).2) :
    AllStanding cx.mode all (entries cx directive isFirst tokens).1 := by
  fun_induction entries cx directive isFirst tokens with
  | case1 => exact allStanding_nil
  | case2 isFirst token rest _ more ih =>
    have behind := (List.suffix_cons token rest).trans within
    exact allStanding_cons.mpr ⟨standing_leaf token, ih behind harmless⟩
  | case3 isFirst token rest _ first more ih₁ ih₂ =>
    have behind := (List.suffix_cons token rest).trans within
    obtain ⟨harmless₁, harmless₂⟩ := harmless_append.mp harmless
    refine allStanding_append.mpr ⟨standing_entry laid within directive isFirst harmless₁, ?_⟩
    simp only [more] at harmless₂ ⊢
    split at harmless₂
    · next shorter =>
      rw [dif_pos shorter]
      exact ih₁ shorter (first.rest_suffix.trans within) harmless₂
    · next longer =>
      rw [dif_neg longer]
      exact ih₂ behind harmless₂

theorem standing_parse {offset : Nat} {text : Text} (stands : text.StandsAt offset source)
    (directive : Text) (harmless : Harmless (parse directive offset text).2) :
    AllStanding .binding (tokensAt offset text) (parse directive offset text).1 :=
  standing_entries (laid_tokensAt .binding stands) directive true _ List.suffix_rfl harmless

end Directive

end Expression

end ComponentExtraction
