import ComponentExtraction.Proofs.Expression.Leaves

/-!
# Parsed expressions are shaped

Every tree that the expression parser builds is `Node.Shaped` and `Node.Headed`
throughout, as each of its nodes is put together from tokens. Of tokens it is needed
that they are not empty, and that a name is a word (`Named`).
-/

namespace ComponentExtraction

def Text.IsIdentifier (text : Text) : Prop :=
  ∃ first more, text = first :: more ∧ isIdentifierStart first = true ∧
    ∀ c ∈ more, isIdentifierPart c = true

theorem Text.IsIdentifier.ne_nil {text : Text} (h : text.IsIdentifier) : text ≠ [] := by
  obtain ⟨first, more, rfl, -⟩ := h
  exact List.cons_ne_nil first more

namespace Expression

open Node

/-- Names among the tokens are spelled as identifiers. -/
def Named (tokens : List Token) : Prop :=
  ∀ token ∈ tokens, ∀ name, token.lexeme.name? = some name → name.IsIdentifier

theorem Keyword.isIdentifier_word (k : Keyword) : k.word.IsIdentifier := by
  cases k <;> exact ⟨_, _, rfl, by decide, List.all_eq_true.mp (by decide)⟩

theorem Lexeme.isIdentifier_of_read {expression : Text} {column : Nat} {c : Char} {cs name : Text}
    (named : (Lexeme.read expression column c cs).1.name? = some name) : name.IsIdentifier := by
  unfold read at named
  split at named
  · next starts =>
    unfold readWord at named
    dsimp only at named
    split at named
    · next k _ =>
      cases named
      exact k.isIdentifier_word
    · cases named
      exact ⟨c, _, rfl, starts, List.all_eq_true.mp List.all_takeWhile⟩
  -- No other reader gives a name.
  split at named
  · exact absurd named (by simp [readNumber, name?])
  split at named
  · exact absurd named (by simp [name?])
  split at named
  · exact absurd named (by simp [name?])
  split at named
  · unfold readString at named
    split at named <;> exact absurd named (by simp [name?])
  · unfold readOperator at named
    split at named <;> exact absurd named (by simp [name?])

theorem named_scanFrom (expression : Text) (c : Cursor) : Named (Token.scanFrom expression c) := by
  fun_induction Token.scanFrom expression c with
  | case1 => simp [Named]
  | case2 c first rest h here read ih =>
    intro token member
    rcases List.mem_cons.mp member with rfl | later
    · intro name named
      exact Lexeme.isIdentifier_of_read named
    · exact ih token later

theorem named_tokensAt (offset : Nat) (text : Text) : Named (tokensAt offset text) := by
  intro token member
  obtain ⟨original, found, rfl⟩ := List.mem_map.mp member
  exact named_scanFrom text _ original found

variable {all : List Token} {node : Node}

theorem Formed.shaped (h : Formed all node) (named : Named all) :
    Shaped node.kind node.children := by
  cases h with
  | leaf span => exact .token
  | identifier within name_eq => exact .identifier _ (named _ within _ name_eq).ne_nil
  | pipeName name token => exact .other _ (by simp) rfl rfl
  | member within reaches leads access name_eq => exact .member _ _ _ _
  | nameless leads dot => exact .nameless _ _
  | call leads marks_kind arguments => exact .call _ marks_kind arguments
  | arguments opening nodes => exact .other _ (by simp [Node.enclosing]) rfl rfl
  | @compound kind _ compound =>
    refine .other _ ?_ ?_ ?_
    all_goals
      cases kind <;> simp [Kind.isCompound, Kind.isReference, Kind.isCall, Node.enclosing] at *

theorem Formed.headed (h : Formed all node)
    (solid : ∀ token ∈ all, token.span.start < token.span.stop) : node.Headed := by
  cases h with
  | leaf span => exact ⟨by simp [Node.leaf], by simp [identifier?, Node.leaf]⟩
  | @identifier token name within =>
    refine ⟨by simp [single, Node.enclosing, Token.leaf, Node.leaf, Kind.leads], fun _ _ => ?_⟩
    exact Nat.lt_of_lt_of_le (solid token within) (Nat.le_max_right _ _)
  | pipeName name token =>
    exact ⟨by simp [Token.leaf, Node.leaf, Kind.leads], by simp [identifier?]⟩
  | member within reaches leads =>
    exact ⟨by simp [Node.enclosing, leads], by simp [identifier?, Node.enclosing]⟩
  | nameless leads =>
    exact ⟨by simp [Node.enclosing, leads], by simp [identifier?, Node.enclosing]⟩
  | call leads =>
    exact ⟨by simp [Node.enclosing, leads], by simp [identifier?, Node.enclosing]⟩
  | arguments opening nodes =>
    exact ⟨by simp [Node.enclosing, Token.leaf, Node.leaf, Kind.leads],
      by simp [identifier?, Node.enclosing]⟩
  | @compound kind first compound start leads nodes =>
    refine ⟨by simp [Node.enclosing, leads], ?_⟩
    cases kind <;> simp [Kind.isCompound] at compound <;> simp [identifier?, Node.enclosing]

theorem shaped_of_formed (h : Everywhere (Formed all) node) (named : Named all) :
    Every Shaped node := by
  induction h with
  | @intro node here below ih =>
    cases node with
    | mk kind span children => exact .intro (here.shaped named) ih

theorem shaped_parse (mode : Mode) (offset : Nat) (text : Text) :
    ∀ node ∈ (parse mode offset text).1, Every Shaped node :=
  fun node member =>
    shaped_of_formed (formed_parse mode offset text node member).2 (named_tokensAt offset text)

theorem Directive.shaped_parse (directive : Text) (offset : Nat) (text : Text) :
    ∀ node ∈ (parse directive offset text).1, Every Shaped node :=
  fun node member =>
    shaped_of_formed (formed_parse directive offset text node member).2 (named_tokensAt offset text)

/-- Every tree of an expression starts with a token or an operand, as do the nodes below. -/
theorem headed_parse (mode : Mode) (offset : Nat) (text : Text) :
    ∀ node ∈ (parse mode offset text).1, node.kind.leads = true ∧ Everywhere Headed node := by
  intro node member
  obtain ⟨leads, formed⟩ := formed_parse mode offset text node member
  exact ⟨leads, formed.mono fun _ here => here.headed (solid_tokensAt offset text)⟩

theorem Directive.headed_parse (directive : Text) (offset : Nat) (text : Text) :
    ∀ node ∈ (parse directive offset text).1, node.kind.leads = true ∧ Everywhere Headed node := by
  intro node member
  obtain ⟨leads, formed⟩ := formed_parse directive offset text node member
  exact ⟨leads, formed.mono fun _ here => here.headed (solid_tokensAt offset text)⟩

end Expression

end ComponentExtraction
