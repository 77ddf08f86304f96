import ComponentExtraction.Proofs.Expression.Entries
import ComponentExtraction.Proofs.Expression.Excerpt
import ComponentExtraction.Proofs.Expression.Shape

/-!
# How references are spelled

The tokens of a text are read one behind the other (`Scans`). Between them stands nothing
but blanks, and words, signs and numbers stand in the source as their lexemes say
(`InLine`). An identifier is therefore spelled by its name, and a member by its receiver, a
dot and its name, with blanks around the dot (`Node.SpelledOut`).
-/

namespace ComponentExtraction

namespace Cursor

theorem skip_cons {offset : Nat} {first : Char} {taken rest : Text} :
    (mk offset (first :: (taken ++ rest))).skip (taken.length + 1) =
      ⟨offset + Text.byteLength (first :: taken), rest⟩ := by
  rw [skip, List.take_succ_cons, List.drop_succ_cons, List.take_left, List.drop_left]

end Cursor

namespace Expression

open Node

namespace Lexeme

/-- Whether a lexeme is known by its spelling. A string is known by its value, and an
error by its message. -/
def isVerbatim : Lexeme → Bool
  | string _ | error _ => false
  | _ => true

theorem isVerbatim_of_name? {lexeme : Lexeme} {name : Text} (named : lexeme.name? = some name) :
    lexeme.isVerbatim = true ∧ lexeme.text = name := by
  cases lexeme <;> cases named <;> exact ⟨rfl, rfl⟩

theorem Keyword.word_of_ofWord? {text : Text} {k : Keyword} (found : Keyword.ofWord? text = some k) :
    k.word = text := by
  simpa using List.find?_some found

theorem symbol_of_operatorAt? {c : Char} {cs : Text} {operator : Operator}
    (found : operatorAt? (c :: cs) = some operator) :
    operator.symbol = c :: cs.take (operator.symbol.length - 1) := by
  rw [operatorAt?_eq] at found
  have starts := (beginsWith_iff.mp (List.find?_some found)).1
  cases symbol_eq : operator.symbol with
  | nil => cases operator <;> cases symbol_eq
  | cons first more =>
    rw [symbol_eq, List.cons_prefix_cons] at starts
    obtain ⟨rfl, starts⟩ := starts
    rw [List.length_cons, Nat.add_sub_cancel, ← List.prefix_iff_eq_take.mp starts]

/-- A lexeme that is known by its spelling is spelled so. -/
theorem text_of_read (expression : Text) (column : Nat) (c : Char) (cs : Text)
    (verbatim : (read expression column c cs).1.isVerbatim = true) :
    (read expression column c cs).1.text = c :: cs.take (read expression column c cs).2 := by
  unfold read at verbatim ⊢
  split
  · have run := List.prefix_iff_eq_take.mp (List.takeWhile_prefix (l := cs) Text.isIdentifierPart)
    unfold readWord
    dsimp only
    split
    · next k found => rw [← run]; exact Keyword.word_of_ofWord? found
    · rw [← run]; rfl
  next word =>
  rw [if_neg word] at verbatim
  split
  · rfl
  next number =>
  rw [if_neg number] at verbatim
  split
  · rfl
  next point =>
  rw [if_neg point] at verbatim
  split
  · rfl
  next punctuation =>
  rw [if_neg punctuation] at verbatim
  split
  · next quoted =>
    rw [if_pos quoted] at verbatim
    unfold readString at verbatim
    split at verbatim <;> cases verbatim
  · next unquoted =>
    rw [if_neg unquoted] at verbatim
    unfold readOperator at verbatim ⊢
    split
    · next operator found => exact symbol_of_operatorAt? found
    · next none => simp [none, isVerbatim] at verbatim

end Lexeme

theorem scanFrom_lexeme {expression blanks taken rest : Text} {offset : Nat} {first : Char}
    {lexeme : Lexeme} (run : ∀ a ∈ blanks, Text.isSpace a = true)
    (starts : Text.isSpace first = false)
    (read_eq : Lexeme.read expression (offset + blanks.byteLength) first (taken ++ rest) =
      (lexeme, taken.length)) :
    Token.scanFrom expression ⟨offset, blanks ++ first :: (taken ++ rest)⟩ =
      ⟨⟨offset + blanks.byteLength, offset + blanks.byteLength + Text.byteLength (first :: taken)⟩,
        lexeme⟩ :: Token.scanFrom expression
          ⟨offset + blanks.byteLength + Text.byteLength (first :: taken), rest⟩ := by
  have here : (Cursor.mk offset (blanks ++ first :: (taken ++ rest))).skipWhile Text.isSpace =
      ⟨offset + blanks.byteLength, first :: (taken ++ rest)⟩ :=
    Cursor.skipWhile_eq rfl run (by rintro _ ⟨⟩; exact starts)
  rw [Token.scanFrom_of_cons (by rw [here]), here, read_eq, Cursor.skip_cons]

theorem exists_blanks (kept : Text) :
    ∃ blanks rest : Text, kept = blanks ++ rest ∧ (∀ a ∈ blanks, Text.isSpace a = true) ∧
      ∀ a ∈ rest.head?, Text.isSpace a = false := by
  refine ⟨kept.takeWhile Text.isSpace, kept.dropWhile Text.isSpace,
    List.takeWhile_append_dropWhile.symm, List.all_eq_true.mp List.all_takeWhile, ?_⟩
  exact Cursor.head?_rest_skipWhile Text.isSpace ⟨0, kept⟩

/-- The tokens of a text from a cursor on: in front of each stand blanks, and the characters
of its lexeme are followed by what the next tokens are read from. -/
inductive Scans (expression : Text) : Cursor → List Token → Prop
  | nil {c : Cursor} (run : ∀ a ∈ c.rest, Text.isSpace a = true) : Scans expression c []
  | cons {offset : Nat} {blanks taken rest : Text} {first : Char} {lexeme : Lexeme}
      {tokens : List Token} (run : ∀ a ∈ blanks, Text.isSpace a = true)
      (starts : Text.isSpace first = false)
      (read_eq : Lexeme.read expression (offset + blanks.byteLength) first (taken ++ rest) =
        (lexeme, taken.length))
      (later : Scans expression
        ⟨offset + blanks.byteLength + Text.byteLength (first :: taken), rest⟩ tokens) :
      Scans expression ⟨offset, blanks ++ first :: (taken ++ rest)⟩
        (⟨⟨offset + blanks.byteLength,
          offset + blanks.byteLength + Text.byteLength (first :: taken)⟩, lexeme⟩ :: tokens)

theorem scans_scanFrom (expression : Text) (c : Cursor) :
    Scans expression c (Token.scanFrom expression c) := by
  -- Induction on the length of what is still to be read.
  generalize length_eq : c.rest.length = length
  induction length using Nat.strongRecOn generalizing c with
  | _ length ih =>
    obtain ⟨offset, text⟩ := c
    obtain ⟨blanks, rest, rfl, run, ends⟩ := exists_blanks text
    cases rest with
    | nil =>
      have none : (Cursor.mk offset (blanks ++ [])).skipWhile Text.isSpace =
          ⟨offset + blanks.byteLength, []⟩ := Cursor.skipWhile_eq rfl run (by simp)
      rw [Token.scanFrom_of_nil (by rw [none])]
      exact .nil (by simpa using run)
    | cons first rest =>
      have inside := Lexeme.read_le expression (offset + blanks.byteLength) first rest
      generalize read_eq : Lexeme.read expression (offset + blanks.byteLength) first rest = read
        at inside
      obtain ⟨lexeme, count⟩ := read
      obtain ⟨taken, left, rfl, rfl⟩ : ∃ taken left : Text, rest = taken ++ left ∧
          taken.length = count :=
        ⟨rest.take count, rest.drop count, (List.take_append_drop count rest).symm,
          List.length_take_of_le inside⟩
      rw [scanFrom_lexeme run (ends first rfl) read_eq]
      refine .cons run (ends first rfl) read_eq (ih left.length ?_ ⟨_, left⟩ rfl)
      rw [← length_eq]
      simp only [List.length_append, List.length_cons]
      omega

/-- Tokens stand in a source from a position on, spelled as their lexemes say, with nothing
but blanks in front of each. -/
inductive InLine (source : Text) : Nat → List Token → Prop
  | nil (here : Nat) : InLine source here []
  | cons {here : Nat} {token : Token} {tokens : List Token} {blanks : Text}
      (gap : source.slice? here token.span.start = some blanks)
      (run : ∀ a ∈ blanks, Text.isSpace a = true)
      (spelled : token.lexeme.isVerbatim = true →
        token.span.textIn? source = some token.lexeme.text)
      (later : InLine source token.span.stop tokens) : InLine source here (token :: tokens)

variable {source text : Text} {all tokens : List Token} {node : Node} {here : Nat}

theorem InLine.exists_append {front : List Token} (h : InLine source here (front ++ tokens)) :
    ∃ here', InLine source here' tokens := by
  induction front generalizing here with
  | nil => exact ⟨here, h⟩
  | cons token front ih =>
    cases h with
    | cons _ _ _ later => exact ih later

theorem InLine.textIn?_eq {token : Token} (h : InLine source here all) (within : token ∈ all)
    (verbatim : token.lexeme.isVerbatim = true) :
    token.span.textIn? source = some token.lexeme.text := by
  obtain ⟨front, back, rfl⟩ := List.append_of_mem within
  obtain ⟨here', h'⟩ := h.exists_append
  cases h' with
  | cons _ _ spelled _ => exact spelled verbatim

theorem Scans.inLine {expression : Text} {c : Cursor} (h : Scans expression c tokens) (base : Nat)
    (stands : c.rest.StandsAt (c.offset + base) source) :
    InLine source (c.offset + base) (tokens.map (Token.shift base)) := by
  induction h with
  | nil => exact .nil _
  | @cons offset blanks taken rest first lexeme tokens run _ read_eq later ih =>
    have spelling :=
      Lexeme.text_of_read expression (offset + blanks.byteLength) first (taken ++ rest)
    rw [read_eq, List.take_left] at spelling
    have taken_stands : Text.StandsAt (first :: taken) (offset + blanks.byteLength + base) source :=
      stands.within (a := blanks) (c := rest) (by simp) (by dsimp only; omega)
    have rest_stands : rest.StandsAt
        (offset + blanks.byteLength + Text.byteLength (first :: taken) + base) source := by
      refine stands.within (a := blanks ++ first :: taken) (c := []) (by simp) ?_
      rw [Text.byteLength_append]
      dsimp only
      omega
    refine .cons (?_ : _ = some blanks) run ?_ (ih rest_stands)
    · have found := stands.front.slice?_eq
      rwa [show offset + base + blanks.byteLength = offset + blanks.byteLength + base by omega]
        at found
    · intro verbatim
      have found := taken_stands.slice?_eq
      rw [Nat.add_right_comm _ base] at found
      exact found.trans (congrArg some (spelling verbatim).symm)

theorem inLine_tokensAt {offset : Nat} (stands : text.StandsAt offset source) :
    InLine source offset (tokensAt offset text) := by
  have line := (scans_scanFrom text (Cursor.start text)).inLine offset
    (by simpa [Cursor.start] using stands)
  rwa [Cursor.start, Nat.zero_add] at line

end Expression

/-- What stands between a receiver and the name of its member: a dot, which may check the
receiver, with blanks around it. -/
def Text.IsAccess (mark : Text) : Prop :=
  ∃ before dot behind : Text, mark = before ++ dot ++ behind ∧
    (dot = ".".toList ∨ dot = "?.".toList) ∧
    (∀ a ∈ before, isSpace a = true) ∧ ∀ a ∈ behind, isSpace a = true

/-- References are spelled as they are named. -/
structure Node.SpelledOut (source : Text) (node : Node) : Prop where
  identifier : ∀ name, node.identifier? = some name →
    name.IsIdentifier ∧ node.span.textIn? source = some name
  /-- A member is its receiver and its name, with a dot between the two. -/
  member : ∀ name receiver, node.kind = .reference name → node.qualifier? = some receiver →
    name.IsIdentifier ∧ ∃ mark : Text, mark.IsAccess ∧
      ∀ text, receiver.span.textIn? source = some text →
        node.span.textIn? source = some (text ++ mark ++ name)

theorem Node.SpelledOut.of_other {source : Text} {node : Node}
    (other : node.kind.isReference = false) : node.SpelledOut source := by
  refine ⟨fun name identifier => ?_, fun name receiver kind_eq => ?_⟩
  · rw [kind_of_identifier? identifier] at other
    cases other
  · rw [kind_eq] at other
    cases other

namespace Expression

open Node

variable {source text : Text} {all tokens : List Token} {node : Node} {here : Nat}

theorem isVerbatim_of_isAccess {dot : Token} (access : IsAccess dot) :
    dot.lexeme.isVerbatim = true ∧
      (dot.lexeme.text = ".".toList ∨ dot.lexeme.text = "?.".toList) := by
  rcases access with point | safe
  · rw [beq_iff_eq.mp point]
    exact ⟨rfl, .inl rfl⟩
  · rw [beq_iff_eq.mp safe]
    exact ⟨rfl, .inr rfl⟩

theorem exists_gap {blanks : Text} {a b c : Nat} (gap : source.slice? a c = some blanks)
    (run : ∀ a ∈ blanks, Text.isSpace a = true) (inside : source.Boundary b) (le : a ≤ b)
    (le' : b ≤ c) :
    ∃ later : Text, source.slice? b c = some later ∧ ∀ a ∈ later, Text.isSpace a = true := by
  obtain ⟨front, back, source_eq, start_eq, stop_eq⟩ := Text.slice?_eq_some_iff.mp gap
  have begins : source.Boundary a :=
    ⟨front, blanks ++ back, by rw [source_eq, List.append_assoc], start_eq⟩
  have ends : source.Boundary c :=
    ⟨front ++ blanks, back, source_eq, by rw [stop_eq, Text.byteLength_append]⟩
  obtain ⟨earlier, earlier_eq⟩ := begins.exists_slice? inside le
  obtain ⟨later, later_eq⟩ := inside.exists_slice? ends le'
  have whole := (Text.slice?_append earlier_eq later_eq).symm.trans gap
  cases whole
  exact ⟨later, later_eq, fun a member => run a (List.mem_append_right earlier member)⟩

theorem InLine.exists_access {before dot last : Token} {receiver : Node} {name : Text}
    (h : InLine source here all) (within : [before, dot, last] <:+: all)
    (access : IsAccess dot) (named : last.lexeme.name? = some name)
    (reaches : before.span.stop ≤ receiver.span.stop) (stop : source.Boundary receiver.span.stop)
    (inside : receiver.span.stop ≤ dot.span.start) : ∃ mark : Text, mark.IsAccess ∧
      source.slice? receiver.span.stop last.span.stop = some (mark ++ name) := by
  obtain ⟨front, back, rfl⟩ := within
  rw [List.append_assoc] at h
  obtain ⟨_, h⟩ := h.exists_append
  cases h with
  | cons _ _ _ h =>
  cases h with
  | cons gap run dot_spelled h =>
  cases h with
  | @cons _ _ _ behind gap' run' last_spelled _ =>
    obtain ⟨between, between_eq, between_run⟩ := exists_gap gap run stop reaches inside
    obtain ⟨dot_verbatim, dot_text⟩ := isVerbatim_of_isAccess access
    obtain ⟨verbatim, last_text⟩ := Lexeme.isVerbatim_of_name? named
    refine ⟨between ++ dot.lexeme.text ++ behind,
      ⟨between, _, behind, rfl, dot_text, between_run, run'⟩, ?_⟩
    rw [← last_text]
    exact Text.slice?_append (Text.slice?_append
      (Text.slice?_append between_eq (dot_spelled dot_verbatim)) gap') (last_spelled verbatim)

theorem Formed.spelledOut (h : Formed all node) (regular : Everywhere (Regular source) node)
    (named : Named all) (line : InLine source here all) : node.SpelledOut source := by
  cases h with
  | leaf span => exact .of_other rfl
  | pipeName name token => exact .of_other rfl
  | call leads => exact .of_other rfl
  | arguments opening nodes => exact .of_other rfl
  | @compound kind first compound =>
    refine .of_other ?_
    cases kind <;> first | rfl | cases compound
  | nameless leads dot =>
    exact ⟨by simp [identifier?, Node.enclosing], by simp [qualifier?, Node.enclosing]⟩
  | @identifier token name within name_eq =>
    obtain ⟨verbatim, text_eq⟩ := Lexeme.isVerbatim_of_name? name_eq
    have spelled := line.textIn?_eq within verbatim
    rw [text_eq] at spelled
    have ordered : token.span.start ≤ token.span.stop := by
      obtain ⟨_, _, -, start_eq, stop_eq⟩ := Text.slice?_eq_some_iff.mp spelled
      omega
    refine ⟨fun name' identifier => ?_, by simp [qualifier?, single, Node.enclosing]⟩
    cases kind_of_identifier? identifier
    refine ⟨named _ within _ name_eq, ?_⟩
    have stop_eq : max token.span.start token.span.stop = token.span.stop := Nat.max_eq_right ordered
    rw [← spelled]
    exact congrArg (source.slice? token.span.start) stop_eq
  | @member before dot last receiver name within reaches leads access name_eq =>
    refine ⟨by simp [identifier?, Node.enclosing], fun name' receiver' kind_eq qualified => ?_⟩
    cases kind_eq
    cases qualified
    have first := (regular.of_mem_children receiver List.mem_cons_self).here
    obtain ⟨-, -, inside, -⟩ := regular.here.fits
    obtain ⟨mark, isAccess, found⟩ :=
      line.exists_access within access name_eq reaches first.stop inside
    have whole := named last (within.subset (by simp)) name name_eq
    refine ⟨whole, mark, isAccess, fun text text_eq => ?_⟩
    have joined := Text.slice?_append text_eq found
    rw [← List.append_assoc] at joined
    have stop_eq : max receiver.span.start last.span.stop = last.span.stop := by
      obtain ⟨_, _, -, start_eq, stop_eq⟩ := Text.slice?_eq_some_iff.mp joined
      omega
    rw [← joined]
    exact congrArg (source.slice? receiver.span.start) stop_eq

theorem spelledOut_of_formed (h : Everywhere (Formed all) node)
    (regular : Everywhere (Regular source) node) (named : Named all) (line : InLine source here all) :
    Everywhere (SpelledOut source) node := by
  induction h with
  | intro here below ih =>
    refine .intro (here.spelledOut regular named line) fun child member => ?_
    exact ih child member (regular.of_mem_children child member)

/-- Every reference of an expression is spelled as it is named. -/
theorem spelledOut_parse {mode : Mode} {offset : Nat} (stands : text.StandsAt offset source) :
    ∀ node ∈ (parse mode offset text).1, Everywhere (SpelledOut source) node := by
  intro node member
  obtain ⟨⟨placed, -⟩, -⟩ := found_parse mode stands
  exact spelledOut_of_formed (formed_parse mode offset text node member).2
    (placed.regular node member) (named_tokensAt offset text) (inLine_tokensAt stands)

/-- The same holds of the value of a structural directive. -/
theorem Directive.spelledOut_parse {directive : Text} {offset : Nat}
    (stands : text.StandsAt offset source) :
    ∀ node ∈ (parse directive offset text).1, Everywhere (SpelledOut source) node := by
  intro node member
  obtain ⟨placed, -⟩ := found_parse directive stands
  exact spelledOut_of_formed (formed_parse directive offset text node member).2
    (placed.regular node member) (named_tokensAt offset text) (inLine_tokensAt stands)

end Expression

end ComponentExtraction
