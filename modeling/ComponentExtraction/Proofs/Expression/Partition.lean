import ComponentExtraction.Proofs.Expression.Spelling

/-!
# How tokens divide a text

Every token was read at its own place in the text (`Token.ReadFrom`). From that follows what
holds of a token by itself: the bytes it covers, its spelling, where a word ends, and that
its text is read as this token again. What holds between tokens follows along the line in
which they were read. `partition_scan` puts both together.
-/

namespace ComponentExtraction

/-- A character of two texts that follow each other is in the first or in the second. -/
theorem Text.append_eq_cons_cases {xs ys front back : Text} {a : Char}
    (split : xs ++ ys = front ++ a :: back) :
    (∃ more : Text, xs = front ++ a :: more) ∨
      ∃ more : Text, front = xs ++ more ∧ ys = more ++ a :: back := by
  rcases List.append_eq_append_iff.mp split with ⟨more, front_eq, ys_eq⟩ | ⟨more, xs_eq, back_eq⟩
  · exact .inr ⟨more, front_eq, ys_eq⟩
  · cases more with
    | nil => exact .inr ⟨[], by rw [xs_eq, List.append_nil, List.append_nil], back_eq.symm⟩
    | cons b more =>
      obtain ⟨rfl, -⟩ := List.cons.inj back_eq
      exact .inl ⟨more, xs_eq⟩

namespace Expression

theorem Lexeme.head?_of_readWord {expression taken rest : Text} {column : Nat} {first : Char}
    {lexeme : Lexeme} {name : Text} (named : lexeme.name? = some name)
    (read_eq : Lexeme.read expression column first (taken ++ rest) = (lexeme, taken.length)) :
    ∀ a ∈ rest.head?, Text.isIdentifierPart a = false := by
  have spelling := text_of_read expression column first (taken ++ rest)
  rw [read_eq, List.take_left] at spelling
  obtain ⟨verbatim, text_eq⟩ := isVerbatim_of_name? named
  have word : name = first :: taken := text_eq.symm.trans (spelling verbatim)
  obtain ⟨_, _, name_eq, starts, -⟩ : name.IsIdentifier :=
    isIdentifier_of_read (show (Lexeme.read expression column first (taken ++ rest)).1.name? = _ by
      rw [read_eq]; exact named)
  cases word.symm.trans name_eq
  rw [read, if_pos starts] at read_eq
  have length_eq : ((taken ++ rest).takeWhile Text.isIdentifierPart).length = taken.length := by
    unfold readWord at read_eq
    dsimp only at read_eq
    split at read_eq <;> exact congrArg Prod.snd read_eq
  have run : (taken ++ rest).takeWhile Text.isIdentifierPart = taken :=
    (List.prefix_of_prefix_length_le (List.takeWhile_prefix _) (List.prefix_append taken rest)
      (Nat.le_of_eq length_eq)).eq_of_length length_eq
  have split := List.takeWhile_append_dropWhile (p := Text.isIdentifierPart) (l := taken ++ rest)
  rw [run] at split
  have ends := List.head?_dropWhile_not Text.isIdentifierPart (taken ++ rest)
  rw [List.append_cancel_left split] at ends
  intro a first_eq
  rw [Option.mem_def.mp first_eq] at ends
  exact ends

variable {text : Text} {token : Token} {tokens : List Token} {c : Cursor}

namespace Token

def ReadFrom (text : Text) (token : Token) : Prop :=
  ∃ (before : Text) (first : Char) (taken rest : Text), text = before ++ first :: taken ++ rest ∧
    token.span = ⟨before.byteLength, before.byteLength + Text.byteLength (first :: taken)⟩ ∧
    Text.isSpace first = false ∧
    Lexeme.read text before.byteLength first (taken ++ rest) = (token.lexeme, taken.length)

namespace ReadFrom

theorem solid (h : token.ReadFrom text) : token.span.start < token.span.stop ∧
    text.Boundary token.span.start ∧ text.Boundary token.span.stop := by
  obtain ⟨before, first, taken, rest, text_eq, span_eq, -⟩ := h
  have stands : Text.StandsAt (first :: taken) before.byteLength text :=
    ⟨before, rest, text_eq, rfl⟩
  rw [span_eq]
  refine ⟨?_, stands.start, stands.stop⟩
  exact Nat.lt_add_of_pos_right (Text.byteLength_pos (List.cons_ne_nil first taken))

theorem spelled (h : token.ReadFrom text) (verbatim : token.lexeme.isVerbatim = true) :
    token.span.textIn? text = some token.lexeme.text := by
  obtain ⟨before, first, taken, rest, text_eq, span_eq, -, read_eq⟩ := h
  have stands : Text.StandsAt (first :: taken) before.byteLength text :=
    ⟨before, rest, text_eq, rfl⟩
  have spelling := Lexeme.text_of_read text before.byteLength first (taken ++ rest)
  rw [read_eq, List.take_left] at spelling
  rw [spelling verbatim, span_eq]
  exact stands.slice?_eq

theorem whole {name : Text} {a : Char} (h : token.ReadFrom text)
    (named : token.lexeme.name? = some name) (behind : Text.StandsAt [a] token.span.stop text) :
    Text.isIdentifierPart a = false := by
  obtain ⟨before, first, taken, rest, text_eq, span_eq, -, read_eq⟩ := h
  obtain ⟨front, back, text_eq', stop_eq⟩ := behind
  rw [span_eq] at stop_eq
  have same : before ++ first :: taken ++ rest = front ++ a :: back := by
    rw [← text_eq, text_eq', List.append_assoc]
    rfl
  rw [← Text.byteLength_append] at stop_eq
  obtain ⟨-, rfl⟩ := Text.append_inj_of_byteLength same stop_eq
  exact Lexeme.head?_of_readWord named read_eq a rfl

/-- The text of the token is read as the same token, but at its own start. -/
theorem alone (h : token.ReadFrom text) (accepted : ∀ cause, token.lexeme ≠ .error cause) :
    ∃ excerpt, token.span.textIn? text = some excerpt ∧
      Token.scan excerpt = [⟨⟨0, excerpt.byteLength⟩, token.lexeme⟩] := by
  obtain ⟨before, first, taken, rest, text_eq, span_eq, starts, read_eq⟩ := h
  have stands : Text.StandsAt (first :: taken) before.byteLength text :=
    ⟨before, rest, text_eq, rfl⟩
  refine ⟨first :: taken, ?_, ?_⟩
  · rw [span_eq]
    exact stands.slice?_eq
  · have joined : ¬ Lexeme.SplitsFraction taken rest := by
      rintro ⟨rfl, digit⟩
      exact Lexeme.read_fraction_ne_one digit (congrArg Prod.snd read_eq)
    obtain ⟨alike, length_eq⟩ := Lexeme.read_of_cut (first :: taken) 0 joined
      (Nat.le_of_eq (congrArg Prod.snd read_eq))
    rw [read_eq] at alike length_eq
    have again : Lexeme.read (first :: taken) (0 + Text.byteLength []) first (taken ++ []) =
        (token.lexeme, taken.length) := by
      rw [List.append_nil]
      exact Prod.ext (alike.eq_of_accepted accepted) length_eq
    have scanned := scanFrom_lexeme (by simp) starts again
    have nothing : ∀ n, scanFrom (first :: taken) ⟨n, []⟩ = [] := fun n => scanFrom_of_nil rfl
    rw [nothing, List.nil_append, List.append_nil, Text.byteLength_nil, Nat.zero_add,
      Nat.zero_add] at scanned
    exact scanned

end ReadFrom

end Token

namespace Scans

variable {expression : Text}

theorem readFrom (h : Scans text c tokens) (reached : (Cursor.start text).Reaches c) :
    ∀ token ∈ tokens, token.ReadFrom text := by
  induction h with
  | nil => simp
  | @cons offset blanks taken rest first lexeme tokens run starts read_eq later ih =>
    obtain ⟨before, text_eq, offset_eq⟩ := reached
    have text_eq : text = before ++ (blanks ++ first :: (taken ++ rest)) := text_eq
    have offset_eq : offset + blanks.byteLength = (before ++ blanks).byteLength := by
      rw [show offset = before.byteLength from offset_eq.trans (Nat.zero_add _),
        Text.byteLength_append]
    rw [offset_eq] at read_eq ih ⊢
    refine List.forall_mem_cons.mpr ⟨⟨before ++ blanks, first, taken, rest, ?_⟩, ih ?_⟩
    · exact ⟨by rw [text_eq]; simp, rfl, starts, read_eq⟩
    · refine ⟨before ++ blanks ++ first :: taken, ?_, ?_⟩
      · rw [Cursor.rest_start, text_eq]
        simp
      · rw [Text.byteLength_append _ (first :: taken)]
        exact (Nat.zero_add _).symm

theorem ordered (h : Scans expression c tokens) :
    (∀ token ∈ tokens, c.offset ≤ token.span.start) ∧
      tokens.Pairwise fun token next => token.span.stop ≤ next.span.start := by
  induction h with
  | nil => exact ⟨by simp, .nil⟩
  | cons run starts read_eq later ih =>
    obtain ⟨behind, ordered⟩ := ih
    refine ⟨List.forall_mem_cons.mpr ⟨Nat.le_add_right _ _, fun token member => ?_⟩,
      .cons behind ordered⟩
    have := behind token member
    dsimp only at this ⊢
    omega

theorem blank {front back : Text} {a : Char} (h : Scans expression c tokens)
    (rest_eq : c.rest = front ++ a :: back)
    (outside : ∀ token ∈ tokens, token.span.contains (c.offset + front.byteLength) = false) :
    Text.isSpace a = true := by
  induction h generalizing front with
  | nil run => exact run a (by simp [rest_eq])
  | @cons offset blanks taken rest first lexeme tokens run starts read_eq later ih =>
    obtain ⟨outside, later_outside⟩ := List.forall_mem_cons.mp outside
    have rest_eq : blanks ++ first :: (taken ++ rest) = front ++ a :: back := rest_eq
    obtain ⟨more, rfl⟩ | ⟨behind, rfl, behind_eq⟩ := Text.append_eq_cons_cases rest_eq
    · exact run a (by simp)
    rw [← List.cons_append] at behind_eq
    rw [Text.byteLength_append, ← Nat.add_assoc] at outside later_outside
    obtain ⟨more, taken_eq⟩ | ⟨further, rfl, later_eq⟩ := Text.append_eq_cons_cases behind_eq
    · -- The character is one of the token's own.
      have inside := Text.byteLength_pos (List.cons_ne_nil a more)
      rw [taken_eq, Text.byteLength_append] at outside
      simp only [Span.contains, Bool.and_eq_false_iff, decide_eq_false_iff_not] at outside
      omega
    · refine ih later_eq fun token member => ?_
      have outside := later_outside token member
      rwa [Text.byteLength_append, ← Nat.add_assoc] at outside

end Scans

/-- Some tokens divide a text: they follow each other and leave out nothing but blanks, and
each of them is known by its own characters. -/
structure Partition (text : Text) (tokens : List Token) : Prop where
  solid : ∀ token ∈ tokens, token.span.start < token.span.stop ∧
    text.Boundary token.span.start ∧ text.Boundary token.span.stop
  ordered : tokens.Pairwise fun token next => token.span.stop ≤ next.span.start
  blank : ∀ a offset, Text.StandsAt [a] offset text →
    (∀ token ∈ tokens, token.span.contains offset = false) → Text.isSpace a = true
  spelled : ∀ token ∈ tokens, token.lexeme.isVerbatim = true →
    token.span.textIn? text = some token.lexeme.text
  whole : ∀ token ∈ tokens, ∀ name, token.lexeme.name? = some name →
    ∀ a, Text.StandsAt [a] token.span.stop text → Text.isIdentifierPart a = false
  alone : ∀ token ∈ tokens, (∀ cause, token.lexeme ≠ .error cause) →
    ∃ excerpt, token.span.textIn? text = some excerpt ∧
      Token.scan excerpt = [⟨⟨0, excerpt.byteLength⟩, token.lexeme⟩]

/-- Every text is divided into its tokens: nothing but blanks
stands between them, and each is known by its own characters. -/
theorem partition_scan (text : Text) : Partition text (Token.scan text) := by
  have scans : Scans text (Cursor.start text) (Token.scan text) := scans_scanFrom text _
  have readFrom := scans.readFrom (.refl _)
  refine ⟨fun token member => (readFrom token member).solid, scans.ordered.2, ?_,
    fun token member => (readFrom token member).spelled,
    fun token member name named a behind => (readFrom token member).whole named behind,
    fun token member => (readFrom token member).alone⟩
  rintro a offset ⟨front, back, text_eq, rfl⟩ outside
  refine scans.blank (show _ = front ++ a :: back from ?_) ?_
  · rw [Cursor.rest_start, text_eq, List.append_assoc]
    rfl
  · rw [show (Cursor.start text).offset = 0 from rfl, Nat.zero_add]
    exact outside

example : (Token.scan "a ?.5:.b".toList).map Token.span =
    [⟨0, 1⟩, ⟨2, 3⟩, ⟨3, 5⟩, ⟨5, 6⟩, ⟨6, 7⟩, ⟨7, 8⟩] := by
  decide +kernel

end Expression

end ComponentExtraction
