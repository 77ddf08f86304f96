import ComponentExtraction.Proofs.Expression.Standing

/-!
# Tokens of excerpts

A text that reaches from the start of a token to the end of a token is divided
into tokens as it was inside the expression that it is taken from
(`exists_excerpt`). Whether a lexeme goes on is told by the characters behind it,
and none of them is missed where the text ends behind the lexeme. One lexeme is
told by more: a conditional mark in front of a decimal fraction, of which both the
point and the first digit belong to the next lexeme.
-/

namespace ComponentExtraction

namespace Expression

variable {kept cut : Text}

namespace Lexeme

/-- Cutting a text behind a run of characters leaves the run. -/
theorem takeWhile_of_cut {p : Char → Bool}
    (inside : ((kept ++ cut).takeWhile p).length ≤ kept.length) :
    kept.takeWhile p = (kept ++ cut).takeWhile p := by
  rw [List.takeWhile_append] at inside ⊢
  split
  · next all =>
    rw [if_pos all, List.length_append] at inside
    have none : cut.takeWhile p = [] := List.eq_nil_of_length_eq_zero (by omega)
    rw [none, List.append_nil]
    exact (List.takeWhile_prefix p).eq_of_length all
  · rfl

theorem numberLength_of_cut {seen : Bool}
    (inside : numberLength seen (kept ++ cut) ≤ kept.length) :
    numberLength seen kept = numberLength seen (kept ++ cut) := by
  fun_induction numberLength seen kept with
  | case1 seen => exact (Nat.le_zero.mp inside).symm
  | case2 seen c cs digit ih =>
    rw [List.cons_append, numberLength_cons, if_pos digit] at inside ⊢
    rw [ih (Nat.le_of_succ_le_succ inside)]
  | case3 seen c digit mark =>
    rw [List.cons_append, numberLength_cons, if_neg digit, if_pos mark] at inside ⊢
    cases cut with
    | nil => rfl
    | cons sign rest =>
      simp only [List.nil_append, List.length_cons, List.length_nil] at inside ⊢
      split at inside
      · omega
      · next unsigned =>
        rw [if_neg unsigned]
        omega
  | case4 seen c digit mark sign rest signed ih =>
    rw [List.cons_append, List.cons_append, numberLength_cons seen c, if_neg digit,
      if_pos mark] at inside ⊢
    dsimp only at inside ⊢
    rw [if_pos signed] at inside ⊢
    simp only [List.length_cons] at inside
    rw [ih (by omega)]
  | case5 seen c digit mark sign rest signed ih =>
    rw [List.cons_append, List.cons_append, numberLength_cons seen c, if_neg digit,
      if_pos mark] at inside ⊢
    dsimp only at inside ⊢
    rw [if_neg signed] at inside ⊢
    rw [ih (Nat.le_of_succ_le_succ inside), List.cons_append]
  | case6 seen c cs digit mark =>
    rw [List.cons_append, numberLength_cons, if_neg digit, if_neg mark]

theorem quotedValue?_of_cut {quote : Char} {value : Text × Nat}
    (found : quotedValue? quote (kept ++ cut) = some value) (inside : value.2 ≤ kept.length) :
    quotedValue? quote kept = some value := by
  fun_induction quotedValue? quote kept generalizing value with
  | case1 =>
    have := quotedValue?_pos found
    rw [List.length_nil] at inside
    omega
  | case2 cs =>
    rw [List.cons_append, quotedValue?_cons, if_pos rfl] at found
    exact found
  | case3 other =>
    rw [List.cons_append, quotedValue?_cons, if_neg other, if_pos rfl] at found
    cases cut with
    | nil => exact found
    | cons escaped rest =>
      obtain ⟨inner, inner_eq, rfl⟩ := Option.map_eq_some_iff.mp found
      have := quotedValue?_pos inner_eq
      simp only [List.length_cons, List.length_nil] at inside
      omega
  | case4 escaped rest other ih =>
    rw [List.cons_append, quotedValue?_cons, if_neg other, if_pos rfl] at found
    obtain ⟨inner, inner_eq, rfl⟩ := Option.map_eq_some_iff.mp found
    simp only [List.length_cons] at inside
    rw [ih inner_eq (by omega)]
    rfl
  | case5 c cs other plain ih =>
    rw [List.cons_append, quotedValue?_cons, if_neg other, if_neg plain] at found
    obtain ⟨inner, inner_eq, rfl⟩ := Option.map_eq_some_iff.mp found
    simp only [List.length_cons] at inside
    rw [ih inner_eq (by omega)]
    rfl

theorem startsWithDigit_append (nonempty : kept ≠ []) :
    startsWithDigit (kept ++ cut) = startsWithDigit kept := by
  cases kept with
  | nil => exact absurd rfl nonempty
  | cons c cs => rfl

def beginsWith (text : Text) (operator : Operator) : Bool :=
  operator.symbol.isPrefixOf text &&
    !(operator == .safeAccess && startsWithDigit (text.drop 2))

theorem operatorAt?_eq (text : Text) : operatorAt? text = Operator.all.find? (beginsWith text) :=
  rfl

theorem beginsWith_iff {text : Text} {operator : Operator} : beginsWith text operator = true ↔
    operator.symbol <+: text ∧
      (operator = .safeAccess → startsWithDigit (text.drop 2) = false) := by
  rw [beginsWith, Bool.and_eq_true, List.isPrefixOf_iff_prefix]
  by_cases safe : operator = .safeAccess <;> simp [safe]

structure SplitsFraction (kept cut : Text) : Prop where
  point : kept = ['.']
  digit : startsWithDigit cut = true

theorem beginsWith_append {c : Char} {operator : Operator} (whole : ¬ SplitsFraction kept cut)
    (begins : beginsWith (c :: kept) operator = true) :
    beginsWith (c :: (kept ++ cut)) operator = true := by
  obtain ⟨starts, noFraction⟩ := beginsWith_iff.mp begins
  have starts' : operator.symbol <+: c :: (kept ++ cut) := starts.trans (List.prefix_append _ cut)
  refine beginsWith_iff.mpr ⟨starts', ?_⟩
  rintro rfl
  obtain ⟨more, text_eq⟩ := starts
  obtain ⟨rfl, rfl⟩ : '?' = c ∧ '.' :: more = kept := List.cons.inj text_eq
  cases more with
  | nil => exact Bool.eq_false_iff.mpr fun digit => whole ⟨rfl, digit⟩
  | cons digit more => exact noFraction rfl

theorem beginsWith_of_cut {c : Char} {operator : Operator}
    (begins : beginsWith (c :: (kept ++ cut)) operator = true)
    (inside : operator.symbol.length ≤ kept.length + 1) :
    beginsWith (c :: kept) operator = true := by
  obtain ⟨starts, noFraction⟩ := beginsWith_iff.mp begins
  have starts' : operator.symbol <+: c :: kept :=
    List.prefix_of_prefix_length_le starts (List.prefix_append (c :: kept) cut) inside
  refine beginsWith_iff.mpr ⟨starts', ?_⟩
  rintro rfl
  obtain ⟨more, text_eq⟩ := starts'
  obtain ⟨rfl, rfl⟩ : '?' = c ∧ '.' :: more = kept := List.cons.inj text_eq
  cases more with
  | nil => rfl
  | cons digit more => exact noFraction rfl

theorem operatorAt?_of_cut {c : Char} (whole : ¬ SplitsFraction kept cut)
    (inside : ∀ operator, operatorAt? (c :: (kept ++ cut)) = some operator →
      operator.symbol.length ≤ kept.length + 1) :
    operatorAt? (c :: kept) = operatorAt? (c :: (kept ++ cut)) := by
  simp only [operatorAt?_eq] at inside ⊢
  cases found : Operator.all.find? (beginsWith (c :: (kept ++ cut))) with
  | none =>
    rw [List.find?_eq_none] at found ⊢
    intro operator member begins
    exact found operator member (beginsWith_append whole begins)
  | some operator =>
    obtain ⟨begins, front, back, all_eq, earlier⟩ := List.find?_eq_some_iff_append.mp found
    refine List.find?_eq_some_iff_append.mpr
      ⟨beginsWith_of_cut begins (inside operator found), front, back, all_eq, ?_⟩
    intro other member
    have not_begins := earlier other member
    rw [Bool.not_eq_true', Bool.eq_false_iff] at not_begins ⊢
    exact fun begins => not_begins (beginsWith_append whole begins)

theorem length_symbol_le {text : Text} {operator : Operator}
    (found : operatorAt? text = some operator) : operator.symbol.length ≤ text.length := by
  rw [operatorAt?_eq] at found
  exact (beginsWith_iff.mp (List.find?_some found)).1.length_le

theorem read_le (expression : Text) (column : Nat) (c : Char) (cs : Text) :
    (read expression column c cs).2 ≤ cs.length := by
  unfold read
  split
  · unfold readWord
    dsimp only
    split <;> exact (List.takeWhile_prefix _).length_le
  split
  · exact numberLength_le false cs
  split
  · exact Nat.zero_le _
  split
  · exact Nat.zero_le _
  split
  · unfold readString
    split
    · next value more found => exact quotedValue?_le found
    · exact Nat.le_refl _
  · unfold readOperator
    split
    · next operator found =>
      have := length_symbol_le found
      simp only [List.length_cons] at this
      dsimp only
      omega
    · exact Nat.zero_le _

theorem startsNumber_of_cut {c : Char} (inside : Text.isDigit c = true ∨
    (c == '.' && startsWithDigit (kept ++ cut)) = true → numberLength false (kept ++ cut) ≤ kept.length) :
    (Text.isDigit c || (c == '.' && startsWithDigit kept)) =
      (Text.isDigit c || (c == '.' && startsWithDigit (kept ++ cut))) := by
  by_cases empty : kept = []
  · subst empty
    cases cut with
    | nil => rfl
    | cons digit cut =>
      by_cases fraction : (c == '.' && Text.isDigit digit) = true
      · have short := inside (.inr fraction)
        have isDigit := (Bool.and_eq_true_iff.mp fraction).2
        rw [List.nil_append, numberLength_cons, if_pos (by simp [isDigit])] at short
        exact absurd short (Nat.not_succ_le_zero _)
      · rw [Bool.not_eq_true] at fraction
        simp [startsWithDigit, fraction]
  · rw [startsWithDigit_append empty]

/-- A point that starts no number is followed by two others, or stands alone. -/
theorem startsSpread_of_cut {expression : Text} {column : Nat}
    (inside : "..".toList <+: kept ++ cut →
      (readOperator expression column '.' (kept ++ cut)).2 ≤ kept.length) :
    "..".toList.isPrefixOf kept = "..".toList.isPrefixOf (kept ++ cut) := by
  rw [Bool.eq_iff_iff, List.isPrefixOf_iff_prefix, List.isPrefixOf_iff_prefix]
  constructor
  · exact fun starts => starts.trans (List.prefix_append kept cut)
  · intro starts
    have long := inside starts
    obtain ⟨more, text_eq⟩ := starts
    have spread : operatorAt? ('.' :: (kept ++ cut)) = some .spread := by
      rw [← text_eq]
      rfl
    rw [readOperator, spread] at long
    exact List.prefix_of_prefix_length_le ⟨more, text_eq⟩ (List.prefix_append kept cut) long

theorem readString_of_cut {expression expression' : Text} {column column' : Nat} {quote : Char}
    (inside : (readString expression column quote (kept ++ cut)).2 ≤ kept.length) :
    (readString expression column quote (kept ++ cut)).1.Alike
        (readString expression' column' quote kept).1 ∧
      (readString expression' column' quote kept).2 =
        (readString expression column quote (kept ++ cut)).2 := by
  unfold readString at inside ⊢
  cases found : quotedValue? quote (kept ++ cut) with
  | some value =>
    rw [found] at inside
    rw [quotedValue?_of_cut found inside]
    exact ⟨.same _, rfl⟩
  | none =>
    -- An open quote takes all that is left, so nothing was cut.
    rw [found] at inside
    have inside : (kept ++ cut).length ≤ kept.length := inside
    have nothing : cut = [] := by
      rw [List.length_append] at inside
      exact List.eq_nil_of_length_eq_zero (by omega)
    subst nothing
    rw [List.append_nil] at found ⊢
    rw [found]
    exact ⟨.errors _ _, rfl⟩

theorem readOperator_of_cut {expression expression' : Text} {column column' : Nat} {c : Char}
    (whole : ¬ SplitsFraction kept cut)
    (inside : (readOperator expression column c (kept ++ cut)).2 ≤ kept.length) :
    (readOperator expression column c (kept ++ cut)).1.Alike
        (readOperator expression' column' c kept).1 ∧
      (readOperator expression' column' c kept).2 =
        (readOperator expression column c (kept ++ cut)).2 := by
  have same : operatorAt? (c :: kept) = operatorAt? (c :: (kept ++ cut)) := by
    refine operatorAt?_of_cut whole fun operator found => ?_
    rw [readOperator, found] at inside
    have inside : operator.symbol.length - 1 ≤ kept.length := inside
    omega
  unfold readOperator
  rw [same]
  split
  · exact ⟨.same _, rfl⟩
  · exact ⟨.errors _ _, rfl⟩

/-- A lexeme is read again from a text that ends behind it. -/
theorem read_of_cut {expression : Text} {column : Nat} {c : Char} (expression' : Text)
    (column' : Nat) (whole : ¬ SplitsFraction kept cut)
    (inside : (read expression column c (kept ++ cut)).2 ≤ kept.length) :
    (read expression column c (kept ++ cut)).1.Alike (read expression' column' c kept).1 ∧
      (read expression' column' c kept).2 = (read expression column c (kept ++ cut)).2 := by
  unfold read at inside ⊢
  by_cases word : Text.isIdentifierStart c = true
  · rw [if_pos word] at inside ⊢
    rw [if_pos word]
    have more_eq : kept.takeWhile Text.isIdentifierPart =
        (kept ++ cut).takeWhile Text.isIdentifierPart := by
      refine takeWhile_of_cut ?_
      unfold readWord at inside
      dsimp only at inside
      split at inside <;> exact inside
    rw [readWord, readWord, more_eq]
    exact ⟨.same _, rfl⟩
  rw [if_neg word] at inside ⊢
  rw [if_neg word]
  have number_eq : (Text.isDigit c || (c == '.' && startsWithDigit kept)) =
      (Text.isDigit c || (c == '.' && startsWithDigit (kept ++ cut))) := by
    refine startsNumber_of_cut fun number => ?_
    rw [if_pos (Bool.or_eq_true_iff.mpr number)] at inside
    exact inside
  rw [number_eq]
  by_cases number : (Text.isDigit c || (c == '.' && startsWithDigit (kept ++ cut))) = true
  · rw [if_pos number] at inside ⊢
    rw [if_pos number]
    have inside : numberLength false (kept ++ cut) ≤ kept.length := inside
    rw [readNumber, readNumber, numberLength_of_cut inside, List.take_append_of_le_length inside]
    exact ⟨.same _, rfl⟩
  rw [if_neg number] at inside ⊢
  rw [if_neg number]
  have point_eq : (c == '.' && !"..".toList.isPrefixOf kept) =
      (c == '.' && !"..".toList.isPrefixOf (kept ++ cut)) := by
    by_cases point : c = '.'
    · subst point
      have spread : "..".toList <+: kept ++ cut →
          (readOperator expression column '.' (kept ++ cut)).2 ≤ kept.length := by
        intro starts
        rwa [List.isPrefixOf_iff_prefix.mpr starts, Bool.not_true, Bool.and_false,
          if_neg Bool.false_ne_true, if_neg (by decide), if_neg (by decide)] at inside
      rw [startsSpread_of_cut spread]
    · rw [beq_false_of_ne point, Bool.false_and, Bool.false_and]
  rw [point_eq]
  split
  · exact ⟨.same _, rfl⟩
  next noPoint =>
  rw [if_neg noPoint] at inside
  split
  · exact ⟨.same _, rfl⟩
  next noPunctuation =>
  rw [if_neg noPunctuation] at inside
  split
  · next quoted =>
    rw [if_pos quoted] at inside
    exact readString_of_cut inside
  · next unquoted =>
    rw [if_neg unquoted] at inside
    exact readOperator_of_cut whole inside

theorem read_fraction_pos {expression cs : Text} {column : Nat}
    (digit : startsWithDigit cs = true) : 0 < (read expression column '.' cs).2 := by
  cases cs with
  | nil => exact absurd digit (by decide)
  | cons c cs =>
    have digit : Text.isDigit c = true := digit
    rw [read, if_neg (by decide), if_pos (by simp [startsWithDigit, digit])]
    change 0 < numberLength false (c :: cs)
    rw [numberLength_cons, if_pos (by simp [digit])]
    exact Nat.succ_pos _

/-- Only one operator has a point as its second and last character. -/
theorem eq_safeAccess_of_tail : ∀ operator ∈ Operator.all,
    operator.symbol.tail = ['.'] → operator = .safeAccess := by
  decide

theorem read_fraction_ne_one {expression cs : Text} {column : Nat} {c : Char}
    (digit : startsWithDigit cs = true) : (read expression column c ('.' :: cs)).2 ≠ 1 := by
  obtain ⟨d, more, rfl⟩ : ∃ d more, cs = d :: more := by
    cases cs with
    | nil => exact absurd digit (by decide)
    | cons d more => exact ⟨d, more, rfl⟩
  have digit : Text.isDigit d = true := digit
  unfold read
  split
  · have none : ('.' :: d :: more).takeWhile Text.isIdentifierPart = [] :=
      List.takeWhile_cons_of_neg (by decide)
    rw [readWord, none]
    split <;> exact Nat.zero_ne_one
  split
  · change numberLength false ('.' :: d :: more) ≠ 1
    rw [numberLength_cons, if_pos (by decide), numberLength_cons, if_pos (by simp [digit])]
    omega
  split
  · exact Nat.zero_ne_one
  split
  · exact Nat.zero_ne_one
  split
  · next quoted =>
    have other : '.' ≠ c := by
      rintro rfl
      exact absurd quoted (by decide)
    unfold readString
    split
    · next value length found =>
      rw [quotedValue?_cons, if_neg other, if_neg (by decide)] at found
      obtain ⟨inner, inner_eq, same⟩ := Option.map_eq_some_iff.mp found
      have positive := quotedValue?_pos inner_eq
      cases same
      dsimp only
      omega
    · simp
  · unfold readOperator
    split
    · next operator found =>
      rw [operatorAt?_eq] at found
      obtain ⟨⟨rest, starts⟩, noFraction⟩ := beginsWith_iff.mp (List.find?_some found)
      intro short
      have tail_eq : operator.symbol.tail = ['.'] := by
        obtain ⟨first, second, symbol_eq⟩ : ∃ first second, operator.symbol = [first, second] :=
          List.length_eq_two.mp (by dsimp only at short; omega)
        rw [symbol_eq] at starts ⊢
        cases starts
        rfl
      have safe := eq_safeAccess_of_tail operator (List.mem_of_find?_eq_some found) tail_eq
      have none := noFraction safe
      simp [startsWithDigit, digit] at none
    · exact Nat.zero_ne_one

end Lexeme

namespace Token

variable {expression : Text} {c : Cursor}

theorem scanFrom_of_cons {first : Char} {rest : Text}
    (h : (c.skipWhile Text.isSpace).rest = first :: rest) : scanFrom expression c =
      ⟨⟨(c.skipWhile Text.isSpace).offset, ((c.skipWhile Text.isSpace).skip
        ((Lexeme.read expression (c.skipWhile Text.isSpace).offset first rest).2 + 1)).offset⟩,
        (Lexeme.read expression (c.skipWhile Text.isSpace).offset first rest).1⟩ ::
      scanFrom expression ((c.skipWhile Text.isSpace).skip
        ((Lexeme.read expression (c.skipWhile Text.isSpace).offset first rest).2 + 1)) := by
  rw [scanFrom]
  split
  · next h' => exact absurd (h.symm.trans h') (by simp)
  · next first' rest' h' =>
    cases h.symm.trans h'
    rfl

theorem scanFrom_of_nil (h : (c.skipWhile Text.isSpace).rest = []) :
    scanFrom expression c = [] := by
  rw [scanFrom]
  split
  · rfl
  · next h' => exact absurd (h.symm.trans h') (by simp)

theorem scanFrom_skipWhile (expression : Text) (c : Cursor) :
    scanFrom expression (c.skipWhile Text.isSpace) = scanFrom expression c := by
  have idem := Cursor.skipWhile_skipWhile Text.isSpace c
  cases h : (c.skipWhile Text.isSpace).rest with
  | nil => rw [scanFrom_of_nil h, scanFrom_of_nil (idem.symm ▸ h)]
  | cons first rest =>
    rw [scanFrom_of_cons h, scanFrom_of_cons (idem.symm ▸ h), idem]

theorem exists_cursor {front tokens : List Token}
    (scan_eq : scanFrom expression c = front ++ tokens) (nonempty : tokens ≠ []) :
    ∃ d, c.Reaches d ∧ scanFrom expression d = tokens ∧
      ∀ token ∈ tokens.head?, token.span.start = d.offset := by
  induction front generalizing c with
  | nil =>
    rw [List.nil_append] at scan_eq
    refine ⟨c.skipWhile Text.isSpace, Cursor.reaches_skipWhile _ c,
      (scanFrom_skipWhile expression c).trans scan_eq, ?_⟩
    intro token head_eq
    cases h : (c.skipWhile Text.isSpace).rest with
    | nil => exact absurd (scan_eq.symm.trans (scanFrom_of_nil h)) nonempty
    | cons first rest =>
      rw [← scan_eq, scanFrom_of_cons h] at head_eq
      cases head_eq
      rfl
  | cons token front ih =>
    cases h : (c.skipWhile Text.isSpace).rest with
    | nil =>
      rw [scanFrom_of_nil h] at scan_eq
      exact absurd scan_eq (by simp)
    | cons first rest =>
      rw [scanFrom_of_cons h, List.cons_append, List.cons.injEq] at scan_eq
      obtain ⟨d, reaches, found⟩ := ih scan_eq.2
      exact ⟨d, (Cursor.reaches_skipWhile _ c).trans ((Cursor.reaches_skip _ _).trans reaches),
        found⟩

/-- The first token of a text is read again from a text that ends behind it. -/
theorem scanFrom_again {expression' kept cut blanks : Text} {column n : Nat} {lexeme : Lexeme}
    {first : Char} {c' : Cursor}
    (read_eq : Lexeme.read expression column first (kept ++ cut) = (lexeme, n)) (inside : n ≤ kept.length) (whole : ¬ Lexeme.SplitsFraction kept cut)
    (run : ∀ a ∈ blanks, Text.isSpace a = true) (starts : Text.isSpace first = false)
    (rest_eq : c'.rest = blanks ++ first :: kept) : ∃ token c'', c''.rest = kept.drop n ∧
      lexeme.Alike token.lexeme ∧ scanFrom expression' c' = token :: scanFrom expression' c'' := by
  have here := Cursor.skipWhile_eq rest_eq run (by rintro _ ⟨⟩; exact starts)
  have again := Lexeme.read_of_cut expression' (c'.skipWhile Text.isSpace).offset whole
    (by rw [read_eq]; exact inside)
  rw [read_eq] at again
  have rest_eq' : (c'.skipWhile Text.isSpace).rest = first :: kept := by rw [here]
  refine ⟨_, _, ?_, again.1, scanFrom_of_cons rest_eq'⟩
  rw [again.2, Cursor.rest_skip, rest_eq', List.drop_succ_cons]

/-- The text up to the end of a token is divided into the same tokens wherever it
stands. -/
theorem exists_kept {tokens more : List Token}
    (scan_eq : scanFrom expression c = tokens ++ more) : ∃ kept cut : Text,
      c.rest = kept ++ cut ∧ (tokens = [] → kept = []) ∧ ¬ Lexeme.SplitsFraction kept cut ∧
      (∀ last ∈ tokens.getLast?, last.span.stop = c.offset + kept.byteLength) ∧
      ∀ expression' (c' : Cursor), c'.rest = kept →
        List.Forall₂ Token.Alike tokens (scanFrom expression' c') := by
  induction tokens generalizing c with
  | nil =>
    refine ⟨[], c.rest, rfl, fun _ => rfl, ?_, by simp, ?_⟩
    · rintro ⟨⟨⟩, -⟩
    · intro expression' c' rest_eq
      rw [scanFrom_of_nil (by rw [Cursor.rest_skipWhile, rest_eq]; rfl)]
      exact .nil
  | cons token tokens ih =>
    cases h : (c.skipWhile Text.isSpace).rest with
    | nil =>
      rw [scanFrom_of_nil h] at scan_eq
      exact absurd scan_eq (by simp)
    | cons first rest =>
      rw [scanFrom_of_cons h, List.cons_append, List.cons.injEq] at scan_eq
      obtain ⟨token_eq, scan_eq⟩ := scan_eq
      have inside := Lexeme.read_le expression (c.skipWhile Text.isSpace).offset first rest
      generalize read_eq : Lexeme.read expression (c.skipWhile Text.isSpace).offset first rest =
        read at token_eq scan_eq inside
      obtain ⟨lexeme, n⟩ := read
      have starts := Cursor.head?_rest_skipWhile Text.isSpace c first (by rw [h]; rfl)
      obtain ⟨blanks, run, text_eq⟩ : ∃ blanks : Text, (∀ a ∈ blanks, Text.isSpace a = true) ∧
          c.rest = blanks ++ first :: rest := by
        refine ⟨c.rest.takeWhile Text.isSpace, List.all_eq_true.mp List.all_takeWhile, ?_⟩
        rw [← h, Cursor.rest_skipWhile, List.takeWhile_append_dropWhile]
      obtain ⟨kept, cut, drop_eq, nothing, whole, stops, again⟩ := ih scan_eq
      rw [Cursor.skipWhile_eq text_eq run (by rintro _ ⟨⟩; exact starts)] at token_eq drop_eq stops
      obtain ⟨taken, rfl, rfl⟩ : ∃ taken : Text, taken.length = n ∧ rest = taken ++ kept ++ cut := by
        have drop_eq : rest.drop n = kept ++ cut := drop_eq
        refine ⟨rest.take n, List.length_take_of_le inside, ?_⟩
        rw [List.append_assoc, ← drop_eq, List.take_append_drop]
      have next_eq : (Cursor.skip (taken.length + 1)
          ⟨c.offset + blanks.byteLength, first :: (taken ++ kept ++ cut)⟩).offset =
            c.offset + Text.byteLength (blanks ++ first :: taken) := by
        rw [Cursor.skip, List.take_succ_cons, List.append_assoc, List.take_left,
          Text.byteLength_append, Nat.add_assoc]
      have whole' : ¬ Lexeme.SplitsFraction (taken ++ kept) cut := by
        rintro ⟨point, digit⟩
        rcases List.append_eq_singleton_iff.mp point with ⟨-, kept_eq⟩ | ⟨rfl, rfl⟩
        · exact whole ⟨kept_eq, digit⟩
        · exact Lexeme.read_fraction_ne_one digit (congrArg Prod.snd read_eq)
      refine ⟨blanks ++ first :: (taken ++ kept), cut, by rw [text_eq]; simp, by simp, ?_, ?_, ?_⟩
      · rintro ⟨point, digit⟩
        obtain ⟨-, alone⟩ | ⟨-, never⟩ := List.append_eq_singleton_iff.mp point
        · obtain ⟨rfl, nothing_kept⟩ := List.cons.inj alone
          obtain ⟨rfl, rfl⟩ := List.append_eq_nil_iff.mp nothing_kept
          exact Nat.ne_of_gt (Lexeme.read_fraction_pos digit) (congrArg Prod.snd read_eq)
        · exact absurd never (by simp)
      · intro last last_eq
        cases tokens with
        | nil =>
          cases last_eq
          rw [nothing rfl, List.append_nil, ← token_eq]
          exact next_eq
        | cons second tokens =>
          rw [List.getLast?_cons_cons] at last_eq
          rw [stops last last_eq, next_eq]
          simp only [Text.byteLength_append, Text.byteLength_cons]
          omega
      · intro expression' c' rest_eq
        obtain ⟨token', c'', rest_eq', alike, scan_eq'⟩ := scanFrom_again read_eq
          (by rw [List.length_append]; omega) whole' run starts rest_eq
        rw [List.drop_left] at rest_eq'
        rw [scan_eq']
        refine .cons ?_ (again expression' c'' rest_eq')
        rw [← token_eq]
        exact alike

end Token

open Diagnostic

variable {source text : Text} {mode : Mode} {offset : Nat} {tokens : List Token} {span : Span}

theorem alike_map_shift {others : List Token} (distance : Nat) :
    List.Forall₂ Token.Alike tokens (others.map (Token.shift distance)) ↔
      List.Forall₂ Token.Alike tokens others := by
  rw [List.forall₂_map_right_iff]
  rfl

theorem map_shift_alike {others : List Token} (distance : Nat) :
    List.Forall₂ Token.Alike (tokens.map (Token.shift distance)) others ↔
      List.Forall₂ Token.Alike tokens others := by
  rw [List.forall₂_map_left_iff]
  rfl

/-- The tokens of a text look the same wherever the text stands. -/
theorem alike_tokensAt (offset offset' : Nat) (text : Text) :
    List.Forall₂ Token.Alike (tokensAt offset text) (tokensAt offset' text) := by
  unfold tokensAt
  rw [map_shift_alike, alike_map_shift]
  exact List.forall₂_same.mpr fun token _ => .same _

/-- A run of tokens of an expression covers a part of its text, which is divided
into such tokens wherever it stands. -/
theorem exists_excerpt (within : tokens <:+: tokensAt offset text) (covers : Covers tokens span) :
    ∃ before excerpt after, text = before ++ excerpt ++ after ∧
      span = ⟨offset + before.byteLength, offset + before.byteLength + excerpt.byteLength⟩ ∧
      ∀ offset', List.Forall₂ Token.Alike tokens (tokensAt offset' excerpt) := by
  obtain ⟨front, back, tokens_eq⟩ := within
  obtain ⟨first, last, first_eq, last_eq, rfl⟩ := covers
  -- The same run among the tokens of the text alone.
  obtain ⟨left, back', scan_eq, left_eq, rfl⟩ := List.map_eq_append_iff.mp tokens_eq.symm
  obtain ⟨front', run, rfl, rfl, rfl⟩ := List.map_eq_append_iff.mp left_eq
  have nonempty : run ++ back' ≠ [] := by
    intro none
    rw [(List.append_eq_nil_iff.mp none).1] at first_eq
    exact absurd first_eq (by simp)
  rw [List.append_assoc] at scan_eq
  obtain ⟨c, ⟨before, text_eq, offset_eq⟩, scan_eq', start_eq⟩ :=
    Token.exists_cursor scan_eq nonempty
  obtain ⟨excerpt, after, rest_eq, -, -, stop_eq, again⟩ := Token.exists_kept scan_eq'
  rw [List.head?_map] at first_eq
  rw [List.getLast?_map] at last_eq
  obtain ⟨first', first_eq', rfl⟩ := Option.map_eq_some_iff.mp first_eq
  obtain ⟨last', last_eq', rfl⟩ := Option.map_eq_some_iff.mp last_eq
  refine ⟨before, excerpt, after, ?_, ?_, ?_⟩
  · rw [Cursor.rest_start] at text_eq
    rw [text_eq, rest_eq, List.append_assoc]
  · have start_eq := start_eq first' (by rw [List.head?_append, first_eq']; rfl)
    have stop_eq := stop_eq last' last_eq'
    have offset_eq : c.offset = before.byteLength := offset_eq.trans (Nat.zero_add _)
    simp only [Token.shift, Span.shift, Span.mk.injEq]
    omega
  · intro offset'
    rw [map_shift_alike]
    exact (alike_map_shift offset').mpr (again excerpt (Cursor.start excerpt) rfl)

/-- A reference or a call of an expression without errors, or anything else that
can be read alone, has a text that holds no error wherever it stands. -/
theorem harmless_parse_of_readsAlone (stands : text.StandsAt offset source)
    (within : tokens <:+: tokensAt offset text) (covers : Covers tokens span)
    (alone : ReadsAlone mode tokens) : ∃ excerpt, span.textIn? source = some excerpt ∧
      ∀ offset', Harmless (parse mode offset' excerpt).2 := by
  obtain ⟨before, excerpt, after, text_eq, rfl, again⟩ := exists_excerpt within covers
  refine ⟨excerpt, ?_, ?_⟩
  · obtain ⟨front, back, source_eq, offset_eq⟩ := stands
    refine Text.slice?_eq_some_iff.mpr ⟨front ++ before, after ++ back, ?_, ?_, ?_⟩
    · rw [source_eq, text_eq]
      simp
    · rw [offset_eq, Text.byteLength_append]
    · rw [offset_eq, Text.byteLength_append]
  · intro offset'
    exact harmless_parse_iff.mpr (alone _ _ rfl (again offset'))

end Expression

end ComponentExtraction
