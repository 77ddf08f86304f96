import ComponentExtraction.Component.Name
import ComponentExtraction.Component.Settings
import ComponentExtraction.Proofs.Expression.Shape
import ComponentExtraction.Proofs.Fragment.Content
import ComponentExtraction.Proofs.Markup.Reading
import Mathlib.Data.List.Chain

/-!
# Names and their hyphenated forms

A name that is accepted is an identifier with its first letter in upper case (`Normal`).
Hyphens then say where its upper case letters were, so the name can be read back from its
hyphenated form (`camel_kebab`), and different components get different selectors and
different files (`kebab_separates`).
-/

namespace ComponentExtraction

namespace Text

/-- What holds of the ASCII characters of identifiers holds of all of their characters. -/
theorem forall_isIdentifierPart {P : Char → Prop}
    (table : ∀ code < 128, isIdentifierPart (Char.ofNat code) = true → P (Char.ofNat code))
    {c : Char} (part : isIdentifierPart c = true) : P c := by
  have found := table c.toNat (toNat_lt_of_isIdentifierPart part)
  rw [Char.ofNat_toNat] at found
  exact found part

theorem isIdentifierPart_of_isIdentifierStart {c : Char} (starts : isIdentifierStart c = true) :
    isIdentifierPart c = true := by
  rw [isIdentifierPart, starts, Bool.true_or]

theorem not_isBlank_of_isIdentifierPart {c : Char} (part : isIdentifierPart c = true) :
    isBlank c = false :=
  forall_isIdentifierPart (P := fun c => isBlank c = false) (by decide) part

/-- The upper case of the first character of an identifier is its own upper case. -/
theorem toUpper_of_isIdentifierStart {c : Char} (starts : isIdentifierStart c = true) :
    isIdentifierStart c.toUpper = true ∧ c.toUpper.toUpper = c.toUpper :=
  forall_isIdentifierPart
    (P := fun c => isIdentifierStart c = true →
      isIdentifierStart c.toUpper = true ∧ c.toUpper.toUpper = c.toUpper)
    (by decide) (isIdentifierPart_of_isIdentifierStart starts) starts

namespace IsIdentifier

variable {name : Text}

theorem trim_eq (h : name.IsIdentifier) : name.trim = name := by
  obtain ⟨first, rest, rfl, starts, parts⟩ := h
  have parts : ∀ c ∈ first :: rest, isIdentifierPart c = true :=
    List.forall_mem_cons.mpr ⟨isIdentifierPart_of_isIdentifierStart starts, parts⟩
  have visible : ∀ c ∈ first :: rest, isBlank c = false := fun c member =>
    not_isBlank_of_isIdentifierPart (parts c member)
  have frames : Frames (first :: rest) [] (first :: rest) [] := by
    refine ⟨by simp, by simp, by simp, ⟨first, rest, rfl, visible _ List.mem_cons_self⟩, ?_⟩
    obtain ⟨more, last, split⟩ :=
      (List.eq_nil_or_concat (first :: rest)).resolve_left (List.cons_ne_nil first rest)
    exact ⟨more, last, by simpa using split, visible last (by simp [split])⟩
  exact frames.trim_eq

theorem capitalize_eq {first : Char} {rest : Text} (h : IsIdentifier (first :: rest)) :
    capitalize (first :: rest) = first.toUpper :: rest := by
  obtain ⟨_, _, split, starts, -⟩ := h
  cases split
  rw [capitalize, uppercase, if_pos
    (toNat_lt_of_isIdentifierPart (isIdentifierPart_of_isIdentifierStart starts))]
  rfl

end IsIdentifier

end Text

namespace Component

variable {a b name normalized text : Text} {c d : Char}

theorem normalizeName_eq_ok_iff : normalizeName name = .ok normalized ↔
    name.trim.IsIdentifier ∧ normalized = name.trim.capitalize := by
  unfold normalizeName
  cases trimmed : Text.trim name with
  | nil => simp [Text.IsIdentifier]
  | cons first rest =>
    dsimp only
    split
    · next starts =>
      split
      · next bad found =>
        have member := List.mem_of_find?_eq_some found
        have other := List.find?_some found
        simp only [reduceCtorEq, false_iff, not_and]
        rintro ⟨_, _, split, -, parts⟩
        cases split
        simp [parts bad member] at other
      · next good =>
        have parts : ∀ c ∈ rest, Text.isIdentifierPart c = true := by simpa using good
        have identifier : Text.IsIdentifier (first :: rest) := ⟨first, rest, rfl, starts, parts⟩
        rw [Except.ok.injEq]
        exact ⟨fun same => ⟨identifier, same.symm⟩, fun h => h.2.symm⟩
    · next other =>
      simp only [reduceCtorEq, false_iff, not_and]
      rintro ⟨_, _, split, starts, -⟩
      cases split
      exact absurd starts other

/-- A name as components have it: an identifier that does not start with a lower case letter. -/
structure Normal (name : Text) : Prop where
  identifier : name.IsIdentifier
  capital : name.capitalize = name

theorem normal_of_normalizeName (accepted : normalizeName name = .ok normalized) :
    Normal normalized := by
  obtain ⟨identifier, rfl⟩ := normalizeName_eq_ok_iff.mp accepted
  obtain ⟨first, rest, trimmed, starts, parts⟩ := identifier
  have identifier : Text.IsIdentifier (first :: rest) := ⟨first, rest, rfl, starts, parts⟩
  obtain ⟨starts_upper, upper⟩ := Text.toUpper_of_isIdentifierStart starts
  have identifier_upper : Text.IsIdentifier (first.toUpper :: rest) :=
    ⟨_, rest, rfl, starts_upper, parts⟩
  rw [trimmed, identifier.capitalize_eq]
  exact ⟨identifier_upper, by rw [identifier_upper.capitalize_eq, upper]⟩

theorem Normal.normalizeName_eq (h : Normal name) : normalizeName name = .ok name := by
  rw [normalizeName_eq_ok_iff, h.identifier.trim_eq]
  exact ⟨h.identifier, h.capital.symm⟩

theorem Normal.exists_eq (h : Normal name) : ∃ first rest, name = first :: rest ∧
    Text.isIdentifierPart first = true ∧ first.toUpper = first ∧
      ∀ c ∈ rest, Text.isIdentifierPart c = true := by
  obtain ⟨identifier, capital⟩ := h
  obtain ⟨first, rest, rfl, starts, parts⟩ := identifier
  rw [Text.IsIdentifier.capitalize_eq ⟨first, rest, rfl, starts, parts⟩] at capital
  exact ⟨first, rest, rfl, Text.isIdentifierPart_of_isIdentifierStart starts,
    (List.cons.inj capital).1, parts⟩

def isWordCharacter (c : Char) : Bool :=
  ('a' ≤ c && c ≤ 'z') || Text.isDigit c || c == '_' || c == '$'

/-- Words of lower case letters, digits, underscores and dollars, with one hyphen between
neighbours. -/
structure Hyphenated (text : Text) : Prop where
  alphabet : ∀ c ∈ text, isWordCharacter c = true ∨ c = '-'
  begins : text.head? ≠ some '-'
  ends : text.getLast? ≠ some '-'
  apart : text.IsChain fun c d => c = '-' → d ≠ '-'

theorem isWordCharacter_of_not_isCapital (part : Text.isIdentifierPart c = true)
    (small : isCapital c = false) : isWordCharacter c = true :=
  Text.forall_isIdentifierPart (P := fun c => isCapital c = false → isWordCharacter c = true)
    (by decide) part small

theorem toUpper_of_isCapital (capital : isCapital c = true) :
    Text.isIdentifierPart c = true ∧ c.toUpper = c := by
  have part : Text.isIdentifierPart c = true := by
    rw [isCapital] at capital
    rw [Text.isIdentifierPart, Text.isIdentifierStart, Text.isLetter, capital]
    simp
  exact ⟨part, Text.forall_isIdentifierPart (P := fun c => isCapital c = true → c.toUpper = c)
    (by decide) part capital⟩

theorem toLower_of_toUpper_eq (part : Text.isIdentifierPart c = true) (upper : c.toUpper = c) :
    isWordCharacter c.toLower = true ∧ c.toLower.toUpper = c :=
  Text.forall_isIdentifierPart
    (P := fun c => c.toUpper = c → isWordCharacter c.toLower = true ∧ c.toLower.toUpper = c)
    (by decide) part upper

theorem ne_hyphen_of_isWordCharacter (word : isWordCharacter c = true) : c ≠ '-' := by
  rintro rfl
  exact absurd word (by decide)

namespace Hyphenated

theorem cons (word : isWordCharacter c = true) (h : Hyphenated text) : Hyphenated (c :: text) := by
  have other := ne_hyphen_of_isWordCharacter word
  refine ⟨List.forall_mem_cons.mpr ⟨.inl word, h.alphabet⟩, by simpa using other, ?_, ?_⟩
  · cases text with
    | nil => simpa using other
    | cons d text => exact h.ends
  · exact List.isChain_cons.mpr ⟨fun d _ hyphen => absurd hyphen other, h.apart⟩

theorem cons_hyphen (word : isWordCharacter c = true) (h : Hyphenated (d :: text)) :
    Hyphenated (c :: '-' :: d :: text) := by
  have other := ne_hyphen_of_isWordCharacter word
  have first : d ≠ '-' := fun hyphen => h.begins (by rw [hyphen]; rfl)
  refine ⟨List.forall_mem_cons.mpr ⟨.inl word, List.forall_mem_cons.mpr ⟨.inr rfl, h.alphabet⟩⟩,
    by simpa using other, h.ends, ?_⟩
  exact .cons_cons (fun hyphen => absurd hyphen other) (.cons_cons (fun _ => first) h.apart)

end Hyphenated

/-- What a character of a name becomes behind its first one. -/
def hump (c : Char) : Text :=
  if isCapital c then ['-', c.toLower] else [c]

theorem kebab_cons (first : Char) (rest : Text) :
    kebab (first :: rest) = first.toLower :: rest.flatMap hump := rfl

theorem hyphenated_cons_humps (word : isWordCharacter c = true)
    (parts : ∀ d ∈ text, Text.isIdentifierPart d = true) :
    Hyphenated (c :: text.flatMap hump) := by
  induction text generalizing c with
  | nil => exact .cons word ⟨by simp, by simp, by simp, .nil⟩
  | cons d text ih =>
    obtain ⟨part, parts⟩ := List.forall_mem_cons.mp parts
    rw [List.flatMap_cons, hump]
    split
    · next capital =>
      have lower := (toLower_of_toUpper_eq part (toUpper_of_isCapital capital).2).1
      exact .cons_hyphen word (ih lower parts)
    · next small =>
      have word' := isWordCharacter_of_not_isCapital part (Bool.not_eq_true _ ▸ small)
      exact .cons word (ih word' parts)

theorem Normal.hyphenated (h : Normal name) : Hyphenated (kebab name) := by
  obtain ⟨first, rest, rfl, part, upper, parts⟩ := h.exists_eq
  exact hyphenated_cons_humps (toLower_of_toUpper_eq part upper).1 parts

/-- A hyphenated name in camel case: a character behind a hyphen stands in upper case, and the
hyphen is left out. The flag says whether a hyphen was just left out. -/
def camelFrom (raised : Bool) : Text → Text
  | [] => []
  | c :: rest =>
    if c = '-' then camelFrom true rest
    else (if raised then c.toUpper else c) :: camelFrom false rest

def camel (text : Text) : Text :=
  camelFrom true text

theorem camelFrom_humps (parts : ∀ c ∈ text, Text.isIdentifierPart c = true) :
    camelFrom false (text.flatMap hump) = text := by
  induction text with
  | nil => rfl
  | cons c text ih =>
    obtain ⟨part, parts⟩ := List.forall_mem_cons.mp parts
    rw [List.flatMap_cons, hump]
    split
    · next capital =>
      obtain ⟨lower, upper⟩ := toLower_of_toUpper_eq part (toUpper_of_isCapital capital).2
      rw [List.cons_append, List.cons_append, List.nil_append, camelFrom, if_pos rfl, camelFrom,
        if_neg (ne_hyphen_of_isWordCharacter lower), if_pos rfl, upper, ih parts]
    · next small =>
      have word := isWordCharacter_of_not_isCapital part (Bool.not_eq_true _ ▸ small)
      rw [List.singleton_append, camelFrom, if_neg (ne_hyphen_of_isWordCharacter word), ih parts]
      rfl

theorem camel_kebab (h : Normal name) : camel (kebab name) = name := by
  obtain ⟨first, rest, rfl, part, upper, parts⟩ := h.exists_eq
  obtain ⟨lower, upper⟩ := toLower_of_toUpper_eq part upper
  rw [kebab_cons, camel, camelFrom, if_neg (ne_hyphen_of_isWordCharacter lower), if_pos rfl, upper,
    camelFrom_humps parts]

theorem kebab_injective (ha : Normal a) (hb : Normal b) (same : kebab a = kebab b) : a = b := by
  rw [← camel_kebab ha, same, camel_kebab hb]

namespace Settings

/-- Under the same settings, what is named after a component tells its hyphenated name. -/
theorem selector_injective (s : Settings) : Function.Injective s.selector := by
  intro kebab kebab' same
  unfold selector at same
  split at same
  · exact same
  · exact (List.cons.inj (List.append_cancel_left same)).2

theorem classFileName_injective (s : Settings) : Function.Injective s.classFileName :=
  fun _ _ => List.append_cancel_right

theorem templateFileName_injective (s : Settings) : Function.Injective s.templateFileName :=
  fun _ _ => List.append_cancel_right

end Settings

/-- Components of different names have different hyphenated names, and so, under the same
settings, different selectors and files. A hyphenated name is made of words with one hyphen
between them, and accepting a name once more does not change it. -/
theorem kebab_separates {first second : Text} (accepted : normalizeName first = .ok a)
    (accepted' : normalizeName second = .ok b) :
    (a ≠ b → kebab a ≠ kebab b ∧ ∀ s : Settings,
      s.selector (kebab a) ≠ s.selector (kebab b) ∧
      s.classFileName (kebab a) ≠ s.classFileName (kebab b) ∧
      s.templateFileName (kebab a) ≠ s.templateFileName (kebab b)) ∧
    Hyphenated (kebab a) ∧ normalizeName a = .ok a := by
  have normal := normal_of_normalizeName accepted
  have normal' := normal_of_normalizeName accepted'
  refine ⟨fun differ => ?_, normal.hyphenated, normal.normalizeName_eq⟩
  have apart : kebab a ≠ kebab b := fun same => differ (kebab_injective normal normal' same)
  exact ⟨apart, fun s => ⟨s.selector_injective.ne apart, s.classFileName_injective.ne apart,
    s.templateFileName_injective.ne apart⟩⟩

/-- Two names that differ in the case of one letter. -/
theorem kebab_separates_case :
    normalizeName " nameLabel".toList = .ok "NameLabel".toList ∧
    normalizeName "Namelabel".toList = .ok "Namelabel".toList ∧
    kebab "NameLabel".toList ≠ kebab "Namelabel".toList ∧
    Settings.classFileName {} (kebab "NameLabel".toList) ≠
      Settings.classFileName {} (kebab "Namelabel".toList) ∧
    Hyphenated (kebab "NameLabel".toList) := by
  have accepted : normalizeName " nameLabel".toList = .ok "NameLabel".toList := by rfl
  have accepted' : normalizeName "Namelabel".toList = .ok "Namelabel".toList := by rfl
  obtain ⟨separates, hyphenated, -⟩ := kebab_separates accepted accepted'
  obtain ⟨apart, files⟩ := separates (by decide)
  exact ⟨accepted, accepted', apart, (files {}).2.1, hyphenated⟩

end Component

end ComponentExtraction
