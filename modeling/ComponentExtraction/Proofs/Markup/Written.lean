import Mathlib.Data.List.Forall2
import ComponentExtraction.Component.Rendering
import ComponentExtraction.Proofs.Markup.Reading

/-!
# Tags that were written

An element without content is written as a start tag, whose attributes have their
values in quotes, and an end tag. Wherever it stands, and whatever stands behind
it, it is read as that element: first each attribute, then the tags, then the two
tags together. A value is read back if it has only one kind of quotes.
-/

namespace ComponentExtraction

namespace Text

@[simp] theorem stripEnd?_append (text ending : Text) :
    stripEnd? ending (text ++ ending) = some text := by
  simp [stripEnd?]

/-- A text that can stand between quotes of one kind, as it does not hold both kinds. -/
def Quotable (text : Text) : Prop :=
  ¬ ('\x22' ∈ text ∧ '\x27' ∈ text)

instance (text : Text) : Decidable text.Quotable :=
  inferInstanceAs (Decidable (¬ _))

end Text

/-- A value stands between two quotes that it does not hold. -/
theorem Component.exists_quoteValue {value : Text} (quotable : value.Quotable) :
    ∃ quote, Text.isQuote quote = true ∧ quote ∉ value ∧
      quoteValue value = quote :: value ++ [quote] := by
  unfold quoteValue
  split
  · next double => exact ⟨_, rfl, fun single => quotable ⟨double, single⟩, rfl⟩
  · next double => exact ⟨_, rfl, double, rfl⟩

namespace Markup

structure Assignment where
  name : Text
  value : Text

namespace Assignment

def written (a : Assignment) : Text :=
  ' ' :: a.name ++ '=' :: Component.quoteValue a.value

/-- The attribute can be read again. -/
structure Readable (a : Assignment) : Prop where
  named : a.name ≠ []
  parts : ∀ c ∈ a.name, isNamePart c = true
  quotable : a.value.Quotable

def valueAt (a : Assignment) (offset : Nat) : List Node × List Diagnostic :=
  valueNodes (classify a.name).1 (classify a.name).2 ⟨a.value, offset, ⟨0, []⟩, []⟩

def readAt (a : Assignment) (offset : Nat) : Node × List Diagnostic :=
  let nameStop := offset + a.name.byteLength
  let nodes := a.valueAt (nameStop + 2)
  (Node.mk (classify a.name).1 ⟨offset, nameStop + a.value.byteLength + 3⟩
    (Node.leaf ⟨offset, nameStop⟩ :: Node.leaf ⟨nameStop, nameStop + 1⟩ :: nodes.1), nodes.2)

/-- What is read from attributes that stand one after the other from a byte offset
on. -/
def readAllAt (offset : Nat) : List Assignment → List (Node × List Diagnostic)
  | [] => []
  | a :: attributes =>
    a.readAt (offset + 1) :: readAllAt (offset + a.written.byteLength) attributes

theorem readAllAt_append (offset : Nat) (attributes more : List Assignment) :
    readAllAt offset (attributes ++ more) = readAllAt offset attributes ++
      readAllAt (offset + Text.byteLength (attributes.flatMap written)) more := by
  induction attributes generalizing offset with
  | nil => rfl
  | cons a attributes ih =>
    rw [List.cons_append, readAllAt, ih, List.flatMap_cons, Text.byteLength_append, Nat.add_assoc]
    rfl

theorem byteLength_written {a : Assignment} (readable : a.Readable) :
    a.written.byteLength = a.name.byteLength + a.value.byteLength + 4 := by
  obtain ⟨quote, isQuote, -, quoted⟩ := Component.exists_quoteValue readable.quotable
  have size := Text.utf8Size_of_isQuote isQuote
  simp only [written, quoted, Text.byteLength_cons, Text.byteLength_append, Text.byteLength_nil,
    List.cons_append, size, show (' ' : Char).utf8Size = 1 from rfl,
    show ('=' : Char).utf8Size = 1 from rfl]
  omega

end Assignment

variable {c : Cursor} {name value tail : Text} {a : Assignment} {attributes : List Assignment}

/-- Where a value stands, and what stands behind it, is not a matter of what it holds. -/
theorem valueNodes_eq (kind : Kind) (form : ValueForm) (value : Value) :
    valueNodes kind form value = valueNodes kind form ⟨value.text, value.offset, ⟨0, []⟩, []⟩ := by
  cases form <;> rfl

/-- An attribute that was written is read with its value. -/
theorem readAttribute_written (readable : a.Readable) (nonempty : c.rest ≠ [])
    (rest_eq : ' ' :: c.rest = a.written ++ tail) :
    (readAttribute c nonempty).value = some (a.readAt c.offset).1 ∧
      (readAttribute c nonempty).diagnostics = (a.readAt c.offset).2 ∧
      (readAttribute c nonempty).after =
        ⟨c.offset + a.name.byteLength + a.value.byteLength + 3, tail⟩ := by
  obtain ⟨quote, isQuote, outside, quoted⟩ := Component.exists_quoteValue readable.quotable
  have rest_eq : c.rest = a.name ++ '=' :: quote :: (a.value ++ quote :: tail) := by
    simpa [Assignment.written, quoted] using rest_eq
  have ends : ∀ character ∈ ('=' :: quote :: (a.value ++ quote :: tail)).head?,
      isNamePart character = false := by simp [isNamePart, Text.isNameEnd]
  have name_eq : c.rest.takeWhile isNamePart = a.name := by
    rw [rest_eq]
    exact (Cursor.takeWhile_eq readable.parts ends).1
  have nameEnd : c.skipWhile isNamePart =
      ⟨c.offset + a.name.byteLength, '=' :: quote :: (a.value ++ quote :: tail)⟩ :=
    Cursor.skipWhile_eq rest_eq readable.parts ends
  have equals : (⟨c.offset + a.name.byteLength, '=' :: quote :: (a.value ++ quote :: tail)⟩ :
      Cursor).skipWhile Text.isSpace = _ := Cursor.skipWhile_none (by simp [Text.isSpace])
  have behind : (⟨c.offset + a.name.byteLength, '=' :: quote :: (a.value ++ quote :: tail)⟩ :
      Cursor).skip 1 = ⟨c.offset + a.name.byteLength + 1, quote :: (a.value ++ quote :: tail)⟩ := rfl
  have opened : (⟨c.offset + a.name.byteLength + 1, quote :: (a.value ++ quote :: tail)⟩ :
      Cursor).skipWhile Text.isSpace = _ :=
    Cursor.skipWhile_none (by simp [Text.not_isSpace_of_isQuote isQuote])
  have value_eq := readValue_quoted a.name isQuote outside
    (c := ⟨c.offset + a.name.byteLength + 1, quote :: (a.value ++ quote :: tail)⟩) rfl
  unfold readAttribute
  simp only [name_eq, nameEnd, readable.named, dite_false, equals, behind, opened, value_eq,
    valueNodes_eq (classify a.name).1 _ ⟨a.value, _, _, _⟩]
  have offset_eq : c.offset + a.name.byteLength + 1 + a.value.byteLength + 2 =
      c.offset + a.name.byteLength + a.value.byteLength + 3 := by omega
  rw [offset_eq]
  exact ⟨rfl, rfl, rfl⟩

theorem skipWhile_written (readable : a.Readable) (rest_eq : c.rest = a.written ++ tail) :
    ∃ first rest, c.skipWhile Text.isSpace = ⟨c.offset + 1, first :: rest⟩ ∧
      isNamePart first = true ∧ ' ' :: first :: rest = a.written ++ tail := by
  obtain ⟨first, more, name_eq⟩ := List.exists_cons_of_ne_nil readable.named
  have part : isNamePart first = true :=
    readable.parts first (by rw [name_eq]; exact List.mem_cons_self)
  refine ⟨first, more ++ '=' :: Component.quoteValue a.value ++ tail, ?_, part, ?_⟩
  · have blank : c.rest = [' '] ++ (first :: (more ++ '=' :: Component.quoteValue a.value ++ tail)) := by
      rw [rest_eq, Assignment.written, name_eq]
      simp
    rw [Cursor.skipWhile_eq blank (by simp [Text.isSpace])
      (by simp [not_isSpace_of_isNamePart part])]
    rfl
  · rw [Assignment.written, name_eq]
    simp

/-- Attributes that were written are read one after the other up to the end of the
tag. -/
theorem outcome_readTagBody_written (tag : Text) (start : Nat)
    (readable : ∀ a ∈ attributes, Assignment.Readable a)
    (rest_eq : c.rest = attributes.flatMap Assignment.written ++ '>' :: tail) :
    (readTagBody tag start c).outcome =
      ⟨(Assignment.readAllAt c.offset attributes).map Prod.fst, false,
        (Assignment.readAllAt c.offset attributes).flatMap Prod.snd,
        ⟨c.offset + Text.byteLength (attributes.flatMap Assignment.written) + 1, tail⟩⟩ := by
  induction attributes generalizing c with
  | nil =>
    have here : c.skipWhile Text.isSpace = c :=
      Cursor.skipWhile_none (by rw [rest_eq]; simp [Text.isSpace])
    rw [outcome_readTagBody_end tag start (by rw [here]; exact rest_eq), here,
      Cursor.skip_one rest_eq]
    rfl
  | cons a attributes ih =>
    obtain ⟨readable, later⟩ := List.forall_mem_cons.mp readable
    rw [List.flatMap_cons, List.append_assoc] at rest_eq
    obtain ⟨first, rest, here, part, written⟩ := skipWhile_written readable rest_eq
    have nonempty : (⟨c.offset + 1, first :: rest⟩ : Cursor).rest ≠ [] := List.cons_ne_nil _ _
    obtain ⟨value_eq, diagnostics_eq, after_eq⟩ := readAttribute_written readable nonempty written
    have behind : c.offset + 1 + a.name.byteLength + a.value.byteLength + 3 =
        c.offset + a.written.byteLength := by
      rw [Assignment.byteLength_written readable]
      omega
    rw [behind] at after_eq
    rw [outcome_readTagBody_attribute tag start here rfl (plain_of_isNamePart part) nonempty]
    dsimp only
    rw [value_eq, diagnostics_eq, after_eq, ih later rfl, List.flatMap_cons,
      Text.byteLength_append, ← Nat.add_assoc]
    rfl

def elementText (name : Text) (attributes : List Assignment) : Text :=
  '<' :: name ++ attributes.flatMap Assignment.written ++ "></".toList ++ name ++ ">".toList

theorem reads_startTag (letter : startsTagName name = true)
    (parts : ∀ character ∈ name, isNamePart character = true)
    (readable : ∀ a ∈ attributes, Assignment.Readable a)
    (rest_eq : c.rest = '<' :: (name ++ (attributes.flatMap Assignment.written ++ '>' :: tail))) :
    let start := c.offset + 1 + name.byteLength
    let stop := start + Text.byteLength (attributes.flatMap Assignment.written) + 1
    let found := Assignment.readAllAt start attributes
    Reads c (.startTag ⟨c.offset, stop⟩ name (found.map Prod.fst) false,
      found.flatMap Prod.snd) ⟨stop, tail⟩ := by
  intro start stop found
  have opens : opening? c.rest = some .startTag := by
    rw [rest_eq]
    exact opening?_startTag (startsTagName_append letter)
  have ends : ∀ character ∈ (attributes.flatMap Assignment.written ++ '>' :: tail).head?,
      isNamePart character = false := by
    cases attributes <;> simp [Assignment.written, isNamePart, Text.isNameEnd, Text.isSpace]
  have nameStart : c.skip 1 = ⟨c.offset + 1, _⟩ := Cursor.skip_one rest_eq
  have nameEnd : (⟨c.offset + 1, _⟩ : Cursor).skipWhile isNamePart = ⟨start, _⟩ :=
    Cursor.skipWhile_eq rfl parts ends
  have reads := Reads.startTag opens
  dsimp only at reads
  rw [nameStart, (Cursor.takeWhile_eq parts ends).1, nameEnd,
    outcome_readTagBody_written name c.offset readable rfl] at reads
  exact reads

theorem reads_endTag (letter : startsTagName name = true)
    (parts : ∀ character ∈ name, isNamePart character = true)
    (rest_eq : c.rest = '<' :: '/' :: (name ++ '>' :: tail)) :
    Reads c (.endTag ⟨c.offset, c.offset + name.byteLength + 3⟩ name, [])
      ⟨c.offset + name.byteLength + 3, tail⟩ := by
  have reads := Reads.endTag [] letter parts (by simp) rest_eq
  simpa only [Text.byteLength_nil, Nat.add_zero, Nat.add_assoc] using reads

theorem through_element (letter : startsTagName name = true)
    (parts : ∀ character ∈ name, isNamePart character = true)
    (readable : ∀ a ∈ attributes, Assignment.Readable a)
    (rest_eq : c.rest = elementText name attributes ++ tail) :
    let found := Assignment.readAllAt (c.offset + 1 + name.byteLength) attributes
    let middle := c.offset + 1 + name.byteLength +
      Text.byteLength (attributes.flatMap Assignment.written) + 1
    let stop := c.offset + (elementText name attributes).byteLength
    Through c [(.startTag ⟨c.offset, middle⟩ name (found.map Prod.fst) false,
      found.flatMap Prod.snd), (.endTag ⟨middle, stop⟩ name, [])] ⟨stop, tail⟩ := by
  intro found middle stop
  have stop_eq : middle + name.byteLength + 3 = stop := by
    have opens : ('<' : Char).utf8Size = 1 := rfl
    have between : Text.byteLength "></".toList = 3 := rfl
    have closes : Text.byteLength ">".toList = 1 := rfl
    simp only [middle, stop, elementText, Text.byteLength_cons, Text.byteLength_append, opens, between,
      closes]
    omega
  have split : c.rest = '<' :: (name ++ (attributes.flatMap Assignment.written ++
      '>' :: '<' :: '/' :: (name ++ '>' :: tail))) := by
    simpa [elementText] using rest_eq
  have closed := reads_endTag (c := ⟨middle, '<' :: '/' :: (name ++ '>' :: tail)⟩) letter parts rfl
  rw [stop_eq] at closed
  exact .step (reads_startTag letter parts readable split) (.step closed (.refl _))

theorem not_special_of_hyphen (hyphen : '-' ∈ name) :
    isVoid name = false ∧ isClosedBySibling name = false := by
  have lower : '-' ∈ name.lowercase := List.mem_map.mpr ⟨'-', hyphen, by decide⟩
  have plain : ∀ elements : List String, (∀ element ∈ elements, '-' ∉ element.toList) →
      elements.any (fun element => element.toList = name.lowercase) = false := by
    intro elements unhyphened
    refine List.any_eq_false.mpr fun element member same => unhyphened element member ?_
    rw [of_decide_eq_true same]
    exact lower
  exact ⟨plain voidElements (by decide), plain elementsClosedBySibling (by decide)⟩

theorem Nesting.run_element (n : Nesting) (hyphen : '-' ∈ name) (span span' : Span)
    (nodes : List Node) (found : List Diagnostic) (more : List (Piece × List Diagnostic)) :
    n.run ((.startTag span name nodes false, found) :: (.endTag span' name, []) :: more) =
      let next := (n.add (Node.mk (.element name) ⟨span.start, span'.stop⟩ nodes)).run more
      (next.1, found ++ next.2) := by
  obtain ⟨full, nestable⟩ := not_special_of_hyphen hyphen
  have opened : (n.step (.startTag span name nodes false)) =
      (n.push ⟨name, span.start, nodes.reverse⟩, []) := by
    simp [step, startTag, full, nestable]
  have closed : (n.push ⟨name, span.start, nodes.reverse⟩).step (.endTag span' name) =
      (n.add (Node.mk (.element name) ⟨span.start, span'.stop⟩ nodes), []) := by
    have innermost : (n.push ⟨name, span.start, nodes.reverse⟩).depthOf? name = some 0 := by
      simp [depthOf?, push, List.findIdx?_cons, Text.sameIgnoringCase]
    rw [step, endTag, innermost]
    simp [closeMany, close, push]
  rw [run, opened]
  dsimp only
  rw [run, closed]
  simp

/-- An element that was written is read as that element and nothing else. -/
theorem children_parse_elementText (letter : startsTagName name = true)
    (parts : ∀ character ∈ name, isNamePart character = true) (hyphen : '-' ∈ name)
    (readable : ∀ a ∈ attributes, Assignment.Readable a) (url : Text) :
    (parse (elementText name attributes) url).template.root.children =
      [Node.mk (.element name) ⟨0, (elementText name attributes).byteLength⟩
        ((Assignment.readAllAt (1 + name.byteLength) attributes).map Prod.fst)] := by
  have pieces_eq := (through_element (c := Cursor.start (elementText name attributes)) letter
    parts readable (List.append_nil _).symm).piecesFrom_eq
  have offset_eq : (Cursor.start (elementText name attributes)).offset = 0 := rfl
  rw [offset_eq, Nat.zero_add, Nat.zero_add] at pieces_eq
  have done : piecesFrom ⟨(elementText name attributes).byteLength, []⟩ = [] := by
    rw [piecesFrom, dif_pos rfl]
  have run_eq := Nesting.run_element Nesting.empty hyphen
  rw [done, List.append_nil] at pieces_eq
  dsimp only at pieces_eq run_eq
  rw [parse, pieces, pieces_eq, run_eq]
  rfl

section

variable {source : Text} {node : Node} {kind owner : Kind} {offset : Nat}

def Assignment.ReadFrom (source : Text) (a : Assignment) (node : Node) : Prop :=
  ∃ offset, a.value.StandsAt (offset + a.name.byteLength + 2) source ∧ node = (a.readAt offset).1

/-- What is read from attributes in a source, each has a node of its own. -/
theorem readFrom_readAllAt (readable : ∀ a ∈ attributes, Assignment.Readable a)
    (stands : Text.StandsAt (attributes.flatMap Assignment.written) offset source) :
    List.Forall₂ (Assignment.ReadFrom source) attributes
      ((Assignment.readAllAt offset attributes).map Prod.fst) := by
  induction attributes generalizing offset with
  | nil => exact .nil
  | cons a attributes ih =>
    obtain ⟨readable, later⟩ := List.forall_mem_cons.mp readable
    rw [List.flatMap_cons] at stands
    refine .cons ⟨offset + 1, ?_, rfl⟩ (ih later ?_)
    · obtain ⟨quote, isQuote, -, quoted⟩ := Component.exists_quoteValue readable.quotable
      have split : a.written ++ attributes.flatMap Assignment.written =
          (' ' :: a.name ++ '=' :: [quote]) ++ a.value ++
            (quote :: attributes.flatMap Assignment.written) := by
        rw [Assignment.written, quoted]
        simp
      refine stands.within split ?_
      simp only [Text.byteLength_append, Text.byteLength_cons, Text.byteLength_nil,
        Text.utf8Size_of_isQuote isQuote, show (' ' : Char).utf8Size = 1 from rfl,
        show ('=' : Char).utf8Size = 1 from rfl, List.cons_append]
      omega
    · exact stands.within (c := []) (List.append_nil _).symm rfl

theorem standsAt_elementText (name : Text) (attributes : List Assignment) :
    Text.StandsAt (attributes.flatMap Assignment.written) (1 + name.byteLength)
      (elementText name attributes) :=
  ⟨'<' :: name, "></".toList ++ name ++ ">".toList, by simp [elementText], rfl⟩

/-- A node of a source assigns a value: what it is says what the value is for, and
the value is held by a node of its own. -/
structure Assigns (source : Text) (kind owner : Kind) (value : Text) (node : Node) : Prop where
  kind_eq : node.kind = kind
  holds : ∃ name equals held, node.children = [Node.leaf name, Node.leaf equals, held] ∧
    held.kind = owner ∧ held.span.textIn? source = some value

theorem Assignment.ReadFrom.assigns (read : a.ReadFrom source node)
    (classified : classify a.name = (kind, .binding) ∧ owner = .binding ∨
      classify a.name = (kind, .action) ∧ owner = .action) :
    Assigns source kind owner a.value node := by
  obtain ⟨offset, ⟨before, after, source_eq, offset_eq⟩, rfl⟩ := read
  have nodes_eq : (classify a.name).1 = kind ∧ ∃ nodes,
      (a.valueAt (offset + a.name.byteLength + 2)).1 = [Node.mk owner ⟨offset + a.name.byteLength + 2,
        offset + a.name.byteLength + 2 + a.value.byteLength⟩ nodes] := by
    rcases classified with ⟨classified, rfl⟩ | ⟨classified, rfl⟩ <;>
    · rw [valueAt, classified]
      exact ⟨rfl, _, rfl⟩
  obtain ⟨kind_eq, nodes, nodes_eq⟩ := nodes_eq
  refine ⟨kind_eq, ⟨_, _⟩, ⟨_, _⟩, _, by rw [readAt, nodes_eq]; rfl, rfl, ?_⟩
  exact Text.slice?_eq_some_iff.mpr ⟨before, after, source_eq, offset_eq, by rw [Node.span_mk, offset_eq]⟩

end

theorem between?_eq {opening closing : String} {name : Text} (nonempty : name ≠ []) :
    between? opening closing (opening.toList ++ name ++ closing.toList) = some name := by
  simp [between?, List.append_assoc, nonempty]

theorem classify_twoWay (nonempty : name ≠ []) :
    classify ("[(".toList ++ name ++ ")]".toList) = (.bananaBox name, .binding) := by
  rw [classify, twoWayProperty?, between?_eq nonempty]
  rfl

theorem classify_oneWay (nonempty : name ≠ []) (word : '(' ∉ name) :
    classify ("[".toList ++ name ++ "]".toList) = (.propertyBinding name, .binding) := by
  have other : twoWayProperty? ("[".toList ++ name ++ "]".toList) = none := by
    obtain ⟨first, rest, rfl⟩ := List.exists_cons_of_ne_nil nonempty
    have first_ne : '(' ≠ first := fun same => word (same ▸ List.mem_cons_self)
    simp [twoWayProperty?, between?, behind?, Text.stripStart?, first_ne]
  rw [classify, other]
  dsimp only
  rw [boundProperty?, between?_eq nonempty]
  rfl

theorem classify_event (nonempty : name ≠ []) :
    classify ("(".toList ++ name ++ ")".toList) = (.event name, .action) := by
  have other : twoWayProperty? ("(".toList ++ name ++ ")".toList) = none ∧
      boundProperty? ("(".toList ++ name ++ ")".toList) = none := by
    simp [twoWayProperty?, boundProperty?, between?, behind?, Text.stripStart?]
  rw [classify, other.1, other.2]
  dsimp only
  rw [handledEvent?, between?_eq nonempty]
  rfl

end Markup

end ComponentExtraction
