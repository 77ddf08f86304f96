import ComponentExtraction.Proofs.Markup.Relocation
import ComponentExtraction.Proofs.Markup.Written

/-!
# Printed markup is read back

A forest of elements, comments and texts is printed with its attributes in double
quotes and an end tag for every element that may have content. Reading the print
gives the forest again: the same nodes (`Item.nodesAt` says where each of them
stands), the same names, values and texts, and nothing is noticed. A forest that
would be read otherwise is not `WellFormed`.

The pieces of an item add one node to the innermost open element and leave the
others alone (`Adds`). That is shown for all stacks of open elements and whatever is
printed behind the item, by induction on the forest.
-/

namespace ComponentExtraction

namespace Markup

open Node

/-- A part of a document. -/
inductive Item where
  | text (content : Text)
  | comment (content : Text)
  | element (name : Text) (attributes : List Assignment) (children : List Item)

def Assignment.print (a : Assignment) : Text :=
  ' ' :: a.name ++ "=\"".toList ++ a.value ++ "\"".toList

def printStartTag (name : Text) (attributes : List Assignment) : Text :=
  '<' :: name ++ attributes.flatMap Assignment.print ++ ">".toList

def printEndTag (name : Text) : Text :=
  "</".toList ++ name ++ ">".toList

def commentStart : Text :=
  "<!--".toList

def commentEnd : Text :=
  "-->".toList

namespace Item

mutual

def print : Item → Text
  | text content => content
  | comment content => commentStart ++ content ++ commentEnd
  | element name attributes children =>
    if isVoid name then printStartTag name attributes
    else printStartTag name attributes ++ printAll children ++ printEndTag name

def printAll : List Item → Text
  | [] => []
  | item :: items => item.print ++ printAll items

end

def isText : Item → Bool
  | text _ => true
  | _ => false

def name? : Item → Option Text
  | element name _ _ => some name
  | _ => none

end Item

/-- An attribute without a meaning of its own, whose value can stand in double
quotes and holds no interpolation. -/
structure Assignment.Plain (a : Assignment) : Prop where
  named : a.name ≠ []
  parts : ∀ c ∈ a.name, isNamePart c = true
  plain : (classify a.name).1 = .plainAttribute a.name
  unquoted : '\x22' ∉ a.value
  constant : ¬interpolationStart <:+: a.value

def Apart (items : List Item) : Prop :=
  items.IsChain fun first second => ¬(first.isText = true ∧ second.isText = true)

/-- None of the items is an element that an element of the given name is closed by. -/
def Nestable (name : Text) (items : List Item) : Prop :=
  ∀ item ∈ items, ∀ inner ∈ item.name?, isClosedBySibling inner = true →
    Text.sameIgnoringCase name inner = false

/-- The items that are read as they are printed: texts hold no tag and
no interpolation, comments do not hold the mark that ends them. -/
inductive Item.WellFormed : Item → Prop
  | text {content : Text} (nonempty : content ≠ []) (tagless : '<' ∉ content)
      (constant : ¬interpolationStart <:+: content) (terminated : '\x00' ∉ content) :
      WellFormed (.text content)
  | comment {content : Text} (unended : ¬commentEnd <:+: content) :
      WellFormed (.comment content)
  | element {name : Text} {attributes : List Assignment} {children : List Item}
      (letter : startsTagName name = true) (parts : ∀ c ∈ name, isNamePart c = true)
      (plain : ∀ a ∈ attributes, a.Plain) (empty : isVoid name = true → children = [])
      (nestable : Nestable name children) (apart : Apart children)
      (inner : ∀ child ∈ children, WellFormed child) :
      WellFormed (.element name attributes children)

/-- The forests that are read as they are printed. -/
structure WellFormed (forest : List Item) : Prop where
  apart : Apart forest
  each : ∀ item ∈ forest, item.WellFormed

def Assignment.nodeAt (offset : Nat) (a : Assignment) : Node :=
  let nameStop := offset + a.name.byteLength
  .mk (.plainAttribute a.name) ⟨offset, nameStop + a.value.byteLength + 3⟩
    [leaf ⟨offset, nameStop⟩, leaf ⟨nameStop, nameStop + 1⟩]

def Assignment.nodesAt (offset : Nat) : List Assignment → List Node
  | [] => []
  | a :: attributes =>
    a.nodeAt (offset + 1) :: nodesAt (offset + a.print.byteLength) attributes

namespace Item

mutual

/-- The node of an item that is printed at an offset: an element reaches from its
start tag to the end of its end tag. -/
def nodeAt (offset : Nat) : Item → Node
  | text content => .mk .text ⟨offset, offset + content.byteLength⟩ []
  | comment content => .mk .comment ⟨offset, offset + (print (comment content)).byteLength⟩ []
  | element name attributes children =>
    .mk (.element name) ⟨offset, offset + (print (element name attributes children)).byteLength⟩
      (Assignment.nodesAt (offset + 1 + name.byteLength) attributes ++
        nodesAt (offset + (printStartTag name attributes).byteLength) children)

def nodesAt (offset : Nat) : List Item → List Node
  | [] => []
  | item :: items => item.nodeAt offset :: nodesAt (offset + item.print.byteLength) items

end

end Item

variable {c d : Cursor} {name content tail : Text} {a : Assignment}
variable {attributes : List Assignment} {item : Item} {items : List Item}

theorem splitOnce?_eq_none {pattern text : Text} (outside : ¬pattern <:+: text) :
    Text.splitOnce? pattern text = none := by
  cases found : Text.splitOnce? pattern text with
  | none => rfl
  | some parts => exact absurd ⟨parts.1, parts.2, (Text.eq_append_of_splitOnce? found).symm⟩ outside

theorem stripStart?_eq_none {pattern text : Text} (outside : ¬pattern <:+: text) :
    Text.stripStart? pattern text = none := by
  cases found : Text.stripStart? pattern text with
  | none => rfl
  | some rest => exact absurd ⟨[], rest, (Text.eq_append_of_stripStart? found).symm⟩ outside

/-- A text without tags and interpolations ends where a tag or comment starts. -/
theorem textLength_print (tagless : '<' ∉ content) (constant : ¬interpolationStart <:+: content)
    (stops : Stops tail) : textLength (content ++ tail) = content.length := by
  induction content with
  | nil =>
    cases tail with
    | nil => simp [textLength]
    | cons first rest =>
      rcases stops with empty | opens
      · exact absurd empty (List.cons_ne_nil _ _)
      · simp [textLength, opens]
  | cons first content ih =>
    obtain ⟨other, later⟩ : '<' ≠ first ∧ '<' ∉ content := by simpa using tagless
    have inner : ¬interpolationStart <:+: content := fun found =>
      constant (List.infix_cons found)
    have plain : opening? (first :: content ++ tail) = none := by
      simp [opening?, List.isPrefixOf, other]
    have starts : Text.stripStart? interpolationStart (first :: content ++ tail) = none := by
      rw [stripStart?_append_of_breaks (List.cons_ne_nil _ _) stops.head?_eq,
        stripStart?_eq_none constant]
      rfl
    rw [List.cons_append] at plain starts ⊢
    rw [textLength_plain plain starts, ih later inner, List.length_cons]

theorem reads_text (nonempty : content ≠ []) (tagless : '<' ∉ content)
    (constant : ¬interpolationStart <:+: content) (stops : Stops tail)
    (rest_eq : c.rest = content ++ tail) :
    Reads c (.text ⟨c.offset, c.offset + content.byteLength⟩ [], [])
      ⟨c.offset + content.byteLength, tail⟩ := by
  have plain : opening? c.rest = none := by
    obtain ⟨first, rest, rfl⟩ := List.exists_cons_of_ne_nil nonempty
    have other : '<' ≠ first := fun same => tagless (same ▸ List.mem_cons_self)
    rw [rest_eq]
    simp [opening?, List.isPrefixOf, other]
  have reads := Reads.text plain (by simp [rest_eq, nonempty])
  have length_eq : textLength c.rest = content.length := by
    rw [rest_eq]
    exact textLength_print tagless constant stops
  have taken : c.rest.take content.length = content := by
    rw [rest_eq, List.take_left]
  dsimp only at reads
  rw [length_eq, taken, Cursor.skip_eq rest_eq,
    interpolations_none c.offset (splitOnce?_eq_none constant)] at reads
  exact reads

theorem splitOnce?_comment (unended : ¬commentEnd <:+: content) :
    Text.splitOnce? commentEnd (content ++ (commentEnd ++ tail)) = some (content, tail) := by
  induction content with
  | nil => rfl
  | cons first content ih =>
    have inner := ih fun found => unended (List.infix_cons found)
    -- A mark that starts before the printed one would have to end inside it.
    have starts : Text.stripStart? commentEnd (first :: (content ++ (commentEnd ++ tail))) =
        none := by
      rcases content with _ | ⟨second, _ | ⟨third, content⟩⟩
      · simp [commentEnd, Text.stripStart?]
      · simp [commentEnd, Text.stripStart?]
      · rw [← List.cons_append, Text.stripStart?_append_of_le (by simp [commentEnd]),
          stripStart?_eq_none unended]
        rfl
    rw [List.cons_append, Text.splitOnce?, starts, inner]
    rfl

theorem reads_comment (unended : ¬commentEnd <:+: content)
    (rest_eq : c.rest = (Item.comment content).print ++ tail) :
    let stop := c.offset + (Item.comment content).print.byteLength
    Reads c (.comment ⟨c.offset, stop⟩, []) ⟨stop, tail⟩ := by
  have rest_eq : c.rest = commentStart ++ (content ++ (commentEnd ++ tail)) := by
    rw [rest_eq, Item.print, List.append_assoc, List.append_assoc]
  have reads := Reads.comment rest_eq (splitOnce?_comment unended)
  have length_eq : (Item.comment content).print.byteLength = content.byteLength + 7 := by
    have opens : commentStart.byteLength = 4 := rfl
    have closes : commentEnd.byteLength = 3 := rfl
    rw [Item.print, Text.byteLength_append, Text.byteLength_append]
    omega
  rw [length_eq]
  exact reads

theorem Assignment.Plain.classify_eq (plain : a.Plain) :
    classify a.name = (.plainAttribute a.name, .interpolated) := by
  have kind_eq := plain.plain
  unfold classify at kind_eq ⊢
  repeat' split
  all_goals simp_all

theorem Assignment.Plain.written_eq (plain : a.Plain) : a.written = a.print := by
  rw [written, Component.quoteValue, if_neg plain.unquoted, print]
  simp

theorem Assignment.Plain.readable (plain : a.Plain) : a.Readable :=
  ⟨plain.named, plain.parts, fun both => plain.unquoted both.1⟩

theorem Assignment.Plain.readAt_eq (plain : a.Plain) (offset : Nat) :
    a.readAt offset = (a.nodeAt offset, []) := by
  have none_found : a.valueAt (offset + a.name.byteLength + 2) = ([], []) := by
    rw [valueAt, plain.classify_eq]
    exact interpolations_none _ (splitOnce?_eq_none plain.constant)
  rw [readAt, none_found, plain.classify_eq]
  rfl

theorem flatMap_written (plain : ∀ a ∈ attributes, a.Plain) :
    attributes.flatMap Assignment.written = attributes.flatMap Assignment.print :=
  List.flatMap_congr fun a member => (plain a member).written_eq

theorem readAllAt_eq (plain : ∀ a ∈ attributes, a.Plain) (offset : Nat) :
    (Assignment.readAllAt offset attributes).map Prod.fst = Assignment.nodesAt offset attributes ∧
      (Assignment.readAllAt offset attributes).flatMap Prod.snd = [] := by
  induction attributes generalizing offset with
  | nil => exact ⟨rfl, rfl⟩
  | cons a attributes ih =>
    obtain ⟨first, later⟩ := List.forall_mem_cons.mp plain
    obtain ⟨nodes_eq, none_found⟩ := ih later (offset + a.print.byteLength)
    simp only [Assignment.readAllAt, first.readAt_eq, first.written_eq, List.map_cons,
      List.flatMap_cons, nodes_eq, none_found, Assignment.nodesAt, List.nil_append, and_self]

theorem byteLength_printStartTag (name : Text) (attributes : List Assignment) :
    (printStartTag name attributes).byteLength =
      1 + name.byteLength + Text.byteLength (attributes.flatMap Assignment.print) + 1 := by
  simp only [printStartTag, List.cons_append, Text.byteLength_cons, Text.byteLength_append,
    show ('<' : Char).utf8Size = 1 from rfl, show Text.byteLength ">".toList = 1 from rfl]
  omega

theorem reads_printStartTag (letter : startsTagName name = true)
    (parts : ∀ character ∈ name, isNamePart character = true)
    (plain : ∀ a ∈ attributes, a.Plain) (rest_eq : c.rest = printStartTag name attributes ++ tail) :
    let stop := c.offset + (printStartTag name attributes).byteLength
    Reads c (.startTag ⟨c.offset, stop⟩ name
      (Assignment.nodesAt (c.offset + 1 + name.byteLength) attributes) false, []) ⟨stop, tail⟩ := by
  intro stop
  have split : c.rest = '<' :: (name ++ (attributes.flatMap Assignment.written ++ '>' :: tail)) := by
    rw [rest_eq, flatMap_written plain, printStartTag]
    simp
  obtain ⟨nodes_eq, none_found⟩ := readAllAt_eq plain (c.offset + 1 + name.byteLength)
  have stop_eq : c.offset + 1 + name.byteLength +
      Text.byteLength (attributes.flatMap Assignment.print) + 1 = stop := by
    dsimp only [stop]
    rw [byteLength_printStartTag]
    omega
  have reads := reads_startTag letter parts (fun a member => (plain a member).readable) split
  dsimp only at reads
  rw [nodes_eq, none_found, flatMap_written plain, stop_eq] at reads
  exact reads

theorem reads_printEndTag (letter : startsTagName name = true)
    (parts : ∀ character ∈ name, isNamePart character = true)
    (rest_eq : c.rest = printEndTag name ++ tail) :
    let stop := c.offset + (printEndTag name).byteLength
    Reads c (.endTag ⟨c.offset, stop⟩ name, []) ⟨stop, tail⟩ := by
  intro stop
  have split : c.rest = '<' :: '/' :: (name ++ '>' :: tail) := by
    rw [rest_eq, printEndTag]
    simp
  have stop_eq : c.offset + name.byteLength + 3 = stop := by
    have opens : Text.byteLength "</".toList = 2 := rfl
    have closes : Text.byteLength ">".toList = 1 := rfl
    dsimp only [stop]
    rw [printEndTag, Text.byteLength_append, Text.byteLength_append]
    omega
  have reads := reads_endTag letter parts split
  rw [stop_eq] at reads
  exact reads

namespace Nesting

variable {n : Nesting}

def addAll (nodes : List Node) (n : Nesting) : Nesting :=
  nodes.foldl (fun n node => n.add node) n

theorem addAll_push (nodes : List Node) (element : OpenElement) (n : Nesting) :
    (n.push element).addAll nodes =
      n.push { element with children := nodes.reverse ++ element.children } := by
  induction nodes generalizing element with
  | nil => rfl
  | cons node nodes ih =>
    change (n.push { element with children := node :: element.children }).addAll nodes = _
    rw [ih, List.reverse_cons, List.append_assoc]
    rfl

theorem addAll_empty (nodes outside : List Node) :
    addAll nodes ⟨outside, []⟩ = ⟨nodes.reverse ++ outside, []⟩ := by
  induction nodes generalizing outside with
  | nil => rfl
  | cons node nodes ih =>
    change addAll nodes ⟨node :: outside, []⟩ = _
    rw [ih, List.reverse_cons, List.append_assoc]
    rfl

@[simp] theorem isInnermost_add (node : Node) (n : Nesting) (name : Text) :
    (n.add node).isInnermost name = n.isInnermost name := by
  obtain ⟨outside, stack⟩ := n
  cases stack <;> rfl

/-- The innermost open element is not closed by the start of one of the items. -/
def Admits (n : Nesting) (items : List Item) : Prop :=
  ∀ item ∈ items, ∀ name ∈ item.name?, isClosedBySibling name = true →
    n.isInnermost name = false

theorem Admits.add {items : List Item} (h : n.Admits items) (node : Node) :
    (n.add node).Admits items := by
  intro item member name named closes
  rw [isInnermost_add]
  exact h item member name named closes

theorem admits_push {items : List Item} (nestable : Nestable name items) (start : Nat)
    (children : List Node) (n : Nesting) : (n.push ⟨name, start, children⟩).Admits items :=
  nestable

end Nesting

/-- Pieces are read from a cursor to another one that add nodes to the innermost open
element, if it admits the items. -/
def Adds (items : List Item) (c : Cursor) (nodes : List Node) (d : Cursor) : Prop :=
  ∃ found, Through c found d ∧ ∀ (n : Nesting) (more : List (Piece × List Diagnostic)),
    n.Admits items → n.run (found ++ more) = (n.addAll nodes).run more

theorem Adds.nil (c : Cursor) : Adds [] c [] c :=
  ⟨[], .refl c, fun _ _ _ => rfl⟩

theorem Adds.cons {e : Cursor} {node : Node} {nodes : List Node} (first : Adds [item] c [node] d)
    (later : Adds items d nodes e) : Adds (item :: items) c (node :: nodes) e := by
  obtain ⟨found, through, run_eq⟩ := first
  obtain ⟨found', through', run_eq'⟩ := later
  refine ⟨found ++ found', through.trans through', ?_⟩
  intro n more admits
  obtain ⟨here, behind⟩ := List.forall_mem_cons.mp admits
  have here : n.Admits [item] := List.forall_mem_singleton.mpr here
  have behind : (n.add node).Admits items := Nesting.Admits.add behind node
  rw [List.append_assoc, run_eq n _ here]
  exact run_eq' (n.add node) more behind

theorem Adds.of_reads {piece : Piece} {node : Node} (reads : Reads c (piece, []) d)
    (step_eq : ∀ n : Nesting, n.Admits [item] → n.step piece = (n.add node, [])) :
    Adds [item] c [node] d := by
  refine ⟨[(piece, [])], .step reads (.refl d), ?_⟩
  intro n more admits
  rw [List.singleton_append, Nesting.run, step_eq n admits]
  rfl

theorem startTag_of_admits {n : Nesting} {children : List Item}
    (admits : n.Admits [.element name attributes children]) (span : Span) (nodes : List Node) :
    n.startTag span name nodes false =
      if isVoid name then n.add (.mk (.element name) span nodes)
      else n.push ⟨name, span.start, nodes.reverse⟩ := by
  have stays : (isClosedBySibling name && n.isInnermost name) = false := by
    cases closes : isClosedBySibling name with
    | false => rfl
    | true => exact admits _ (List.mem_singleton.mpr rfl) name rfl closes
  rw [Nesting.startTag, stays, Bool.false_or]
  rfl

/-- An element is added once its content was and its end tag is read. -/
theorem Adds.element {e f : Cursor} {span span' : Span} {nodes inner : List Node}
    {children : List Item} (full : isVoid name = false) (nestable : Nestable name children)
    (opens : Reads c (.startTag span name nodes false, []) d)
    (content : Adds children d inner e) (closes : Reads e (.endTag span' name, []) f) :
    Adds [.element name attributes children] c
      [.mk (.element name) ⟨span.start, span'.stop⟩ (nodes ++ inner)] f := by
  obtain ⟨found, through, run_eq⟩ := content
  refine ⟨_, .step opens (through.trans (.step closes (.refl f))), ?_⟩
  intro n more admits
  have opened : n.step (.startTag span name nodes false) =
      (n.push ⟨name, span.start, nodes.reverse⟩, []) := by
    rw [Nesting.step, startTag_of_admits admits, full]
    rfl
  have closed : (n.push ⟨name, span.start, inner.reverse ++ nodes.reverse⟩).step
      (.endTag span' name) =
        (n.add (.mk (.element name) ⟨span.start, span'.stop⟩ (nodes ++ inner)), []) := by
    have innermost : (n.push ⟨name, span.start, inner.reverse ++ nodes.reverse⟩).depthOf? name =
        some 0 := by
      simp [Nesting.depthOf?, Nesting.push, List.findIdx?_cons, Text.sameIgnoringCase]
    rw [Nesting.step, Nesting.endTag, innermost]
    simp [Nesting.closeMany, Nesting.close, Nesting.push]
  rw [List.cons_append, Nesting.run, opened]
  simp only [List.append_assoc, List.nil_append, List.cons_append]
  rw [run_eq _ _ (Nesting.admits_push nestable _ _ n), Nesting.addAll_push, Nesting.run, closed]
  rfl

theorem stops_print (wellFormed : item.WellFormed) (tag : item.isText = false) (more : Text) :
    Stops (item.print ++ more) := by
  refine .inr ?_
  cases wellFormed with
  | text => exact absurd tag (by simp [Item.isText])
  | comment unended =>
    rw [Item.print, List.append_assoc, List.append_assoc, commentStart, opening?_comment]
    rfl
  | @element name attributes children letter =>
    have opens : ∀ rest, (opening? (printStartTag name attributes ++ rest)).isSome = true := by
      intro rest
      rw [printStartTag, List.append_assoc, List.append_assoc, List.cons_append,
        opening?_startTag (startsTagName_append letter)]
      rfl
    rw [Item.print]
    split
    · exact opens more
    · rw [List.append_assoc, List.append_assoc]
      exact opens _

theorem stops_printEndTag (letter : startsTagName name = true) (more : Text) :
    Stops (printEndTag name ++ more) := by
  refine .inr ?_
  rw [printEndTag, List.append_assoc, List.append_assoc]
  change (opening? ('<' :: '/' :: (name ++ _))).isSome = true
  rw [opening?_endTag (startsTagName_append letter)]
  rfl

theorem stops_printAll (apart : Apart (item :: items)) (each : ∀ item ∈ items, item.WellFormed)
    (text : item.isText = true) (stops : Stops tail) : Stops (Item.printAll items ++ tail) := by
  cases items with
  | nil => exact stops
  | cons next items =>
    have other : next.isText = false := by
      have := (List.isChain_cons_cons.mp apart).1
      simpa [text] using this
    rw [Item.printAll, List.append_assoc]
    exact stops_print (each next List.mem_cons_self) other _

theorem adds_void {children : List Item} (void : isVoid name = true)
    (letter : startsTagName name = true) (parts : ∀ character ∈ name, isNamePart character = true)
    (plain : ∀ a ∈ attributes, a.Plain) (empty : children = [])
    (rest_eq : c.rest = (Item.element name attributes children).print ++ tail) :
    Adds [.element name attributes children] c [(Item.element name attributes children).nodeAt c.offset]
      ⟨c.offset + (Item.element name attributes children).print.byteLength, tail⟩ := by
  subst empty
  have print_eq : (Item.element name attributes []).print = printStartTag name attributes := by
    rw [Item.print, if_pos void]
  rw [print_eq] at rest_eq ⊢
  refine .of_reads (reads_printStartTag letter parts plain rest_eq) ?_
  intro n admits
  rw [Nesting.step, startTag_of_admits admits, if_pos void, Item.nodeAt, Item.nodesAt, print_eq,
    List.append_nil]

mutual

/-- An item is read as one node, whatever is open and whatever is printed behind it. -/
theorem adds_item (c : Cursor) (item : Item) (tail : Text) (wellFormed : item.WellFormed)
    (stops : item.isText = true → Stops tail) (rest_eq : c.rest = item.print ++ tail) :
    Adds [item] c [item.nodeAt c.offset] ⟨c.offset + item.print.byteLength, tail⟩ := by
  cases item with
  | text content =>
    cases wellFormed with
    | text nonempty tagless constant _ =>
      exact .of_reads (reads_text nonempty tagless constant (stops rfl) rest_eq) fun _ _ => rfl
  | comment content =>
    cases wellFormed with
    | comment unended => exact .of_reads (reads_comment unended rest_eq) fun _ _ => rfl
  | element name attributes children =>
    cases wellFormed with
    | element letter parts plain empty nestable apart inner =>
      cases void : isVoid name with
      | true => exact adds_void void letter parts plain (empty void) rest_eq
      | false =>
        have print_eq : (Item.element name attributes children).print =
            printStartTag name attributes ++ Item.printAll children ++ printEndTag name := by
          rw [Item.print, void]
          rfl
        rw [print_eq, List.append_assoc, List.append_assoc] at rest_eq
        let inside : Cursor := ⟨c.offset + (printStartTag name attributes).byteLength,
          Item.printAll children ++ (printEndTag name ++ tail)⟩
        let behind : Cursor := ⟨inside.offset + (Item.printAll children).byteLength,
          printEndTag name ++ tail⟩
        have opens : Reads c _ inside := reads_printStartTag letter parts plain rest_eq
        have content : Adds children inside _ behind :=
          adds_all inside children _ ⟨apart, inner⟩ (stops_printEndTag letter tail) rfl
        have closes : Reads behind _ _ := reads_printEndTag letter parts rfl
        have added : Adds [.element name attributes children] c _ _ :=
          .element void nestable opens content closes
        have stop_eq : behind.offset + (printEndTag name).byteLength =
            c.offset + (Item.element name attributes children).print.byteLength := by
          rw [print_eq, Text.byteLength_append, Text.byteLength_append]
          dsimp only [behind, inside]
          omega
        rw [stop_eq] at added
        rw [Item.nodeAt]
        exact added

theorem adds_all (c : Cursor) (items : List Item) (tail : Text) (wellFormed : WellFormed items)
    (stops : Stops tail) (rest_eq : c.rest = Item.printAll items ++ tail) :
    Adds items c (Item.nodesAt c.offset items)
      ⟨c.offset + (Item.printAll items).byteLength, tail⟩ := by
  cases items with
  | nil =>
    obtain ⟨offset, rest⟩ := c
    cases rest_eq
    exact .nil _
  | cons item items =>
    obtain ⟨first, later⟩ := List.forall_mem_cons.mp wellFormed.each
    rw [Item.printAll, List.append_assoc] at rest_eq
    have here := adds_item c item _ first
      (fun text => stops_printAll wellFormed.apart later text stops) rest_eq
    have behind := adds_all ⟨c.offset + item.print.byteLength, Item.printAll items ++ tail⟩ items
      tail ⟨List.IsChain.tail wellFormed.apart, later⟩ stops rfl
    rw [Item.printAll, Text.byteLength_append, ← Nat.add_assoc, Item.nodesAt]
    exact here.cons behind

end

/-- The attribute that a node of a source stands for: its name, and its value
between the quotes. -/
def Assignment.ofNode? (source : Text) (node : Node) : Option Assignment :=
  match node.kind with
  | .plainAttribute name =>
    (((node.span.textIn? source).bind (Text.stripStart? (name ++ "=\"".toList))).bind
      (Text.stripEnd? "\"".toList)).map (Assignment.mk name)
  | _ => none

namespace Item

mutual

def ofNode? (source : Text) : Node → Option Item
  | .mk .text span _ => (span.textIn? source).map text
  | .mk .comment span _ =>
    (((span.textIn? source).bind (Text.stripStart? commentStart)).bind
      (Text.stripEnd? commentEnd)).map comment
  | .mk (.element name) _ children =>
    (contentOf? source children).map fun content => element name content.1 content.2
  | _ => none

def contentOf? (source : Text) : List Node → Option (List Assignment × List Item)
  | [] => some ([], [])
  | node :: nodes =>
    match Assignment.ofNode? source node with
    | some a => (contentOf? source nodes).map fun content => (a :: content.1, content.2)
    | none =>
      (ofNode? source node).bind fun item =>
        (contentOf? source nodes).map fun content => (content.1, item :: content.2)

end

end Item

variable {source : Text} {offset : Nat}

theorem textIn?_of_standsAt {text : Text} (stands : text.StandsAt offset source) :
    Span.textIn? ⟨offset, offset + text.byteLength⟩ source = some text :=
  stands.slice?_eq

theorem ofNode?_attribute (stands : a.print.StandsAt offset source) :
    Assignment.ofNode? source (a.nodeAt (offset + 1)) = some a := by
  have text_eq : Span.textIn? (a.nodeAt (offset + 1)).span source =
      some (a.name ++ "=\"".toList ++ a.value ++ "\"".toList) := by
    have inside : Text.StandsAt (a.name ++ "=\"".toList ++ a.value ++ "\"".toList) (offset + 1)
        source := by
      refine stands.within (a := [' ']) (c := []) ?_ rfl
      rw [Assignment.print, List.append_nil]
      rfl
    rw [← textIn?_of_standsAt inside, Assignment.nodeAt, span_mk]
    simp only [Text.byteLength_append, show Text.byteLength "=\"".toList = 2 from rfl,
      show Text.byteLength "\"".toList = 1 from rfl, Span.textIn?]
    congr 1
    omega
  rw [Assignment.ofNode?, text_eq]
  change (((some _).bind (Text.stripStart? (a.name ++ "=\"".toList))).bind _).map _ = _
  rw [Option.bind_some, List.append_assoc, Text.stripStart?_append, Option.bind_some,
    Text.stripEnd?_append]
  rfl

theorem contentOf?_attributes (stands : Text.StandsAt (attributes.flatMap Assignment.print) offset
    source) (nodes : List Node) :
    Item.contentOf? source (Assignment.nodesAt offset attributes ++ nodes) =
      (Item.contentOf? source nodes).map fun content => (attributes ++ content.1, content.2) := by
  induction attributes generalizing offset with
  | nil => simp [Assignment.nodesAt]
  | cons a attributes ih =>
    rw [List.flatMap_cons] at stands
    have later : Text.StandsAt (attributes.flatMap Assignment.print)
        (offset + a.print.byteLength) source :=
      stands.within (c := []) (List.append_nil _).symm rfl
    rw [Assignment.nodesAt, List.cons_append, Item.contentOf?, ofNode?_attribute stands.front,
      ih later]
    simp [Option.map_map, Function.comp_def]

theorem ofNode?_nodeAt_item (source : Text) (offset : Nat) (item : Item) :
    Assignment.ofNode? source (item.nodeAt offset) = none := by
  cases item <;> rfl

theorem ofNode?_comment (stands : (Item.comment content).print.StandsAt offset source) :
    Item.ofNode? source ((Item.comment content).nodeAt offset) = some (.comment content) := by
  rw [Item.nodeAt, Item.ofNode?, textIn?_of_standsAt stands, Item.print, Option.bind_some,
    List.append_assoc, Text.stripStart?_append, Option.bind_some, Text.stripEnd?_append]
  rfl

mutual

theorem ofNode?_nodeAt (offset : Nat) (item : Item) (wellFormed : item.WellFormed)
    (stands : item.print.StandsAt offset source) :
    Item.ofNode? source (item.nodeAt offset) = some item := by
  cases item with
  | text content =>
    rw [Item.print] at stands
    rw [Item.nodeAt, Item.ofNode?, textIn?_of_standsAt stands]
    rfl
  | comment content => exact ofNode?_comment stands
  | element name attributes children =>
    cases wellFormed with
    | element _ _ _ empty _ _ inner =>
      have parts : ∃ ending, (Item.element name attributes children).print =
          printStartTag name attributes ++ (Item.printAll children ++ ending) := by
        rw [Item.print]
        split
        · next void =>
          refine ⟨[], ?_⟩
          rw [empty void, Item.printAll, List.append_nil, List.append_nil]
        · exact ⟨printEndTag name, List.append_assoc _ _ _⟩
      obtain ⟨ending, print_eq⟩ := parts
      rw [print_eq] at stands
      have tag : Text.StandsAt (attributes.flatMap Assignment.print)
          (offset + 1 + name.byteLength) source := by
        refine stands.front.within (a := '<' :: name) (c := ">".toList) rfl ?_
        rw [Text.byteLength_cons, Nat.add_assoc]
        rfl
      have content := contentOf?_nodesAt (offset + (printStartTag name attributes).byteLength)
        children inner (stands.within (c := ending) (List.append_assoc _ _ _).symm rfl)
      rw [Item.nodeAt, Item.ofNode?, contentOf?_attributes tag, content]
      simp

theorem contentOf?_nodesAt (offset : Nat) (items : List Item)
    (wellFormed : ∀ item ∈ items, item.WellFormed)
    (stands : (Item.printAll items).StandsAt offset source) :
    Item.contentOf? source (Item.nodesAt offset items) = some ([], items) := by
  cases items with
  | nil => rw [Item.nodesAt, Item.contentOf?]
  | cons item items =>
    obtain ⟨first, later⟩ := List.forall_mem_cons.mp wellFormed
    rw [Item.printAll] at stands
    have here := ofNode?_nodeAt offset item first stands.front
    have behind := contentOf?_nodesAt (offset + item.print.byteLength) items later
      (stands.within (c := []) (List.append_nil _).symm rfl)
    rw [Item.nodesAt, Item.contentOf?, ofNode?_nodeAt_item, here, behind]
    rfl

end

/-- Reading a printed forest gives the forest back: nothing is noticed, every node
stands where its item was printed, and the nodes stand for the items. -/
theorem parse_printAll {forest : List Item} (wellFormed : WellFormed forest) (url : Text) :
    (parse (Item.printAll forest) url).diagnostics = [] ∧
      (parse (Item.printAll forest) url).template.root.children = Item.nodesAt 0 forest ∧
      Item.contentOf? (Item.printAll forest)
        (parse (Item.printAll forest) url).template.root.children = some ([], forest) := by
  obtain ⟨found, through, run_eq⟩ := adds_all (Cursor.start (Item.printAll forest)) forest []
    wellFormed (.inl rfl) (List.append_nil _).symm
  have done : piecesFrom ⟨(Cursor.start (Item.printAll forest)).offset +
      (Item.printAll forest).byteLength, []⟩ = [] := by
    rw [piecesFrom, dif_pos rfl]
  have pieces_eq : pieces (Item.printAll forest) = found := by
    rw [pieces, through.piecesFrom_eq, done, List.append_nil]
  have admits : Nesting.empty.Admits forest := fun _ _ _ _ _ => rfl
  have nested : Nesting.empty.run found = (⟨(Item.nodesAt 0 forest).reverse, []⟩, []) := by
    have run_eq := run_eq Nesting.empty [] admits
    rw [List.append_nil] at run_eq
    rw [run_eq, Nesting.empty, Nesting.addAll_empty, List.append_nil]
    rfl
  have stands : (Item.printAll forest).StandsAt 0 (Item.printAll forest) :=
    ⟨[], [], by simp, rfl⟩
  have children_eq : (parse (Item.printAll forest) url).template.root.children =
      Item.nodesAt 0 forest := by
    rw [parse, pieces_eq, nested]
    exact List.reverse_reverse _
  refine ⟨?_, children_eq, ?_⟩
  · rw [parse, pieces_eq, nested]
    rfl
  · rw [children_eq]
    exact contentOf?_nodesAt 0 forest wellFormed.each stands

/-- A paragraph with a text, a line break and a comment. -/
theorem parse_printAll_paragraph : ∃ forest : List Item,
    Item.printAll forest = "<p a=\"b\">x<br><!--c--></p>".toList ∧ WellFormed forest ∧
      (parse (Item.printAll forest) []).diagnostics = [] ∧
      (parse (Item.printAll forest) []).template.root.children = Item.nodesAt 0 forest ∧
      Item.contentOf? (Item.printAll forest)
        (parse (Item.printAll forest) []).template.root.children = some ([], forest) := by
  have plain : Assignment.Plain ⟨['a'], ['b']⟩ :=
    ⟨by decide, List.all_eq_true.mp (by decide), by decide +kernel, by decide, by decide⟩
  have wellFormed : WellFormed [.element ['p'] [⟨['a'], ['b']⟩]
      [.text ['x'], .element "br".toList [] [], .comment ['c']]] := by
    refine ⟨.singleton _, List.forall_mem_singleton.mpr ?_⟩
    have line : Item.WellFormed (.element "br".toList [] []) :=
      .element rfl (List.all_eq_true.mp (by decide)) (by simp) (by simp) (by simp [Nestable]) .nil
        (by simp)
    refine .element rfl (List.all_eq_true.mp (by decide)) (List.forall_mem_singleton.mpr plain)
      (by decide) ?_ ?_ ?_
    · intro item member inner named closes
      simp only [List.mem_cons, List.not_mem_nil, or_false] at member
      rcases member with rfl | rfl | rfl
      · exact absurd named (by simp [Item.name?])
      · cases named
        exact absurd closes (by decide)
      · exact absurd named (by simp [Item.name?])
    · exact .cons_cons (by simp [Item.isText]) (.cons_cons (by simp [Item.isText]) (.singleton _))
    · intro item member
      simp only [List.mem_cons, List.not_mem_nil, or_false] at member
      rcases member with rfl | rfl | rfl
      · exact .text (by decide) (by decide) (by decide) (by decide)
      · exact line
      · exact .comment (by decide)
  exact ⟨_, by decide +kernel, wellFormed, parse_printAll wellFormed []⟩

end Markup

end ComponentExtraction
