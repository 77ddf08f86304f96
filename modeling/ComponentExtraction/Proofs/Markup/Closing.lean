import ComponentExtraction.Proofs.Markup.Outline
import ComponentExtraction.Proofs.Markup.Shape
import ComponentExtraction.Proofs.Tree.Placement

/-!
# Where open elements are closed

An element that is closed becomes a complete node, and complete nodes are kept. So
what the markup of a finished nesting says about starts and stops tells where each
element that is open on the way is going to be closed (`Ends.of_finished`).

This is what makes it safe to leave out the pieces of a range in which all markup that
starts there stops there too. The elements they leave open are closed by the next piece,
where it starts, and that piece does the same to the elements around them
(`run_without`).
-/

namespace ComponentExtraction

open Diagnostic

namespace Markup

open Node

namespace Move

variable {α : Type}

/-- A piece opens at most one element and otherwise closes the innermost ones. -/
theorem apply_eq (label : α → Text) (fresh : Text → α) (move : Move) (opened : List α) :
    ∃ new rest, move.apply label fresh opened = new ++ rest ∧
      (∀ element ∈ new, ∃ name, element = fresh name) ∧ rest <:+ opened := by
  have around_suffix (name : Text) : around label name opened <:+ opened := by
    unfold around
    split
    · exact List.suffix_refl _
    · split
      · exact List.suffix_cons _ _
      · exact List.suffix_refl _
  cases move with
  | stay => exact ⟨[], opened, rfl, by simp, List.suffix_refl _⟩
  | start name selfClosing =>
    simp only [apply]
    split
    · exact ⟨[], _, rfl, by simp, around_suffix name⟩
    · exact ⟨[fresh name], _, rfl, List.forall_mem_singleton.mpr ⟨name, rfl⟩, around_suffix name⟩
  | stop name =>
    exact ⟨[], _, rfl, by simp, (List.tail_suffix _).trans (List.dropWhile_suffix _)⟩

theorem around_of_ne {name : Text} {names : List Text}
    (apart : ∀ first ∈ names.head?, first ≠ name.lowercase) : around id name names = names := by
  cases names with
  | nil => rfl
  | cons first names =>
    rw [around, if_neg]
    rintro ⟨-, same⟩
    exact apart first rfl same

end Move

namespace Nesting

variable {n : Nesting} {R : Nat → Nat → Prop} {stop : Nat}

def Ended (R : Nat → Nat → Prop) (node : Node) : Prop :=
  node.kind.isMarkup = true → R node.span.start node.span.stop

def Ends (R : Nat → Nat → Prop) (n : Nesting) : Prop :=
  n.All (fun _ => True) (Everywhere (Ended R))

namespace Ends

theorem of_add {node : Node} (h : (n.add node).Ends R) : Everywhere (Ended R) node ∧ n.Ends R := by
  obtain ⟨outside, stack⟩ := n
  cases stack with
  | nil =>
    obtain ⟨here, before⟩ := List.forall_mem_cons.mp h.outside
    exact ⟨here, before, h.stack⟩
  | cons element stack =>
    obtain ⟨⟨-, inside⟩, around⟩ := List.forall_mem_cons.mp h.stack
    obtain ⟨here, before⟩ := List.forall_mem_cons.mp inside
    exact ⟨here, h.outside, List.forall_mem_cons.mpr ⟨⟨trivial, before⟩, around⟩⟩

theorem of_close (h : (n.close stop).Ends R) :
    n.Ends R ∧ ∀ element ∈ n.outline.head?, R element.2 stop := by
  obtain ⟨outside, stack⟩ := n
  cases stack with
  | nil => exact ⟨h, by simp [outline]⟩
  | cons element stack =>
    obtain ⟨closed, around⟩ := of_add h
    refine ⟨⟨around.outside, List.forall_mem_cons.mpr ⟨⟨trivial, ?_⟩, around.stack⟩⟩, ?_⟩
    · intro child member
      exact closed.of_mem_children child (List.mem_reverse.mpr member)
    · intro first member
      cases member
      exact closed.here rfl

theorem of_closeMany {count : Nat} (h : (n.closeMany stop count).Ends R) :
    n.Ends R ∧ ∀ element ∈ n.outline.take count, R element.2 stop := by
  induction count generalizing n with
  | zero => exact ⟨h, by simp⟩
  | succ count ih =>
    obtain ⟨closed, later⟩ := ih h
    obtain ⟨before, first⟩ := closed.of_close
    refine ⟨before, ?_⟩
    rw [outline_close] at later
    cases outline_eq : n.outline with
    | nil => simp
    | cons element outline =>
      rw [outline_eq] at first later
      exact List.forall_mem_cons.mpr ⟨first element rfl, later⟩

theorem of_startTag {span : Span} {name : Text} {attributes : List Node} {selfClosing : Bool}
    (h : (n.startTag span name attributes selfClosing).Ends R) :
    n.Ends R ∧ ∀ element ∈ n.outline,
      element ∈ (n.startTag span name attributes selfClosing).outline ∨ R element.2 span.start := by
  have kept : ∀ m : Nesting, m.Ends R → (m = n ∨ m = n.close span.start) →
      n.Ends R ∧ ∀ element ∈ n.outline, element ∈ m.outline ∨ R element.2 span.start := by
    rintro m ends (rfl | rfl)
    · exact ⟨ends, fun element member => .inl member⟩
    · obtain ⟨before, first⟩ := ends.of_close
      refine ⟨before, fun element member => ?_⟩
      rw [outline_close]
      cases outline_eq : n.outline with
      | nil => exact absurd (outline_eq ▸ member) List.not_mem_nil
      | cons other outline =>
        rw [outline_eq] at member first
        rcases List.mem_cons.mp member with rfl | later
        · exact .inr (first element rfl)
        · exact .inl later
  unfold startTag at h ⊢
  dsimp only at h ⊢
  generalize around_eq : (if isClosedBySibling name && n.isInnermost name then n.close span.start
    else n) = m at h ⊢
  have around : m = n ∨ m = n.close span.start := by
    rw [← around_eq]
    split
    · exact .inr rfl
    · exact .inl rfl
  split at h
  · next closed =>
    rw [if_pos closed, outline_add]
    exact kept m h.of_add.2 around
  · next opened =>
    rw [if_neg opened, outline_push]
    obtain ⟨-, later⟩ := List.forall_mem_cons.mp h.stack
    obtain ⟨before, left⟩ := kept m ⟨h.outside, later⟩ around
    refine ⟨before, fun element member => ?_⟩
    exact (left element member).imp_left (List.mem_cons_of_mem _)

/-- An end tag closes the innermost element of its name where it stops, and what is
open inside where it starts. -/
theorem of_endTag {span : Span} {name : Text} (opened : name.lowercase ∈ n.names)
    (h : (n.endTag span name).1.Ends R) :
    n.Ends R ∧ ∃ inner target outer, n.outline = inner ++ target :: outer ∧
      (n.endTag span name).1.outline = outer ∧ target.1 = name.lowercase ∧
      R target.2 span.stop ∧ ∀ element ∈ inner, element.1 ≠ name.lowercase ∧ R element.2 span.start := by
  obtain ⟨sought, member, label_eq⟩ := List.mem_map.mp opened
  obtain ⟨depth, depth_eq⟩ : ∃ depth, n.depthOf? name = some depth := by
    rw [depthOf?_eq]
    refine Option.isSome_iff_exists.mp ?_
    rw [List.findIdx?_isSome, List.any_eq_true]
    exact ⟨sought, member, by rw [label_eq, beq_self_eq_true]⟩
  have closed_eq : n.endTag span name = ((n.closeMany span.start depth).close span.stop, []) := by
    rw [endTag, depth_eq]
  rw [closed_eq] at h ⊢
  rw [depthOf?_eq, List.findIdx?_eq_some_iff_getElem] at depth_eq
  obtain ⟨depth_lt, found, first⟩ := depth_eq
  obtain ⟨many, last⟩ := of_close h
  obtain ⟨before, inner_closed⟩ := many.of_closeMany
  have split : n.outline.drop depth = n.outline[depth] :: n.outline.drop (depth + 1) :=
    List.drop_eq_getElem_cons depth_lt
  refine ⟨before, n.outline.take depth, n.outline[depth], n.outline.drop (depth + 1), ?_, ?_,
    beq_iff_eq.mp found, ?_, ?_⟩
  · rw [← split, List.take_append_drop]
  · rw [outline_close, outline_closeMany, List.tail_drop]
  · rw [outline_closeMany, split] at last
    exact last _ rfl
  · intro element inside
    refine ⟨?_, inner_closed element inside⟩
    obtain ⟨i, i_lt, rfl⟩ := List.mem_take_iff_getElem.mp inside
    have other := first i (by omega)
    simpa using other

/-- A step closes elements where its piece starts or stops. -/
theorem of_step {piece : Piece} (h : (n.step piece).1.Ends R) :
    n.Ends R ∧ ∀ element ∈ n.outline, element ∈ (n.step piece).1.outline ∨
      R element.2 piece.span.start ∨ R element.2 piece.span.stop := by
  cases piece with
  | text span interpolations =>
    refine ⟨h.of_add.2, fun element member => .inl ?_⟩
    rwa [step, outline_add]
  | comment span =>
    refine ⟨h.of_add.2, fun element member => .inl ?_⟩
    rwa [step, outline_add]
  | startTag span name attributes selfClosing =>
    obtain ⟨before, left⟩ := of_startTag h
    exact ⟨before, fun element member => (left element member).imp_right .inl⟩
  | endTag span name =>
    by_cases opened : name.lowercase ∈ n.names
    · obtain ⟨before, inner, target, outer, outline_eq, outline_eq', -, closed, inner_closed⟩ :=
        of_endTag opened h
      refine ⟨before, fun element member => ?_⟩
      rw [step, outline_eq']
      rw [outline_eq] at member
      rcases List.mem_append.mp member with inside | member
      · exact .inr (.inl (inner_closed element inside).2)
      rcases List.mem_cons.mp member with rfl | outside
      · exact .inr (.inr closed)
      · exact .inl outside
    · have unfit : ¬(n.step (.endTag span name)).2 = [] := fun clean => opened (fits_of_step clean)
      have same : (n.endTag span name).1 = n := by
        rw [step] at unfit
        unfold endTag at unfit ⊢
        split at unfit
        · exact absurd rfl unfit
        · rfl
      rw [step, same] at h ⊢
      exact ⟨h, fun element member => .inl member⟩

/-- Whatever is open is closed where a later piece starts or stops, or in the end. -/
theorem of_finished {found : List (Piece × List Diagnostic)}
    (h : let last := (n.run found).1; (last.closeMany stop last.stack.length).Ends R) :
    n.Ends R ∧ ∀ element ∈ n.outline, R element.2 stop ∨
      ∃ entry ∈ found, R element.2 entry.1.span.start ∨ R element.2 entry.1.span.stop := by
  induction found generalizing n with
  | nil =>
    have h : (n.closeMany stop n.stack.length).Ends R := h
    obtain ⟨before, closed⟩ := h.of_closeMany
    refine ⟨before, fun element member => .inl (closed element ?_)⟩
    have length_eq : n.outline.length = n.stack.length := List.length_map _
    rw [← length_eq, List.take_length]
    exact member
  | cons entry found ih =>
    obtain ⟨piece, diagnostics⟩ := entry
    obtain ⟨ends, later⟩ := ih h
    obtain ⟨before, left⟩ := ends.of_step
    refine ⟨before, fun element member => ?_⟩
    rcases left element member with kept | closed
    · refine (later element kept).imp_right ?_
      rintro ⟨entry, listed, closed⟩
      exact ⟨entry, List.mem_cons_of_mem _ listed, closed⟩
    · exact .inr ⟨_, List.mem_cons_self, closed⟩

end Ends

variable {found : List (Piece × List Diagnostic)} {first last : Nat}

def Within (first last : Nat) (opened : List (Text × Nat)) : Prop :=
  ∀ element ∈ opened, first ≤ element.2 ∧ element.2 < last

/-- What is open behind the pieces of a range started in it or was open in front of it. -/
theorem outline_run (clean : (n.run found).2 = [])
    (range : ∀ entry ∈ found, first ≤ entry.1.span.start ∧ entry.1.span.start < last) :
    ∃ inner outer, (n.run found).1.outline = inner ++ outer ∧ Within first last inner ∧
      outer <:+ n.outline := by
  induction found generalizing n with
  | nil => exact ⟨[], n.outline, rfl, by simp [Within], List.suffix_refl _⟩
  | cons entry found ih =>
    obtain ⟨piece, diagnostics⟩ := entry
    obtain ⟨-, stepped, later⟩ := of_run_cons clean
    obtain ⟨here, behind⟩ := List.forall_mem_cons.mp range
    obtain ⟨inner, outer, outline_eq, within, suffix⟩ := ih later behind
    rw [(outline_step (fits_of_step stepped)).1] at suffix
    obtain ⟨fresh, rest, apply_eq, fresh_eq, rest_suffix⟩ := Move.apply_eq Prod.fst
      (fun name => (name.lowercase, piece.span.start)) piece.move n.outline
    rw [apply_eq] at suffix
    rcases List.suffix_or_suffix_of_suffix suffix (List.suffix_append fresh rest) with
      shorter | ⟨kept, rfl⟩
    · exact ⟨inner, outer, outline_eq, within, shorter.trans rest_suffix⟩
    · refine ⟨inner ++ kept, rest, ?_, ?_, rest_suffix⟩
      · rw [List.append_assoc]
        exact outline_eq
      · refine List.forall_mem_append.mpr ⟨within, fun element member => ?_⟩
        obtain ⟨dropped, split⟩ := suffix
        rw [← List.append_assoc] at split
        have listed : element ∈ fresh :=
          List.append_cancel_right split ▸ List.mem_append_right dropped member
        obtain ⟨name, rfl⟩ := fresh_eq element listed
        exact here

def Enclosed (first last start stop : Nat) : Prop :=
  first ≤ start → start < last → stop ≤ last

/-- A piece does to the open elements what it would do if only some of them were open. -/
def ActsOn (n : Nesting) (piece : Piece) (outer : List (Text × Nat)) : Prop :=
  piece.move.Fits (outer.map Prod.fst) ∧
    (n.step piece).1.names = piece.move.onNames (outer.map Prod.fst)

section

variable {piece : Piece} {element : Text × Nat} {inner outer : List (Text × Nat)} {name : Text}

/-- A start tag behind which nothing of a range is open closes one element of the range,
and there was no other one. -/
theorem actsOn_startTag {selfClosing : Bool} (move_eq : piece.move = .start name selfClosing)
    (noTwins : Move.NoTwins n.names) (outline_eq : n.outline = element :: inner ++ outer)
    (within : Within first last (element :: inner)) (fits : piece.move.Fits n.names)
    (gone : ∀ other ∈ (n.step piece).1.outline, ¬(first ≤ other.2 ∧ other.2 < last)) :
    n.ActsOn piece outer := by
  have kept : ∀ other ∈ Move.around Prod.fst name n.outline,
      other ∈ (n.step piece).1.outline := by
    intro other member
    rw [(outline_step fits).1, move_eq, Move.apply]
    split
    · exact member
    · exact List.mem_cons_of_mem _ member
  have closes : isClosedBySibling name = true ∧ element.1 = name.lowercase := by
    by_contra other
    refine gone element (kept element ?_) (within element List.mem_cons_self)
    rw [outline_eq, List.cons_append, Move.around, if_neg other]
    exact List.mem_cons_self
  have single : inner = [] := by
    refine List.eq_nil_iff_forall_not_mem.mpr fun other member => ?_
    refine gone other (kept other ?_) (within other (List.mem_cons_of_mem _ member))
    rw [outline_eq, List.cons_append, Move.around, if_pos closes]
    exact List.mem_append_left outer member
  have names_eq : n.names = element.1 :: outer.map Prod.fst := by
    rw [names, outline_eq, single, List.singleton_append, List.map_cons]
  have around_eq : Move.around id name n.names = outer.map Prod.fst := by
    rw [names_eq]
    exact if_pos closes
  have apart := noTwins.head?_around closes.1
  rw [around_eq] at apart
  constructor
  · rw [move_eq]
    trivial
  · rw [names_step fits, move_eq, Move.onNames, Move.onNames, Move.apply, Move.apply, around_eq,
      Move.around_of_ne apart]

/-- What an end tag closes that stops behind a range is around what the range left open. -/
theorem actsOn_endTag {span : Span} (opened : name.lowercase ∈ n.names)
    (outline_eq : n.outline = inner ++ outer) (within : Within first last inner)
    (ends : (n.endTag span name).1.Ends (Enclosed first last)) (behind : last < span.stop) :
    n.ActsOn (.endTag span name) outer := by
  obtain ⟨-, before, target, after, split, outline_eq', target_eq, closed, between⟩ :=
    Ends.of_endTag opened ends
  have outside : target ∉ inner := fun member =>
    absurd (closed (within target member).1 (within target member).2) (by omega)
  obtain ⟨left, outer_eq, inside⟩ : ∃ left, outer = left ++ target :: after ∧ left ⊆ before := by
    rw [outline_eq] at split
    rcases List.append_eq_append_iff.mp split with ⟨left, rfl, rfl⟩ | ⟨left, inner_eq, outer_eq⟩
    · exact ⟨left, rfl, List.subset_append_right _ _⟩
    · cases left with
      | nil => exact ⟨[], outer_eq.symm, List.nil_subset _⟩
      | cons first left =>
        cases outer_eq
        refine absurd ?_ outside
        rw [inner_eq]
        exact List.mem_append_right before List.mem_cons_self
  have label_eq : outer.map Prod.fst =
      left.map Prod.fst ++ name.lowercase :: after.map Prod.fst := by
    rw [outer_eq, List.map_append, List.map_cons, target_eq]
  have others : ∀ label ∈ left.map Prod.fst, (label != name.lowercase) = true := by
    refine List.forall_mem_map.mpr fun other member => ?_
    exact bne_iff_ne.mpr (between other (inside member)).1
  constructor
  · show name.lowercase ∈ outer.map Prod.fst
    rw [label_eq]
    exact List.mem_append_right _ List.mem_cons_self
  · show ((n.endTag span name).1.outline).map Prod.fst =
      ((outer.map Prod.fst).dropWhile (· != name.lowercase)).tail
    rw [outline_eq', label_eq, List.dropWhile_append_of_pos others]
    simp

/-- Elements of a range that are not open behind the next piece were closed where it
starts. The piece acts on the elements around them. -/
theorem actsOn_outer (noTwins : Move.NoTwins n.names) (outline_eq : n.outline = inner ++ outer)
    (within : Within first last inner) (clean : (n.step piece).2 = [])
    (ends : (n.step piece).1.Ends (Enclosed first last)) (behind : last < piece.span.stop)
    (gone : ∀ other ∈ (n.step piece).1.outline, ¬(first ≤ other.2 ∧ other.2 < last)) :
    n.ActsOn piece outer := by
  have fits := fits_of_step clean
  cases inner with
  | nil =>
    have names_eq : n.names = outer.map Prod.fst := by rw [names, outline_eq, List.nil_append]
    rw [ActsOn, ← names_eq]
    exact ⟨fits, names_step fits⟩
  | cons element inner =>
    have stays : element ∉ (n.step piece).1.outline := fun member =>
      gone element member (within element List.mem_cons_self)
    cases piece with
    | text span interpolations =>
      rw [(outline_step fits).1, outline_eq] at stays
      exact absurd List.mem_cons_self stays
    | comment span =>
      rw [(outline_step fits).1, outline_eq] at stays
      exact absurd List.mem_cons_self stays
    | startTag span name attributes selfClosing =>
      exact actsOn_startTag rfl noTwins outline_eq within fits gone
    | endTag span name => exact actsOn_endTag fits outline_eq within ends behind

end

/-- Pieces in which what starts stops can be left out: nothing that comes behind them
is noticed because they are missing. -/
theorem run_without {found' : List (Piece × List Diagnostic)} {inner outer : List (Text × Nat)}
    (alike : List.Forall₂ Alike found found') (clean : (n.run found).2 = [])
    (noTwins : Move.NoTwins n.names) (outline_eq : n.outline = inner ++ outer)
    (within : Within first last inner)
    (ends : let end_ := (n.run found).1
      (end_.closeMany stop end_.stack.length).Ends (Enclosed first last))
    (behind : ∀ entry ∈ found, last < entry.1.span.stop ∧ entry.1.span.stop ≤ stop)
    (later : ∀ entry ∈ found.tail, last < entry.1.span.start) {n' : Nesting}
    (sublist : (outer.map Prod.fst).Sublist n'.names) : Harmless (n'.run found').2 := by
  cases alike with
  | nil => exact harmless_nil
  | @cons entry entry' found found' same alike =>
    obtain ⟨piece, diagnostics⟩ := entry
    obtain ⟨-, stepped, clean⟩ := of_run_cons clean
    obtain ⟨here, behind⟩ := List.forall_mem_cons.mp behind
    obtain ⟨ends, closed⟩ := Ends.of_finished (n := (n.step piece).1) ends
    have gone : ∀ element ∈ (n.step piece).1.outline, ¬(first ≤ element.2 ∧ element.2 < last) := by
      rintro element member ⟨start, stops⟩
      rcases closed element member with finished | ⟨entry, listed, starts | ended⟩
      · have := finished start stops
        omega
      · have := starts start stops
        have := later entry listed
        omega
      · have := ended start stops
        have := (behind entry listed).1
        omega
    obtain ⟨fits, names_eq⟩ := actsOn_outer noTwins outline_eq within stepped ends here.1 gone
    obtain ⟨stepped', sublist⟩ := step_of_sublist same fits sublist
    rw [← names_eq] at sublist
    have harmless := (run_of_sublist alike clean sublist).1
    rw [run, stepped']
    exact harmless_append.mpr ⟨harmless_append.mpr ⟨same.2, harmless_nil⟩, harmless⟩

end Nesting

end Markup

end ComponentExtraction
