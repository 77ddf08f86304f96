import Mathlib.Data.List.Chain
import Mathlib.Data.List.Forall2
import ComponentExtraction.Markup.Nesting
import ComponentExtraction.Proofs.Source.Diagnostic

/-!
# Outlines of nestings

Whether an end tag closes something depends on the names of the open elements only.
A piece acts on these names (`Move.apply`), so pieces can be compared by their moves.
More open elements never hurt: where all end tags close something, the same moves
close something too if other elements are open around or between the first ones
(`Nesting.run_of_sublist`).
-/

namespace ComponentExtraction

open Diagnostic

namespace Markup

/-- What a piece does to the open elements. Nothing else of a
piece matters to how elements are nested. -/
inductive Move where
  | stay
  | start (name : Text) (selfClosing : Bool)
  | stop (name : Text)

def Piece.move : Piece → Move
  | .text _ _ | .comment _ => .stay
  | .startTag _ name _ selfClosing => .start name selfClosing
  | .endTag _ name => .stop name

namespace Move

variable {α : Type}

def around (label : α → Text) (name : Text) : List α → List α
  | [] => []
  | first :: opened =>
    if isClosedBySibling name = true ∧ label first = name.lowercase then opened
    else first :: opened

/-- The open elements behind a piece, if an end tag closes one of them. Each is known
by a label that is its name in lower case. -/
def apply (label : α → Text) (fresh : Text → α) : Move → List α → List α
  | stay, opened => opened
  | start name selfClosing, opened =>
    if selfClosing || isVoid name then around label name opened
    else fresh name :: around label name opened
  | stop name, opened => (opened.dropWhile fun element => label element != name.lowercase).tail

def Fits (names : List Text) : Move → Prop
  | stay | start _ _ => True
  | stop name => name.lowercase ∈ names

def onNames (move : Move) (names : List Text) : List Text :=
  move.apply id Text.lowercase names

theorem map_apply (label : α → Text) (fresh : Text → α)
    (labelled : ∀ name, label (fresh name) = name.lowercase) (move : Move) (opened : List α) :
    (move.apply label fresh opened).map label = move.onNames (opened.map label) := by
  have around_eq (name : Text) :
      (around label name opened).map label = around id name (opened.map label) := by
    cases opened with
    | nil => rfl
    | cons first opened =>
      simp only [around, List.map_cons, id]
      split <;> rfl
  cases move with
  | stay => rfl
  | start name selfClosing =>
    simp only [onNames, apply]
    split
    · exact around_eq name
    · rw [List.map_cons, labelled, around_eq]
  | stop name =>
    simp only [onNames, apply]
    rw [List.map_tail, List.dropWhile_map]
    rfl

variable {names names' : List Text} {move : Move}

theorem around_sublist (h : names.Sublist names') (name : Text) :
    (around id name names).Sublist (around id name names') := by
  have le (opened : List Text) : (around id name opened).Sublist opened := by
    unfold around
    split
    · exact List.Sublist.refl _
    · split
      · exact List.sublist_cons_self _ _
      · exact List.Sublist.refl _
  cases h with
  | slnil => exact List.Sublist.refl _
  | @cons _ opened' first h =>
    -- The element that only one of them has may be the sibling.
    have tail_le : opened'.Sublist (around id name (first :: opened')) := by
      simp only [around]
      split
      · exact List.Sublist.refl _
      · exact List.sublist_cons_self first _
    exact ((le names).trans h).trans tail_le
  | cons_cons first h =>
    simp only [around]
    split
    · exact h
    · exact h.cons_cons first

theorem dropWhile_sublist {a : Text} (h : names.Sublist names') (member : a ∈ names) :
    (names.dropWhile (· != a)).tail.Sublist (names'.dropWhile (· != a)).tail := by
  induction h with
  | slnil => exact absurd member List.not_mem_nil
  | @cons opened opened' first h ih =>
    by_cases same : first = a
    · subst same
      simpa using (((List.tail_sublist _).trans (List.dropWhile_sublist _)).trans h)
    · simpa [same] using ih member
  | @cons_cons opened opened' first h ih =>
    by_cases same : first = a
    · simpa [same] using h
    · have member : a ∈ opened := by simpa [Ne.symm same] using member
      simpa [same] using ih member

/-- A piece that fits some open elements fits more of them, and leaves more. -/
theorem Fits.of_sublist (fits : move.Fits names) (h : names.Sublist names') :
    move.Fits names' ∧ (move.onNames names).Sublist (move.onNames names') := by
  cases move with
  | stay => exact ⟨trivial, h⟩
  | start name selfClosing =>
    refine ⟨trivial, ?_⟩
    simp only [onNames, apply]
    split
    · exact around_sublist h name
    · exact (around_sublist h name).cons_cons _
  | stop name => exact ⟨h.subset fits, dropWhile_sublist h fits⟩

/-- No element that is closed by a sibling is open right inside one of its name. -/
def NoTwins (names : List Text) : Prop :=
  names.IsChain fun inner outer => inner = outer →
    ∀ element ∈ elementsClosedBySibling, element.toList ≠ inner

theorem NoTwins.around (h : NoTwins names) (name : Text) : NoTwins (around id name names) := by
  unfold Move.around
  split
  · exact h
  · split
    · exact h.tail
    · exact h

theorem NoTwins.head?_around (h : NoTwins names) {name : Text}
    (closes : isClosedBySibling name = true) :
    ∀ first ∈ (Move.around id name names).head?, first ≠ name.lowercase := by
  obtain ⟨element, listed, same⟩ := List.any_eq_true.mp closes
  have same : element.toList = name.lowercase := of_decide_eq_true same
  cases names with
  | nil => simp [Move.around]
  | cons inner names =>
    simp only [Move.around, id, closes, true_and]
    split
    · next inner_eq =>
      rintro outer member rfl
      refine (List.isChain_cons.mp h).1 _ member inner_eq element listed ?_
      rw [same, inner_eq]
    · next other =>
      rintro first member rfl
      exact other (Option.some.inj member)

theorem NoTwins.onNames (h : NoTwins names) (move : Move) : NoTwins (move.onNames names) := by
  cases move with
  | stay => exact h
  | start name selfClosing =>
    simp only [Move.onNames, apply]
    split
    · exact h.around name
    · refine List.isChain_cons.mpr ⟨?_, h.around name⟩
      rintro outer member rfl element listed same
      have closes : isClosedBySibling name = true :=
        List.any_eq_true.mpr ⟨element, listed, decide_eq_true same⟩
      exact h.head?_around closes _ member rfl
  | stop name => exact (h.suffix (List.dropWhile_suffix _)).tail

end Move

/-- Two pieces do the same to the open elements, and no error was met in the second
one. -/
def Alike (entry entry' : Piece × List Diagnostic) : Prop :=
  entry'.1.move = entry.1.move ∧ Harmless entry'.2

namespace Nesting

variable {n n' : Nesting}

/-- The open elements, innermost first, by their names in lower case and where they
start. -/
def outline (n : Nesting) : List (Text × Nat) :=
  n.stack.map fun element => (element.name.lowercase, element.start)

def names (n : Nesting) : List Text :=
  n.outline.map Prod.fst

@[simp] theorem outline_add (node : Node) (n : Nesting) : (n.add node).outline = n.outline := by
  obtain ⟨outside, stack⟩ := n
  cases stack <;> rfl

@[simp] theorem outline_push (element : OpenElement) (n : Nesting) :
    (n.push element).outline = (element.name.lowercase, element.start) :: n.outline := rfl

@[simp] theorem outline_close (stop : Nat) (n : Nesting) :
    (n.close stop).outline = n.outline.tail := by
  obtain ⟨outside, stack⟩ := n
  cases stack with
  | nil => rfl
  | cons element stack => exact outline_add _ _

@[simp] theorem outline_closeMany (stop count : Nat) (n : Nesting) :
    (n.closeMany stop count).outline = n.outline.drop count := by
  induction count generalizing n with
  | zero => rfl
  | succ count ih => rw [closeMany, ih, outline_close, List.drop_tail]

theorem outline_startTag (span : Span) (name : Text) (attributes : List Node) (selfClosing : Bool)
    (n : Nesting) : (n.startTag span name attributes selfClosing).outline =
      (Move.start name selfClosing).apply Prod.fst (fun name => (name.lowercase, span.start))
        n.outline := by
  have around_eq : (if isClosedBySibling name && n.isInnermost name then n.close span.start
      else n).outline = Move.around Prod.fst name n.outline := by
    obtain ⟨outside, stack⟩ := n
    cases stack with
    | nil => simp [isInnermost, outline, Move.around]
    | cons element stack =>
      simp only [isInnermost, Text.sameIgnoringCase, Bool.and_eq_true, decide_eq_true_eq]
      split
      · next sibling => 
        rw [outline_close]
        simp only [outline, List.map_cons, List.tail_cons, Move.around, if_pos sibling]
      · next apart =>
        simp only [outline, List.map_cons, Move.around, if_neg apart]
  unfold startTag
  simp only [Move.apply]
  split
  · rw [outline_add, around_eq]
  · rw [outline_push, around_eq]

theorem depthOf?_eq (name : Text) (n : Nesting) :
    n.depthOf? name = n.outline.findIdx? fun element => element.1 == name.lowercase := by
  simp only [depthOf?, outline, List.findIdx?_map, Text.sameIgnoringCase]
  refine congrArg (List.findIdx? · n.stack) (funext fun element => ?_)
  rw [Function.comp_apply, beq_eq_decide]

theorem outline_endTag {span : Span} {name : Text} (opened : name.lowercase ∈ n.names) :
    (n.endTag span name).1.outline =
      (Move.stop name).apply Prod.fst (fun name => (name.lowercase, span.start)) n.outline ∧
      (n.endTag span name).2 = [] := by
  obtain ⟨element, member, label_eq⟩ := List.mem_map.mp opened
  have index_lt : n.outline.findIdx (fun element => element.1 == name.lowercase) <
      n.outline.length := List.findIdx_lt_length_of_exists ⟨element, member, by simp [label_eq]⟩
  have depth_eq : n.depthOf? name =
      some (n.outline.findIdx fun element => element.1 == name.lowercase) := by
    rw [depthOf?_eq, List.findIdx?_eq_some_iff_findIdx_eq]
    exact ⟨index_lt, rfl⟩
  unfold endTag
  rw [depth_eq]
  refine ⟨?_, rfl⟩
  simp only [outline_close, outline_closeMany, Move.apply, List.dropWhile_eq_drop_findIdx_not]
  simp only [bne, Bool.not_not]

theorem outline_step {piece : Piece} (fits : piece.move.Fits n.names) :
    (n.step piece).1.outline = piece.move.apply Prod.fst
      (fun name => (name.lowercase, piece.span.start)) n.outline ∧ (n.step piece).2 = [] := by
  cases piece with
  | text span interpolations => exact ⟨outline_add _ n, rfl⟩
  | comment span => exact ⟨outline_add _ n, rfl⟩
  | startTag span name attributes selfClosing =>
    exact ⟨outline_startTag span name attributes selfClosing n, rfl⟩
  | endTag span name => exact outline_endTag fits

theorem names_step {piece : Piece} (fits : piece.move.Fits n.names) :
    (n.step piece).1.names = piece.move.onNames n.names := by
  rw [names, (outline_step fits).1, Move.map_apply Prod.fst _ fun _ => rfl]
  rfl

theorem fits_of_step {piece : Piece} (clean : (n.step piece).2 = []) :
    piece.move.Fits n.names := by
  cases piece with
  | text span interpolations => trivial
  | comment span => trivial
  | startTag span name attributes selfClosing => trivial
  | endTag span name =>
    have opened : (n.depthOf? name).isSome = true := by
      simp only [step, endTag] at clean
      split at clean
      · next depth_eq => rw [depth_eq, Option.isSome_some]
      · exact absurd clean (by simp)
    rw [depthOf?_eq, List.findIdx?_isSome, List.any_eq_true] at opened
    obtain ⟨element, member, label_eq⟩ := opened
    exact List.mem_map.mpr ⟨element, member, by simpa using label_eq⟩

variable {found found' : List (Piece × List Diagnostic)}

theorem of_run_cons {piece : Piece} {diagnostics : List Diagnostic}
    (clean : (n.run ((piece, diagnostics) :: found)).2 = []) :
    diagnostics = [] ∧ (n.step piece).2 = [] ∧ ((n.step piece).1.run found).2 = [] := by
  simpa [run, and_assoc] using clean

theorem run_append (n : Nesting) (found more : List (Piece × List Diagnostic)) :
    n.run (found ++ more) = (((n.run found).1.run more).1,
      (n.run found).2 ++ ((n.run found).1.run more).2) := by
  induction found generalizing n with
  | nil => rfl
  | cons entry found ih =>
    rw [List.cons_append, run, run, ih]
    simp only [List.append_assoc]

/-- Where nothing is noticed, nothing was noticed in any piece. -/
theorem clean_of_run (clean : (n.run found).2 = []) : ∀ entry ∈ found, entry.2 = [] := by
  induction found generalizing n with
  | nil => simp
  | cons entry found ih =>
    obtain ⟨piece, diagnostics⟩ := entry
    obtain ⟨here, -, later⟩ := of_run_cons clean
    exact List.forall_mem_cons.mpr ⟨here, ih later⟩

/-- A piece does no harm where more elements are open than it needs. -/
theorem step_of_sublist {entry entry' : Piece × List Diagnostic} {names : List Text}
    (same : Alike entry entry') (fits : entry.1.move.Fits names) (sublist : names.Sublist n.names) :
    (n.step entry'.1).2 = [] ∧
      (entry.1.move.onNames names).Sublist (n.step entry'.1).1.names := by
  obtain ⟨fits', sublist'⟩ := fits.of_sublist sublist
  rw [← same.1] at fits'
  refine ⟨(outline_step fits').2, ?_⟩
  rw [names_step fits', same.1]
  exact sublist'

theorem run_of_sublist (alike : List.Forall₂ Alike found found') (clean : (n.run found).2 = [])
    (sublist : n.names.Sublist n'.names) :
    Harmless (n'.run found').2 ∧ (n.run found).1.names.Sublist (n'.run found').1.names := by
  induction alike generalizing n n' with
  | nil => exact ⟨harmless_nil, sublist⟩
  | @cons entry entry' found found' same _ ih =>
    obtain ⟨piece, diagnostics⟩ := entry
    obtain ⟨-, stepped, later⟩ := of_run_cons clean
    have fits := fits_of_step stepped
    obtain ⟨stepped', sublist'⟩ := step_of_sublist same fits sublist
    rw [← names_step fits] at sublist'
    obtain ⟨harmless', sublist''⟩ := ih later sublist'
    refine ⟨?_, sublist''⟩
    rw [run, stepped']
    exact harmless_append.mpr ⟨harmless_append.mpr ⟨same.2, harmless_nil⟩, harmless'⟩

/-- While pieces are nested, no element that is closed by a sibling is open right inside
one of its name. -/
theorem noTwins_run (noTwins : Move.NoTwins n.names) (clean : (n.run found).2 = []) :
    Move.NoTwins (n.run found).1.names := by
  induction found generalizing n with
  | nil => exact noTwins
  | cons entry found ih =>
    obtain ⟨piece, diagnostics⟩ := entry
    obtain ⟨-, stepped, later⟩ := of_run_cons clean
    refine ih ?_ later
    rw [names_step (fits_of_step stepped)]
    exact noTwins.onNames piece.move

end Nesting

end Markup

end ComponentExtraction
