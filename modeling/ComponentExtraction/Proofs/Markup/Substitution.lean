import ComponentExtraction.Proofs.Markup.Closing
import ComponentExtraction.Proofs.Markup.Cut
import ComponentExtraction.Proofs.Markup.Relocation
import ComponentExtraction.Proofs.Markup.Written

/-!
# An element in place of some markup

In a source in which nothing is noticed, an element is written in place of a range
that is cut out between two pieces. The pieces in front of the range and those behind
it are read as before. If the markup that starts in the range stops in it, the pieces
behind it still find open what they close, so no error comes up
(`harmless_parse_substituted`).
-/

namespace ComponentExtraction

open Diagnostic

theorem Cursor.Reaches.rest_eq {front back : Text} {c : Cursor}
    (reached : (Cursor.start (front ++ back)).Reaches c) (offset_eq : c.offset = front.byteLength) :
    c.rest = back := by
  obtain ⟨taken, source_eq, taken_eq⟩ := reached
  have length_eq : front.byteLength = taken.byteLength := by
    rw [← offset_eq, taken_eq]
    exact Nat.zero_add _
  exact (Text.append_inj_of_byteLength source_eq length_eq).2.symm

namespace Markup

open Node Nesting

variable {source url : Text} {c d : Cursor} {found : List (Piece × List Diagnostic)}

/-- Pieces stop behind the place where they are read from, and all but the first one
start behind it. -/
theorem Through.span_behind (through : Through c found d)
    (reached : (Cursor.start source).Reaches c) :
    (∀ entry ∈ found, c.offset < entry.1.span.stop ∧ entry.1.span.stop ≤ d.offset) ∧
      ∀ entry ∈ found.tail, c.offset < entry.1.span.start := by
  induction through with
  | refl => simp
  | @step c d e entry more reads through ih =>
    have forward := reads.advances.offset_lt
    have reached' := reached.trans reads.advances.1
    obtain ⟨stops, -⟩ := ih reached'
    refine ⟨List.forall_mem_cons.mpr ⟨?_, ?_⟩, ?_⟩
    · rw [reads.span_eq reached]
      exact ⟨forward, through.reaches.offset_le⟩
    · intro other member
      have := stops other member
      omega
    · intro other member
      have := through.span_mem reached' other member
      omega

theorem harmless_finish (n : Nesting) (stop : Nat) : Harmless (n.finish stop).2 := by
  refine List.forall_mem_map.mpr fun element _ => ?_
  simp [severity, Problem.severity]

/-- The pieces of a source in front of a range, inside it and behind it. -/
theorem exists_cut {first last : Nat} (ordered : first ≤ last) (front : Cut source first)
    (back : Cut source last) : ∃ before inside behind c d e,
      Through (Cursor.start source) before c ∧ Through c inside d ∧ Through d behind e ∧
      c.offset = first ∧ d.offset = last ∧ e.rest = [] ∧
      pieces source = before ++ (inside ++ behind) := by
  obtain ⟨before, c, through, rfl⟩ := front
  obtain ⟨_, d, through', rfl⟩ := back
  obtain ⟨inside, between⟩ := through.split through' ordered
  obtain ⟨e, all, done⟩ := exists_through (Cursor.start source)
  have finished : e.offset = source.byteLength := all.reaches.offset_eq_of_rest done
  have limit : d.offset ≤ e.offset := by
    rw [finished, ← through'.reaches.offset_add]
    exact Nat.le_add_right _ _
  obtain ⟨behind, rest⟩ := through'.split all limit
  have nothing : piecesFrom e = [] := by rw [piecesFrom, dif_pos done]
  refine ⟨before, inside, behind, c, d, e, through, between, rest, rfl, rfl, done, ?_⟩
  rw [pieces, through.piecesFrom_eq, between.piecesFrom_eq, rest.piecesFrom_eq, nothing,
    List.append_nil]

/-- The nesting of all pieces is finished with the nodes of the template. -/
theorem ends_of_parse {R : Nat → Nat → Prop}
    (tree : Everywhere (Ended R) (parse source url).template.root) :
    let all := (Nesting.empty.run (pieces source)).1
    (all.closeMany source.byteLength all.stack.length).Ends R := by
  intro all
  have none_open := length_stack_closeMany source.byteLength all.stack.length all
  rw [Nat.sub_self, List.length_eq_zero_iff] at none_open
  refine ⟨fun node member => ?_, by simp [none_open]⟩
  exact tree.of_mem_children node (List.mem_reverse.mpr member)

theorem stops_elementText {name : Text} (letter : startsTagName name = true)
    (attributes : List Assignment) (back : Text) : Stops (elementText name attributes ++ back) := by
  refine .inr ?_
  rw [elementText, List.append_assoc, List.append_assoc, List.append_assoc, List.cons_append,
    List.cons_append, List.append_assoc, opening?_startTag (startsTagName_append letter)]
  rfl

/-- The pieces of an element do no harm in place of pieces in which what starts stops. -/
theorem harmless_run_substituted {before inside behind before' behind' : List (Piece × List Diagnostic)}
    {first last stop : Nat} (nested : (Nesting.empty.run (before ++ (inside ++ behind))).2 = [])
    (finished : let all := (Nesting.empty.run (before ++ (inside ++ behind))).1
      (all.closeMany stop all.stack.length).Ends (Enclosed first last))
    (range : ∀ entry ∈ inside, first ≤ entry.1.span.start ∧ entry.1.span.start < last)
    (stops : ∀ entry ∈ behind, last < entry.1.span.stop ∧ entry.1.span.stop ≤ stop)
    (later : ∀ entry ∈ behind.tail, last < entry.1.span.start)
    (alike : List.Forall₂ Alike before before') (alike' : List.Forall₂ Alike behind behind')
    {name : Text} (hyphen : '-' ∈ name) (span span' : Span) (nodes : List Node)
    {noticed : List Diagnostic} (harmless : Harmless noticed) :
    let element : List (Piece × List Diagnostic) :=
      [(.startTag span name nodes false, noticed), (.endTag span' name, [])]
    Harmless (Nesting.empty.run (before' ++ (element ++ behind'))).2 := by
  intro element
  rw [run_append, run_append] at nested finished
  obtain ⟨clean, nested⟩ := List.append_eq_nil_iff.mp nested
  obtain ⟨clean_inside, clean_behind⟩ := List.append_eq_nil_iff.mp nested
  have noTwins : Move.NoTwins Nesting.empty.names := .nil
  obtain ⟨harmless_before, sublist⟩ := run_of_sublist alike clean (.refl Nesting.empty.names)
  obtain ⟨inner, outer, outline_eq, within, suffix⟩ := outline_run clean_inside range
  have kept : (outer.map Prod.fst).Sublist (Nesting.empty.run before').1.names :=
    (suffix.sublist.map Prod.fst).trans sublist
  rw [run_append, List.cons_append, List.singleton_append, run_element _ hyphen]
  refine harmless_append.mpr ⟨harmless_before, harmless_append.mpr ⟨harmless, ?_⟩⟩
  refine run_without alike' clean_behind (noTwins_run (noTwins_run noTwins clean) clean_inside)
    outline_eq within finished stops later ?_
  rw [Nesting.names, outline_add]
  exact kept

/-- Where nothing is noticed, markup that starts and stops within a range can be
replaced by an element without an error coming up. -/
theorem harmless_parse_substituted {front middle back name : Text} {attributes : List Assignment}
    (source_eq : source = front ++ middle ++ back) (clean : (parse source url).diagnostics = [])
    (front_cut : Cut source front.byteLength) (back_cut : Cut source (front ++ middle).byteLength)
    (enclosed : Everywhere (Ended (Enclosed front.byteLength (front ++ middle).byteLength))
      (parse source url).template.root)
    (letter : startsTagName name = true) (parts : ∀ c ∈ name, isNamePart c = true)
    (hyphen : '-' ∈ name) (readable : ∀ a ∈ attributes, a.Readable)
    (harmless : ∀ offset, Harmless ((Assignment.readAllAt offset attributes).flatMap Prod.snd))
    (url' : Text) :
    Harmless (parse (front ++ elementText name attributes ++ back) url').diagnostics := by
  have ordered : front.byteLength ≤ (front ++ middle).byteLength := by
    rw [Text.byteLength_append]
    exact Nat.le_add_right _ _
  obtain ⟨before, inside, behind, c, d, e, through, between, rest, c_eq, d_eq, done, pieces_eq⟩ :=
    exists_cut ordered front_cut back_cut
  have reached := through.reaches
  have reached' := (through.trans between).reaches
  have finished := (through.trans (between.trans rest)).reaches.offset_eq_of_rest done
  -- What is left to be read at the two ends of the range.
  have c_rest : c.rest = middle ++ back := by
    rw [source_eq, List.append_assoc] at reached
    exact reached.rest_eq c_eq
  have d_rest : d.rest = back := by
    rw [source_eq] at reached'
    exact reached'.rest_eq d_eq
  -- Nothing is noticed in any of the pieces, nor while they are nested.
  have nested : (Nesting.empty.run (before ++ (inside ++ behind))).2 = [] := by
    rw [← pieces_eq]
    exact (List.append_eq_nil_iff.mp clean).1
  have ends := ends_of_parse enclosed
  rw [pieces_eq] at ends
  obtain ⟨clean_before, clean⟩ := List.forall_mem_append.mp (clean_of_run nested)
  obtain ⟨-, clean_behind⟩ := List.forall_mem_append.mp clean
  -- The pieces on both sides of the element are read again.
  have stops := stops_elementText letter attributes back
  have split : (Cursor.start source).rest = front ++ c.rest := by
    rw [c_rest, ← List.append_assoc]
    exact source_eq
  have start_eq : (Cursor.start (front ++ elementText name attributes ++ back)).rest =
      front ++ (elementText name attributes ++ back) := List.append_assoc _ _ _
  obtain ⟨-, before', c', through', c'_rest, alike⟩ :=
    through.elsewhere clean_before split stops start_eq
  have element := through_element letter parts readable c'_rest
  have split' : d.rest = back ++ e.rest := by rw [d_rest, done, List.append_nil]
  have behind_eq : (⟨c'.offset + (elementText name attributes).byteLength, back⟩ : Cursor).rest =
      back ++ [] := (List.append_nil back).symm
  obtain ⟨-, behind', e', rest', e'_rest, alike'⟩ :=
    rest.elsewhere clean_behind split' (.inl rfl) behind_eq
  have nothing : piecesFrom e' = [] := by rw [piecesFrom, dif_pos e'_rest]
  have pieces_eq' := (through'.trans (element.trans rest')).piecesFrom_eq
  rw [nothing, List.append_nil] at pieces_eq'
  refine harmless_append.mpr ⟨?_, harmless_finish _ _⟩
  rw [pieces, pieces_eq']
  refine harmless_run_substituted nested ends ?_ ?_ ?_ alike alike' hyphen _ _ _ (harmless _)
  · rw [← c_eq, ← d_eq]
    exact between.span_mem through.reaches
  · rw [← d_eq, ← finished]
    exact (rest.span_behind (through.trans between).reaches).1
  · rw [← d_eq]
    exact (rest.span_behind (through.trans between).reaches).2

end Markup

end ComponentExtraction
