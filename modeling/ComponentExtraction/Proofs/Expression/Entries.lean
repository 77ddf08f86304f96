import ComponentExtraction.Expression.Directive
import ComponentExtraction.Proofs.Expression.Placement

/-!
# Values of structural directives lie in their source

The entries of a directive's value stand one after the other, each around the
tokens and the expression that were read for it.
-/

namespace ComponentExtraction

namespace Expression

open Node
open Parsing (Ensures)

namespace Directive

variable {source text : Text} {cx : Context} {tokens front rest : List Token} {token first : Token}

theorem placed_leaves (laid : Laid source cx (first :: front ++ rest)) :
    Placed source 3 first.span.start ((first :: front).map Token.leaf) (cx.offset rest) := by
  induction front generalizing first with
  | nil => exact laid.leaf
  | cons next front ih => exact laid.leaf.cons (ih laid.tail)

theorem placed_entry {kind : Kind} {nodes : List Node} {a b : Nat} (inner : kind.layer = 2)
    (children : Placed source 3 a nodes b) (start : source.Boundary a)
    (leads : ∀ first second rest, nodes = first :: second :: rest → first.Solid) :
    Placed source 2 a [Node.enclosing kind a nodes] b := by
  have enclosed : Placed source kind.layer a [Node.enclosing kind a nodes] b :=
    children.enclosing start (.inr (by omega)) leads
  rwa [inner] at enclosed

theorem solid_of_leaf {nodes : List Node} (laid : Laid source cx (token :: rest)) :
    ∀ first second more, token.leaf :: nodes = first :: second :: more → first.Solid := by
  intro first second more same
  cases same
  exact laid.head_solid.1

theorem placed_variableNode (name : Text) (front : List Token)
    (laid : Laid source cx (first :: front ++ rest)) :
    Placed source 2 first.span.start [variableNode name (first :: front)] (cx.offset rest) :=
  placed_entry rfl (placed_leaves laid) (laid.boundaries first List.mem_cons_self).1
    (solid_of_leaf laid)

theorem ensures_variableEntry {keyword : Token} (laid : Laid source cx (keyword :: tokens)) :
    (variableEntry cx keyword tokens).Ensures source cx
      (Placed source 2 keyword.span.start) := by
  have ahead : Placed source 2 keyword.span.start [] (cx.offset tokens) :=
    .nil (Nat.le_trans (Nat.le_of_lt laid.head_solid.1) laid.stop_le_offset)
  cases tokens with
  | nil => exact .reporting (.done ahead) (laid.tail.boundary_problemAt _)
  | cons token rest =>
    rw [variableEntry]
    split
    · exact .reporting (.done ahead) (laid.tail.boundary_problemAt _)
    · next name _ =>
      refine .after ?_
      cases rest with
      | nil => exact .done (placed_variableNode name [token] laid)
      | cons equals rest =>
        dsimp only
        split
        · refine .after ?_
          have unset := placed_variableNode name [token, equals] laid
          cases rest with
          | nil => exact .reporting (.done unset) (laid.tail.tail.tail.boundary_problemAt _)
          | cons value rest =>
            dsimp only
            split
            · exact .after (.done (placed_variableNode name [token, equals, value] laid))
            · exact .reporting (.done unset) (laid.tail.tail.tail.boundary_problemAt _)
        · exact .done (placed_variableNode name [token] laid)

theorem ensures_aliasName (front : List Token) (laid : Laid source cx (first :: front ++ tokens)) :
    (aliasName cx (first :: front) tokens).Ensures source cx
      (Placed source 2 first.span.start) := by
  have ahead : Placed source 2 first.span.start [] (cx.offset tokens) :=
    .nil (placed_leaves laid).fits.le
  have laid' : Laid source cx tokens := laid.suffix (List.suffix_append _ _)
  cases tokens with
  | nil => exact .reporting (.done ahead) (laid'.boundary_problemAt _)
  | cons token rest =>
    rw [aliasName]
    split
    · next name _ =>
      refine .after (.done ?_)
      rw [List.append_cons] at laid
      exact placed_variableNode name (front ++ [token]) laid
    · exact .reporting (.done ahead) (laid'.boundary_problemAt _)

theorem ensures_optionalAlias (laid : Laid source cx tokens) :
    (optionalAlias cx tokens).Ensures source cx (Placed source 2 (cx.offset tokens)) := by
  cases tokens with
  | nil => exact .done (.nil (Nat.le_refl _))
  | cons token rest =>
    rw [optionalAlias]
    split
    · exact .after (ensures_aliasName [] laid)
    · exact .done (.nil (Nat.le_refl _))

theorem ensures_ownExpression (directive : Text) (laid : Laid source cx tokens) :
    (ownExpression cx directive tokens).Ensures source cx
      (Placed source 2 (cx.offset tokens)) := by
  refine (ensures_pipe cx tokens laid).andThen fun value rest h operand => ?_
  refine (ensures_optionalAlias (laid.suffix h)).map ?_
  intro names stop names_placed
  have own : Placed source 2 (cx.offset tokens)
      [Node.enclosing (.templateBinding directive) (cx.offset tokens) [value]] (cx.offset rest) :=
    placed_entry rfl operand.placed laid.boundary_offset (by simp)
  exact own.cons names_placed

theorem ensures_optionalColon (laid : Laid source cx tokens) :
    (optionalColon tokens).Ensures source cx (Placed source 3 (cx.offset tokens)) := by
  cases tokens with
  | nil => exact .done (.nil (Nat.le_refl _))
  | cons token rest =>
    rw [optionalColon]
    split
    · exact .after (.done laid.leaf)
    · exact .done (.nil (Nat.le_refl _))

theorem ensures_optionalValue (laid : Laid source cx tokens) :
    (optionalValue cx tokens).Ensures source cx (Placed source 3 (cx.offset tokens)) := by
  cases tokens with
  | nil => exact .done (.nil (Nat.le_refl _))
  | cons token rest =>
    rw [optionalValue]
    split
    · exact .done (.nil (Nat.le_refl _))
    · exact (ensures_pipe cx (token :: rest) laid).map fun value stop operand => operand.placed

theorem ensures_keyedExpression (directive key : Text) (laid : Laid source cx (token :: tokens)) :
    (keyedExpression cx directive key token tokens).Ensures source cx
      (Placed source 2 token.span.start) := by
  refine (ensures_optionalColon laid.tail).andThen fun colon rest h colon_placed => ?_
  refine (ensures_optionalValue (laid.tail.suffix h)).andThen fun value rest₁ h₁ value_placed => ?_
  refine (ensures_optionalAlias (laid.tail.suffix (h₁.trans h))).map ?_
  intro names stop names_placed
  have children := laid.leaf.cons (colon_placed.append value_placed)
  have keyed : Placed source 2 token.span.start
      [Node.enclosing (.templateBinding (directive ++ Text.capitalize key)) token.span.start
        (token.leaf :: colon ++ value)] (cx.offset rest₁) :=
    placed_entry rfl children laid.boundary_offset (solid_of_leaf laid)
  exact keyed.cons names_placed

theorem ensures_keyedEntry (directive key : Text) (laid : Laid source cx (token :: tokens)) :
    (keyedEntry cx directive key token tokens).Ensures source cx
      (Placed source 2 token.span.start) := by
  cases tokens with
  | nil => exact ensures_keyedExpression directive key laid
  | cons next rest =>
    rw [keyedEntry]
    split
    · exact .after (ensures_aliasName [next] laid)
    · exact ensures_keyedExpression directive key laid

theorem ensures_entry (directive : Text) (isFirst : Bool)
    (laid : Laid source cx (token :: tokens)) :
    (entry cx directive isFirst token tokens).Ensures source cx
      (Placed source 2 token.span.start) := by
  unfold entry
  split
  · exact .after (ensures_variableEntry laid)
  split
  · exact ensures_ownExpression directive laid
  split
  · exact .after (ensures_keyedEntry directive _ laid)
  · refine .reporting (.after (.done (.nil ?_))) (laid.boundary_problem _)
    exact Nat.le_trans (Nat.le_of_lt laid.head_solid.1) laid.stop_le_offset

theorem found_entries (directive : Text) (isFirst : Bool) (laid : Laid source cx tokens) :
    Found source 2 (cx.offset tokens) cx.stop (entries cx directive isFirst tokens) := by
  fun_induction entries cx directive isFirst tokens with
  | case1 => exact ⟨.nil (Nat.le_refl _), by simp⟩
  | case2 isFirst token rest _ more ih =>
    obtain ⟨placed, diagnostics⟩ := ih laid.tail
    exact ⟨(laid.leaf.mono_layer (Nat.le_succ 2)).cons placed, diagnostics⟩
  | case3 isFirst token rest _ first more ih₁ ih₂ =>
    obtain ⟨placed, noticed⟩ := ensures_entry directive isFirst laid
    -- Whether or not the entry has read something, the rest comes behind it.
    have later : Found source 2 (cx.offset first.rest) cx.stop more := by
      simp only [more]
      split
      · next shorter => exact ih₁ shorter (laid.suffix first.rest_suffix)
      · next longer =>
        obtain ⟨placed, diagnostics⟩ := ih₂ laid.tail
        have whole : first.rest = token :: rest :=
          first.rest_suffix.eq_of_length_le (by rw [List.length_cons]; omega)
        refine ⟨placed.mono_start ?_, diagnostics⟩
        rw [whole]
        exact Nat.le_trans (Nat.le_of_lt laid.head_solid.1) laid.stop_le_offset
    refine ⟨placed.append later.placed, ?_⟩
    intro d member
    rcases List.mem_append.mp member with member | member
    · exact noticed d member
    · exact later.diagnostics d member

/-- The entries of a directive stand in the directive's value. -/
theorem found_parse {offset : Nat} (directive : Text) (stands : text.StandsAt offset source) :
    Found source 2 offset (offset + text.byteLength) (parse directive offset text) := by
  obtain ⟨placed, diagnostics⟩ := found_entries directive true (laid_tokensAt .binding stands)
  exact ⟨placed.mono_start (offset_le_tokensAt .binding offset text), diagnostics⟩

end Directive

end Expression

end ComponentExtraction
