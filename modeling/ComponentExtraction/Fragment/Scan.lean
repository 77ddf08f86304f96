import ComponentExtraction.Fragment.Binding
import ComponentExtraction.Fragment.Handler

/-!
# What a fragment binds

The bindings and handlers below the roots of a fragment. In each root those of
attributes come first, then interpolations and the expressions of structural
directives.
-/

namespace ComponentExtraction

namespace Fragment

/-- The bindings and handlers of a fragment, each once. -/
structure Scan where
  bindings : List Binding
  handlers : List Handler

namespace Scan

def isEmpty (s : Scan) : Bool :=
  s.bindings.isEmpty && s.handlers.isEmpty

end Scan

def declaredName? (o : Occurrence) : Option Text :=
  match o.kind with
  | .localDeclaration name => some name
  | .templateVariable name => some name
  | _ => none

def declaredNames (roots : List Occurrence) : List Text :=
  Sequence.distinct
    (roots.flatMap fun root => (root :: root.descendants).filterMap declaredName?)

def scopeOf (roots : List Occurrence) (host : Symbols.Table) : Symbols.Scope :=
  ⟨declaredNames roots, host⟩

def attributeExpression? (kind : Kind) (o : Occurrence) : Option Occurrence :=
  o.children.find? fun child => child.kind == kind

def attributeBinding? (t : Template) (scope : Symbols.Scope) (o : Occurrence) : Option Binding :=
  match o.kind with
  | .bananaBox _ =>
    (attributeExpression? .binding o).map fun owner => Binding.build t scope owner (some o)
  | .propertyBinding _ =>
    (attributeExpression? .binding o).map fun owner => Binding.build t scope owner none
  | _ => none

def expressionBinding? (t : Template) (scope : Symbols.Scope) (o : Occurrence) : Option Binding :=
  match o.kind with
  | .interpolation => some (Binding.build t scope o none)
  | .templateBinding _ => some (Binding.build t scope o none)
  | _ => none

def handler? (o : Occurrence) : Option Handler :=
  match o.kind with
  | .event _ => (attributeExpression? .action o).map Handler.build
  | _ => none

def rootBindings (t : Template) (scope : Symbols.Scope) (root : Occurrence) : List Binding :=
  root.descendants.filterMap (attributeBinding? t scope) ++
    root.descendants.filterMap (expressionBinding? t scope)

/-- The bindings and handlers of a fragment. A node below several roots is
recorded for the first of them only. -/
def scan (t : Template) (roots : List Occurrence) (host : Symbols.Table) : Scan :=
  { bindings := Sequence.distinctBy (fun b => b.owner.address)
      (roots.flatMap (rootBindings t (scopeOf roots host)))
    handlers := Sequence.distinctBy (fun h => h.action.address)
      (roots.flatMap fun root => root.descendants.filterMap handler?) }

end Fragment

end ComponentExtraction
