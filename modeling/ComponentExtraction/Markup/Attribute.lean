import ComponentExtraction.Tree.Kind

/-!
# What the name of an attribute says

The brackets around an attribute's name, or a prefix that stands for them, say
what the attribute binds and how its value is read.
-/

namespace ComponentExtraction

namespace Markup

/-- How the value of an attribute is read. -/
inductive ValueForm where
  | binding
  | action
  | directive
  | interpolated
  | ignored
deriving DecidableEq, Repr

def between? (opening closing : String) (name : Text) : Option Text :=
  ((Text.stripStart? opening.toList name).bind (Text.stripEnd? closing.toList)).filter
    fun inner => !inner.isEmpty

def behind? (start : String) (name : Text) : Option Text :=
  Text.stripStart? start.toList name

def twoWayProperty? (name : Text) : Option Text :=
  (between? "[(" ")]" name).or (behind? "bindon-" name)

def boundProperty? (name : Text) : Option Text :=
  (between? "[" "]" name).or (behind? "bind-" name)

def handledEvent? (name : Text) : Option Text :=
  (between? "(" ")" name).or (behind? "on-" name)

def declaredName? (name : Text) : Option Text :=
  ((behind? "#" name).or (behind? "ref-" name)).or (behind? "let-" name)

/-- The kind of an attribute and the form of its value, by its name. -/
def classify (name : Text) : Kind × ValueForm :=
  match twoWayProperty? name with
  | some property => (.bananaBox property, .binding)
  | none =>
    match boundProperty? name with
    | some property => (.propertyBinding property, .binding)
    | none =>
      match handledEvent? name with
      | some event => (.event event, .action)
      | none =>
        match behind? "*" name with
        | some directive => (.templateBindings directive, .directive)
        | none =>
          match declaredName? name with
          | some declared => (.localDeclaration declared, .ignored)
          | none => (.plainAttribute name, .interpolated)

end Markup

end ComponentExtraction
