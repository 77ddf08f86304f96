import ComponentExtraction.Text.Basic

/-!
# Settings of generated components
-/

namespace ComponentExtraction

namespace Component

/-- What a project can choose about the files of a new component. Every
choice has a default, which holds where the project says nothing. -/
structure Settings where
  selectorPrefix : Text := "app".toList
  indent : Text := "  ".toList
  templateFileSuffix : Text := ".component.html".toList
  classFileSuffix : Text := ".component.ts".toList
  unknownType : Text := "any".toList
deriving DecidableEq, Repr

namespace Settings

/-- The selector of a component with the given hyphenated name. -/
def selector (s : Settings) (kebab : Text) : Text :=
  if s.selectorPrefix.isEmpty then kebab else s.selectorPrefix ++ '-' :: kebab

def templateFileName (s : Settings) (kebab : Text) : Text :=
  kebab ++ s.templateFileSuffix

def classFileName (s : Settings) (kebab : Text) : Text :=
  kebab ++ s.classFileSuffix

end Settings

end Component

end ComponentExtraction
