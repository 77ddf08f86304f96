import ComponentExtraction.Expression.Operator

/-!
# Kinds of nodes

Markup and expressions share one tree, so that one traversal meets an element,
its attributes and the expressions bound in them.
-/

namespace ComponentExtraction

/-- What a node of a template's tree stands for. -/
inductive Kind where
  | root
  | element (name : Text)
  | text
  | comment
  /-- A plain attribute, whose value may hold interpolations. -/
  | plainAttribute (name : Text)
  /-- An attribute whose value is an expression that the property follows. -/
  | propertyBinding (property : Text)
  | bananaBox (property : Text)
  | event (name : Text)
  | templateBindings (directive : Text)
  /-- An attribute that declares a name inside the template. -/
  | localDeclaration (name : Text)
  | interpolation
  | binding
  | action
  | templateBinding (key : Text)
  | templateVariable (name : Text)
  | reference (name : Text)
  | call
  | argumentList
  | indexed
  | pipe
  | pipeReference (name : Text)
  | pipeArguments
  | binary (operator : Expression.BinaryOperator)
  | prefixed (operator : Expression.PrefixOperator)
  | conditional
  | parenthesized
  | literal
  | arrayLiteral
  | objectLiteral
  | this
  | nonNull
  | chain
  /-- A leaf: an identifier, keyword, literal or punctuation. -/
  | token
deriving DecidableEq, Repr

namespace Kind

/-- Nodes that can be selected and moved as part of a fragment. -/
def isMarkup : Kind → Bool
  | element _ | text | comment => true
  | _ => false

def isReference : Kind → Bool
  | reference _ => true
  | _ => false

def isPipeReference : Kind → Bool
  | pipeReference _ => true
  | _ => false

def isCall : Kind → Bool
  | call => true
  | _ => false

def referenceName? : Kind → Option Text
  | reference name => some name
  | pipeReference name => some name
  | _ => none

def name : Kind → Text
  | root => "Root".toList
  | element _ => "Element".toList
  | text => "Text".toList
  | comment => "Comment".toList
  | plainAttribute _ => "Attribute".toList
  | propertyBinding _ => "PropertyBinding".toList
  | bananaBox _ => "BananaBox".toList
  | event _ => "Event".toList
  | templateBindings _ => "TemplateBindings".toList
  | localDeclaration _ => "LocalDeclaration".toList
  | interpolation => "Interpolation".toList
  | binding => "Binding".toList
  | action => "Action".toList
  | templateBinding _ => "TemplateBinding".toList
  | templateVariable _ => "TemplateVariable".toList
  | reference _ => "Reference".toList
  | call => "Call".toList
  | argumentList => "ArgumentList".toList
  | indexed => "Indexed".toList
  | pipe => "Pipe".toList
  | pipeReference _ => "PipeReference".toList
  | pipeArguments => "PipeArguments".toList
  | binary _ => "Binary".toList
  | prefixed _ => "Prefix".toList
  | conditional => "Conditional".toList
  | parenthesized => "Parenthesized".toList
  | literal => "Literal".toList
  | arrayLiteral => "ArrayLiteral".toList
  | objectLiteral => "ObjectLiteral".toList
  | this => "This".toList
  | nonNull => "NonNull".toList
  | chain => "Chain".toList
  | token => "Token".toList

def detail? : Kind → Option Text
  | element name => some name
  | plainAttribute name => some name
  | propertyBinding property => some property
  | bananaBox property => some property
  | event name => some name
  | templateBindings directive => some directive
  | localDeclaration name => some name
  | templateBinding key => some key
  | templateVariable name => some name
  | reference name => some name
  | pipeReference name => some name
  | binary operator => some operator.lexeme.text
  | prefixed operator => some operator.lexeme.text
  | _ => none

end Kind

end ComponentExtraction
