import ComponentExtraction.Tree.Template

/-!
# Event handlers
-/

namespace ComponentExtraction

namespace Fragment

/-- The handler of an event, which a new component emits under a
name of its own: the name of what the handler calls first. -/
structure Handler where
  action : Occurrence
  call : Option Occurrence
  name : Option Text

namespace Handler

/-- The handler below an action. It is named after its first call; a handler
without a call has no name. -/
def build (action : Occurrence) : Handler :=
  let call := action.descendants.find? fun o => o.kind.isCall
  ⟨action, call, call.bind fun o => o.node.calleeName?⟩

end Handler

end Fragment

end ComponentExtraction
