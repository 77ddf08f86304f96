import ComponentExtraction.Proofs.Text.Boundary
import ComponentExtraction.Source.Diagnostic

/-!
# Diagnostics can be reported

A diagnostic that starts at a character boundary has a line and a column, and
the source around it can be quoted: the ends of the quotation are moved to
boundaries, and these stay on their sides of the start.
-/

namespace ComponentExtraction

variable {source : Text} {start : Nat}

theorem Location.exists_ofOffset? (boundary : source.Boundary start) :
    ∃ location, ofOffset? source start = some location := by
  obtain ⟨before, before_eq⟩ := boundary.takeBytes?
  refine ⟨⟨start, (endOf before).1, (endOf before).2⟩, ?_⟩
  simp only [ofOffset?, Nat.min_eq_left boundary.le, before_eq, Option.map_some]

theorem exists_quoteSource? (boundary : source.Boundary start) (message : Text)
    (severity : Severity) (reach : Nat) :
    ∃ quoted, quoteSource? message severity start reach source = some quoted := by
  -- Both ends of the quotation are boundaries, and the start lies between them.
  have first_le : source.floorBoundary (start - reach) ≤ start :=
    Nat.le_trans (Text.floorBoundary_le source _) (Nat.sub_le start reach)
  have le_last : start ≤ source.floorBoundary (min (start + reach) source.byteLength) := by
    apply boundary.le_floorBoundary
    have := boundary.le
    omega
  obtain ⟨before, before_eq⟩ :=
    (Text.boundary_floorBoundary source (start - reach)).exists_slice? boundary first_le
  obtain ⟨after, after_eq⟩ := boundary.exists_slice?
    (Text.boundary_floorBoundary source (min (start + reach) source.byteLength)) le_last
  simp only [quoteSource?, Nat.min_eq_left boundary.le, before_eq, after_eq, Option.bind_some,
    Option.map_some]
  exact ⟨_, rfl⟩

namespace Diagnostic

variable {d : Diagnostic}

theorem exists_location? (boundary : source.Boundary d.span.start) :
    ∃ location, d.location? source = some location :=
  Location.exists_ofOffset? boundary

theorem exists_inContext? (boundary : source.Boundary d.span.start) (reach : Nat) :
    ∃ quoted, d.inContext? source reach = some quoted :=
  exists_quoteSource? boundary d.message d.severity reach

def Harmless (diagnostics : List Diagnostic) : Prop :=
  ∀ d ∈ diagnostics, d.severity ≠ .error

instance (diagnostics : List Diagnostic) : Decidable (Harmless diagnostics) :=
  inferInstanceAs (Decidable (∀ d ∈ diagnostics, d.severity ≠ .error))

variable {diagnostics more : List Diagnostic}

@[simp] theorem harmless_nil : Harmless [] := by
  simp [Harmless]

@[simp] theorem harmless_cons :
    Harmless (d :: diagnostics) ↔ d.severity ≠ .error ∧ Harmless diagnostics :=
  List.forall_mem_cons

@[simp] theorem harmless_append :
    Harmless (diagnostics ++ more) ↔ Harmless diagnostics ∧ Harmless more :=
  List.forall_mem_append

end Diagnostic

end ComponentExtraction
