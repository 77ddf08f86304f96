import ComponentExtraction.Symbols.Table

/-!
# What references denote

A reference denotes a field of the host if it has no receiver but the host, the host
has a field of the name, and the fragment does not declare the name itself. Nothing is
known of a name that is neither declared in the fragment nor a field or method of the
host, and of all names behind another receiver. Inputs are made of these two kinds of
references.
-/

namespace ComponentExtraction

namespace Symbols

variable {scope : Scope} {host : Table} {q : Query} {name : Text} {type : Option Text}

theorem Query.isMember_of_alone (alone : q.qualifier = none) : q.isMember = true := by
  rw [isMember, alone]

theorem Query.eq_this_of_isMember {receiver : Text} (member : q.isMember = true)
    (qualified : q.qualifier = some receiver) : receiver = "this".toList := by
  rw [isMember, qualified] at member
  exact of_decide_eq_true member

theorem Table.resolve_eq_field_iff : host.resolve q = some (.field name type) ↔
    q.isMember = true ∧ name = q.name ∧ Entries.get? q.name host.fields = some type := by
  rw [resolve]
  cases q.isMember with
  | false => simp
  | true =>
    cases Entries.get? q.name host.fields with
    | none => by_cases isMethod : q.name ∈ host.methods <;> simp [isMethod]
    | some type' => simp [eq_comm]

theorem Table.resolve_eq_none_iff : host.resolve q = none ↔
    (q.isMember = true → Entries.get? q.name host.fields = none ∧ q.name ∉ host.methods) := by
  rw [resolve]
  cases q.isMember with
  | false => simp
  | true =>
    cases Entries.get? q.name host.fields with
    | none => by_cases isMethod : q.name ∈ host.methods <;> simp [isMethod]
    | some type' => simp

/-- A name that the fragment does not declare, or one with a receiver, is looked up in
the host. -/
theorem Scope.resolve_of_visible (visible : q.qualifier = none → q.name ∉ scope.locals) :
    scope.resolve q = scope.host.resolve q := by
  rw [resolve, if_neg]
  intro declared
  rw [Bool.and_eq_true, Option.isNone_iff_eq_none, decide_eq_true_eq] at declared
  exact visible declared.1 declared.2

theorem Scope.resolve_of_declared (alone : q.qualifier = none) (declared : q.name ∈ scope.locals) :
    scope.resolve q = some (.local q.name) := by
  rw [resolve, if_pos]
  rw [Bool.and_eq_true, Option.isNone_iff_eq_none, decide_eq_true_eq]
  exact ⟨alone, declared⟩

theorem Scope.visible_of_resolve (other : scope.resolve q ≠ some (.local q.name)) :
    q.qualifier = none → q.name ∉ scope.locals :=
  fun alone declared => other (resolve_of_declared alone declared)

theorem Scope.resolve_eq_field_iff : scope.resolve q = some (.field name type) ↔
    (q.qualifier = none → q.name ∉ scope.locals) ∧ q.isMember = true ∧ name = q.name ∧
      Entries.get? q.name scope.host.fields = some type := by
  constructor
  · intro found
    have visible : q.qualifier = none → q.name ∉ scope.locals :=
      visible_of_resolve (by simp [found])
    rw [resolve_of_visible visible] at found
    exact ⟨visible, Table.resolve_eq_field_iff.mp found⟩
  · rintro ⟨visible, declared⟩
    rw [resolve_of_visible visible]
    exact Table.resolve_eq_field_iff.mpr declared

theorem Scope.resolve_eq_none_iff : scope.resolve q = none ↔
    (q.qualifier = none → q.name ∉ scope.locals) ∧
      (q.isMember = true →
        Entries.get? q.name scope.host.fields = none ∧ q.name ∉ scope.host.methods) := by
  constructor
  · intro found
    have visible : q.qualifier = none → q.name ∉ scope.locals :=
      visible_of_resolve (by simp [found])
    rw [resolve_of_visible visible] at found
    exact ⟨visible, Table.resolve_eq_none_iff.mp found⟩
  · rintro ⟨visible, unknown⟩
    rw [resolve_of_visible visible]
    exact Table.resolve_eq_none_iff.mpr unknown

end Symbols

end ComponentExtraction
