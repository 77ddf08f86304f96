import ComponentExtraction.Proofs.Component.Candidate
import ComponentExtraction.Proofs.Expression.Spelling
import ComponentExtraction.Proofs.Extraction.Tiling
import ComponentExtraction.Proofs.Markup.Reuse

/-!
# Inputs that are taken from references

A reference becomes an input if the host may have a member of its name: an identifier
that nothing else is known of, or a field of the host, alone or behind `this`
(`IsHostMember`). What the host passes in is the text of the reference, so it matters how
references are spelled in a source.
-/

namespace ComponentExtraction

open Node

namespace Markup

/-- Every reference of a template is spelled as it is named. -/
theorem spelledOut_parse (source url : Text) :
    Everywhere (SpelledOut source) (parse source url).template.root := by
  refine Spreads.of_parse ⟨fun stands => Expression.spelledOut_parse stands,
    fun stands => Expression.Directive.spelledOut_parse stands,
    fun span => .intro (.of_other rfl) (by simp [leaf]), ?_⟩ url
  intro kind span children outer below
  refine .intro (.of_other ?_) below
  cases kind <;> first | rfl | exact absurd outer (by simp [Kind.layer])

end Markup

namespace Fragment

variable {t : Template} {scope : Symbols.Scope} {isTwoWay : Bool} {q : Symbols.Query}
variable {field : InputField}

/-- How an input stands to what is known of the host: names of the fragment and methods of the
host are left out, a receiver is the host itself, and types are those of the host. -/
structure IsHostMember (declared : List Text) (host : Symbols.Table) (field : InputField) :
    Prop where
  named : field.name.IsIdentifier
  /-- The host passes in the name, or its field of the name. -/
  body : (field.body = field.name ∧ field.name ∉ declared ∧
      (field.name ∈ host.methods → Entries.has field.name host.fields = true)) ∨
    ((∃ mark : Text, mark.IsAccess ∧ field.body = "this".toList ++ mark ++ field.name) ∧
      Entries.has field.name host.fields = true)
  typed : ∀ type, Entries.get? field.name host.fields = some type → field.type = type
  inferred : Entries.get? field.name host.fields = none →
    field.type = (Entries.get? field.name host.locals).map Symbols.normalizeType

/-- What is known of the host decides about the type of an input. -/
theorem type_of_queryField? (found : queryField? scope isTwoWay q = some field) :
    (Entries.get? q.name scope.host.fields = some field.type) ∨
    (q.qualifier = none ∧ Entries.get? q.name scope.host.fields = none ∧
      q.name ∉ scope.host.methods ∧
      field.type = (Entries.get? q.name scope.host.locals).map Symbols.normalizeType) := by
  rcases queryField?_eq_some_iff.mp found with ⟨type, resolved, rfl⟩ | ⟨resolved, alone, rfl⟩
  · obtain ⟨-, -, -, declared⟩ := Symbols.Scope.resolve_eq_field_iff.mp resolved
    exact .inl declared
  · obtain ⟨-, unknown⟩ := Symbols.Scope.resolve_eq_none_iff.mp resolved
    obtain ⟨undeclared, noMethod⟩ := unknown (Symbols.Query.isMember_of_alone alone)
    exact .inr ⟨alone, undeclared, noMethod, rfl⟩

theorem isHostMember_of_queryField? (found : queryField? scope isTwoWay q = some field)
    (named : q.name.IsIdentifier) (alone : q.qualifier = none → q.text = q.name)
    (qualified : ∀ receiver, q.qualifier = some receiver →
      ∃ mark : Text, mark.IsAccess ∧ q.text = receiver ++ mark ++ q.name) :
    IsHostMember scope.locals scope.host field := by
  obtain ⟨name_eq, body_eq, -, free, hosted⟩ := of_queryField? found
  refine ⟨name_eq ▸ named, ?_, ?_, ?_⟩
  all_goals rw [name_eq]
  · rw [body_eq]
    rcases type_of_queryField? found with declared | ⟨unqualified, -, noMethod, -⟩
    · have isField : Entries.has q.name scope.host.fields = true := by
        rw [Entries.has, declared, Option.isSome_some]
      cases qualifier_eq : q.qualifier with
      | none => exact .inl ⟨alone qualifier_eq, free qualifier_eq, fun _ => isField⟩
      | some receiver =>
        obtain ⟨mark, access, text_eq⟩ := qualified receiver qualifier_eq
        rw [hosted receiver qualifier_eq] at text_eq
        exact .inr ⟨⟨mark, access, text_eq⟩, isField⟩
    · exact .inl ⟨alone unqualified, free unqualified, fun isMethod => absurd isMethod noMethod⟩
  · intro type declared
    rcases type_of_queryField? found with declared' | ⟨-, undeclared, -⟩
    · exact Option.some.inj (declared'.symm.trans declared)
    · rw [undeclared] at declared
      cases declared
  · intro undeclared
    rcases type_of_queryField? found with declared | ⟨-, -, -, type_eq⟩
    · rw [undeclared] at declared
      cases declared
    · exact type_eq

variable {source url : Text} {roots : List Occurrence} {host : Symbols.Table}
variable {reference : Occurrence}

/-- The text of a member starts with the text of its receiver. -/
theorem exists_text_of_qualifier? {name : Text} {receiver : Node} (mirrors : t.Mirrors)
    (held : t.Contains reference) (spelled : reference.node.SpelledOut t.source)
    (kind_eq : reference.kind = .reference name)
    (qualified : reference.node.qualifier? = some receiver) : ∃ mark : Text, mark.IsAccess ∧
      t.text reference = t.textAt receiver.span ++ mark ++ name := by
  have first : reference.node.children[0]? = some receiver := by
    unfold qualifier? at qualified
    split at qualified
    · next children_eq =>
      rw [children_eq]
      exact qualified
    · cases qualified
  have receiver_held : t.Contains ⟨0 :: reference.address, receiver⟩ := by
    rw [Template.Contains, Template.node?_cons, held]
    exact first
  obtain ⟨-, mark, access, joined⟩ := spelled.member name receiver kind_eq qualified
  have whole := joined _ (mirrors.textIn?_eq receiver_held)
  exact ⟨mark, access, Option.some.inj ((mirrors.textIn?_eq held).symm.trans whole)⟩

/-- An input that a binding of a fragment takes from a reference, in a template without
errors. -/
structure Taken (source url : Text) (roots : List Occurrence) (host : Symbols.Table)
    (field : InputField) : Prop where
  clean : (Markup.parse source url).hasErrors = false
  held : ∀ root ∈ roots, (Markup.parse source url).template.Contains root
  found : ∃ b ∈ (scan (Markup.parse source url).template roots host).bindings,
    ∃ reference ∈ b.references, referenceField? (Markup.parse source url).template
      (scopeOf roots host) b.isTwoWay reference = some field

/-- References become inputs that are members of the host, or may be ones.
Members have their declared types, other names those that were inferred. -/
theorem isHostMember_of_taken (h : Taken source url roots host field) :
    IsHostMember (declaredNames roots) host field := by
  obtain ⟨b, member, reference, listed, found⟩ := h.found
  have shaped := Markup.shaped_parse source url
  have mirrors := Markup.mirrors_parse source url
  have built := built_of_mem_bindings h.held member
  rw [built.references_eq] at listed
  obtain ⟨below, bindable⟩ := of_mem_topLevelReferences shaped built.contains listed
  have contained := Occurrence.contains_of_mem_descendants built.contains below
  have spelled := ((Markup.spelledOut_parse source url).of_contains contained).here
  have reusable := ((Markup.reusable_parse source url h.clean).of_contains contained).here
  obtain ⟨name, kind_eq⟩ := Kind.isReference_iff.mp (isReference_of_isBindable bindable)
  have node_kind_eq : reference.node.kind = .reference name := kind_eq
  -- A member without a name is an error.
  have named : name ≠ [] := (reusable.named name (by rw [node_kind_eq]; rfl)).1
  obtain ⟨q, asked, found⟩ := of_referenceField? found
  obtain ⟨name', name_eq, rfl⟩ := Option.map_eq_some_iff.mp asked
  rw [kind_eq] at name_eq
  cases name_eq
  have identified := (shaped.of_contains contained).identifier?_eq kind_eq named
  apply isHostMember_of_queryField? found
  · cases qualifier_eq : reference.node.qualifier? with
    | none => exact (spelled.identifier name (identified qualifier_eq)).1
    | some receiver => exact (spelled.member name receiver kind_eq qualifier_eq).1
  · intro alone
    have unqualified := Option.map_eq_none_iff.mp alone
    have text_eq := (spelled.identifier name (identified unqualified)).2
    exact Option.some.inj ((mirrors.textIn?_eq contained).symm.trans text_eq)
  · intro text qualified
    obtain ⟨receiver, qualifier_eq, rfl⟩ := Option.map_eq_some_iff.mp qualified
    exact exists_text_of_qualifier? mirrors contained spelled kind_eq qualifier_eq

def takes (source : Text) (host : Symbols.Table) (accept : InputField → Bool) : Bool :=
  !(Markup.parse source []).hasErrors &&
    ((Markup.parse source []).template.follow? [0]).any fun root =>
      (scan (Markup.parse source []).template [root] host).bindings.any fun b =>
        b.references.any fun reference => (referenceField? (Markup.parse source []).template
          (scopeOf [root] host) b.isTwoWay reference).any accept

theorem exists_taken {accept : InputField → Bool} (passed : takes source host accept = true) :
    ∃ roots field, Taken source [] roots host field ∧ accept field = true := by
  simp only [takes, Bool.and_eq_true, Bool.not_eq_true', Option.any_eq_true,
    List.any_eq_true] at passed
  obtain ⟨clean, root, found, b, member, reference, listed, field, taken, accepted⟩ := passed
  have held := (Template.occurrence?_eq_some_iff.mp found).1
  exact ⟨[root], field,
    ⟨clean, List.forall_mem_singleton.mpr held, b, member, reference, listed, taken⟩, accepted⟩

/-- A member of the host with a declared type and an identifier with an inferred one. -/
theorem isHostMember_typed : (∃ roots field,
      Taken "<i [a]=\"this?.x + y\"></i>".toList [] roots
        ⟨[("x".toList, some "X".toList)], [("y".toList, "*".toList)], []⟩ field ∧
      field = ⟨"x".toList, some "X".toList, "this?.x".toList, false⟩ ∧
      IsHostMember (declaredNames roots)
        ⟨[("x".toList, some "X".toList)], [("y".toList, "*".toList)], []⟩ field) ∧
    ∃ roots field, Taken "<i [a]=\"this?.x + y\"></i>".toList [] roots
        ⟨[("x".toList, some "X".toList)], [("y".toList, "*".toList)], []⟩ field ∧
      field = ⟨"y".toList, some "any".toList, "y".toList, false⟩ ∧
      IsHostMember (declaredNames roots)
        ⟨[("x".toList, some "X".toList)], [("y".toList, "*".toList)], []⟩ field := by
  have first : takes "<i [a]=\"this?.x + y\"></i>".toList
      ⟨[("x".toList, some "X".toList)], [("y".toList, "*".toList)], []⟩
      (· = ⟨"x".toList, some "X".toList, "this?.x".toList, false⟩) = true := by
    decide +kernel
  have second : takes "<i [a]=\"this?.x + y\"></i>".toList
      ⟨[("x".toList, some "X".toList)], [("y".toList, "*".toList)], []⟩
      (· = ⟨"y".toList, some "any".toList, "y".toList, false⟩) = true := by
    decide +kernel
  obtain ⟨roots, field, taken, eq⟩ := exists_taken first
  obtain ⟨roots', field', taken', eq'⟩ := exists_taken second
  exact ⟨⟨roots, field, taken, of_decide_eq_true eq, isHostMember_of_taken taken⟩,
    roots', field', taken', of_decide_eq_true eq', isHostMember_of_taken taken'⟩

/-- Blanks around the dot are passed on, and a keyword is a name too. -/
theorem taken_with_blanks : (∃ roots field,
      Taken "<i [a]=\"this . x\" [b]=\"if\"></i>".toList [] roots ⟨[("x".toList, none)], [], []⟩
        field ∧
      field.body ≠ field.name ∧ ∀ dot, dot = ".".toList ∨ dot = "?.".toList →
        field.body ≠ "this".toList ++ dot ++ field.name) ∧
    ∃ roots field,
      Taken "<i [a]=\"this . x\" [b]=\"if\"></i>".toList [] roots ⟨[("x".toList, none)], [], []⟩
        field ∧
      field.body = field.name ∧ Expression.Keyword.ofWord? field.name = some .if_ := by
  have first : takes "<i [a]=\"this . x\" [b]=\"if\"></i>".toList ⟨[("x".toList, none)], [], []⟩
      (· = ⟨"x".toList, none, "this . x".toList, false⟩) = true := by
    decide +kernel
  have second : takes "<i [a]=\"this . x\" [b]=\"if\"></i>".toList ⟨[("x".toList, none)], [], []⟩
      (· = ⟨"if".toList, none, "if".toList, false⟩) = true := by
    decide +kernel
  obtain ⟨roots, field, taken, eq⟩ := exists_taken first
  obtain ⟨roots', field', taken', eq'⟩ := exists_taken second
  cases of_decide_eq_true eq
  cases of_decide_eq_true eq'
  refine ⟨⟨roots, _, taken, by decide, ?_⟩, roots', _, taken', rfl, by decide⟩
  rintro dot (rfl | rfl) <;> decide

end Fragment

end ComponentExtraction
