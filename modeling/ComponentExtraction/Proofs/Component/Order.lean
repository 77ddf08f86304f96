import ComponentExtraction.Proofs.Component.Candidate
import ComponentExtraction.Proofs.Extraction.Success

/-!
# The order of the inputs

The inputs of a component are meant to stand in the order in which the fragment asks for
them, those in both directions first (`InOrder`). What is put first are the bindings in
both directions, though, and such a binding can ask for a one-way input, the value of a
call. Such a stray input (`Stray`) comes with its binding. The inputs are in order
exactly if the stray ones are, and each name has one input in any case
(`inOrder_inputs_iff`).
-/

namespace ComponentExtraction

namespace Component

open Fragment

variable {t : Template} {scope : Symbols.Scope} {bindings : List Binding} {b : Binding}
variable {met other front : List InputField} {x y : InputField}

def Alike (x y : InputField) : Prop :=
  x.name = y.name ∧ x.isTwoWay = y.isTwoWay

/-- An input is asked for before another one: up to some place only it has been met. -/
def MetBefore (met : List InputField) (x y : InputField) : Prop :=
  ∃ front, front <+: met ∧ (∃ z ∈ front, Alike z x) ∧ ∀ z ∈ front, ¬Alike z y

/-- Inputs in both directions come first, and in the order in which they were met; then
come the others, in that order too. -/
structure InOrder (met inputs : List InputField) : Prop where
  twoWay : inputs.Pairwise fun x y => y.isTwoWay = true → x.isTwoWay = true
  encounter : inputs.Pairwise fun x y => x.isTwoWay = y.isTwoWay → MetBefore met x y

/-- A one-way input whose name a two-way binding asks for. -/
def Stray (bindings : List Binding) (x : InputField) : Prop :=
  x.isTwoWay = false ∧ ∃ b ∈ bindings, b.isTwoWay = true ∧ ∃ y ∈ b.fields, y.name = x.name

def asked (bindings : List Binding) : List InputField :=
  bindings.flatMap Binding.fields

theorem MetBefore.of_filter {keep : InputField → Bool}
    (shared : met.filter keep = other.filter keep) (before : front <+: other) (member : x ∈ front)
    (kept : keep x = true) (absent : ∀ z ∈ front, z.name ≠ y.name)
    (respects : ∀ z, Alike z y → keep z = true) : MetBefore met x y := by
  obtain ⟨back, rfl⟩ := before
  rw [List.filter_append] at shared
  obtain ⟨front', back', rfl, front_eq, -⟩ := List.filter_eq_append_iff.mp shared
  refine ⟨front', List.prefix_append front' back', ⟨x, ?_, rfl, rfl⟩, ?_⟩
  · have listed : x ∈ front.filter keep := List.mem_filter.mpr ⟨member, kept⟩
    rw [← front_eq] at listed
    exact (List.mem_filter.mp listed).1
  · intro z member alike
    have listed : z ∈ front'.filter keep := List.mem_filter.mpr ⟨member, respects z alike⟩
    rw [front_eq] at listed
    exact absent z (List.mem_filter.mp listed).1 alike.1

theorem filter_asked_filter (choose : Binding → Bool) (keep : InputField → Bool)
    (others : ∀ b ∈ bindings, choose b = false → ∀ x ∈ b.fields, keep x = false) :
    (asked (bindings.filter choose)).filter keep = (asked bindings).filter keep := by
  induction bindings with
  | nil => rfl
  | cons b bindings ih =>
    obtain ⟨first, later⟩ := List.forall_mem_cons.mp others
    have ih := ih later
    rw [asked, asked] at ih ⊢
    rw [List.flatMap_cons, List.filter_append]
    by_cases chosen : choose b = true
    · rw [List.filter_cons_of_pos chosen, List.flatMap_cons, List.filter_append, ih]
    · have empty : b.fields.filter keep = [] := by
        apply List.filter_eq_nil_iff.mpr
        intro x member kept
        exact absurd ((first (Bool.not_eq_true _ ▸ chosen) x member).symm.trans kept) (by simp)
      rw [List.filter_cons_of_neg chosen, ih, empty, List.nil_append]

theorem isTwoWay_of_mem_fields (built : b.Built t scope) (member : x ∈ b.fields)
    (twoWay : x.isTwoWay = true) : b.isTwoWay = true := by
  rw [fields_eq_candidates built] at member
  obtain ⟨c, asks, rfl⟩ := List.mem_map.mp (Sequence.mem_of_mem_distinctBy member)
  rcases mem_candidates_iff.mp asks with ⟨-, found⟩ | ⟨-, found⟩
  · exact (referenceField?_body found).2.symm.trans twoWay
  · exact absurd ((of_callField? found).2.2.symm.trans twoWay) (by simp)

theorem asked_twoWayFirst (bindings : List Binding) : asked (twoWayFirst bindings) =
    asked (bindings.filter Binding.isTwoWay) ++ asked (bindings.filter fun b => !b.isTwoWay) :=
  List.flatMap_append

/-- Putting two-way bindings first does not change the order of the two-way inputs. -/
theorem filter_isTwoWay_asked (built : ∀ b ∈ bindings, b.Built t scope) :
    (asked bindings).filter InputField.isTwoWay =
      (asked (twoWayFirst bindings)).filter InputField.isTwoWay := by
  have oneWay : ∀ b ∈ bindings, b.isTwoWay = false → ∀ x ∈ b.fields, x.isTwoWay = false := by
    intro b member direction x listed
    apply Bool.eq_false_iff.mpr
    intro twoWay
    have both := isTwoWay_of_mem_fields (built b member) listed twoWay
    exact absurd (direction.symm.trans both) (by simp)
  have none_left : (asked (bindings.filter fun b => !b.isTwoWay)).filter InputField.isTwoWay =
      [] := by
    apply List.filter_eq_nil_iff.mpr
    intro x member
    obtain ⟨b, listed, member⟩ := List.mem_flatMap.mp member
    obtain ⟨listed, direction⟩ := List.mem_filter.mp listed
    simp [oneWay b listed (by simpa using direction) x member]
  rw [asked_twoWayFirst, List.filter_append, none_left, List.append_nil,
    filter_asked_filter _ _ oneWay]

/-- Nor does it change the order of the inputs that no two-way binding asks for. -/
theorem filter_not_stray_asked (bindings : List Binding) (keep : InputField → Bool)
    (stray : ∀ x ∈ asked (bindings.filter Binding.isTwoWay), keep x = false) :
    (asked bindings).filter keep = (asked (twoWayFirst bindings)).filter keep := by
  have twoWay : (asked (bindings.filter Binding.isTwoWay)).filter keep = [] := by
    apply List.filter_eq_nil_iff.mpr
    intro x member kept
    exact absurd ((stray x member).symm.trans kept) (by simp)
  have others : ∀ b ∈ bindings, (!b.isTwoWay) = false → ∀ x ∈ b.fields, keep x = false := by
    intro b member direction x listed
    apply stray
    exact List.mem_flatMap.mpr ⟨b, List.mem_filter.mpr ⟨member, by simpa using direction⟩, listed⟩
  rw [asked_twoWayFirst, List.filter_append, twoWay, List.nil_append,
    filter_asked_filter (fun b => !b.isTwoWay) keep others]

/-- An input that is not stray stands in order with all inputs behind it. -/
theorem inOrder_of_not_stray (built : ∀ b ∈ bindings, b.Built t scope)
    (before : front <+: asked (twoWayFirst bindings)) (member : x ∈ front)
    (absent : ∀ z ∈ front, z.name ≠ y.name) (listed : y ∈ asked (twoWayFirst bindings))
    (settled : ¬Stray bindings x) :
    (y.isTwoWay = true → x.isTwoWay = true) ∧
      (x.isTwoWay = y.isTwoWay → MetBefore (asked bindings) x y) := by
  by_cases direction : x.isTwoWay = true
  · refine ⟨fun _ => direction, fun same => ?_⟩
    apply MetBefore.of_filter (filter_isTwoWay_asked built) before member direction absent
    intro z alike
    rw [alike.2, ← same, direction]
  · have unasked : x.name ∉ (asked (bindings.filter Binding.isTwoWay)).map InputField.name := by
      intro named
      obtain ⟨z, met, same⟩ := List.mem_map.mp named
      obtain ⟨b, chosen, asks⟩ := List.mem_flatMap.mp met
      obtain ⟨held, twoWay⟩ := List.mem_filter.mp chosen
      exact settled ⟨Bool.not_eq_true _ ▸ direction, b, held, twoWay, z, asks, same⟩
    -- Since `x` is asked for by none of them, the two-way bindings are all in front of it.
    have passed : asked (bindings.filter Binding.isTwoWay) <+: front := by
      rw [asked_twoWayFirst] at before
      rcases List.prefix_or_prefix_of_prefix before (List.prefix_append _ _) with inside | passed
      · exact absurd (List.mem_map_of_mem (inside.subset member)) unasked
      · exact passed
    have unasked' : y.name ∉ (asked (bindings.filter Binding.isTwoWay)).map InputField.name := by
      intro named
      obtain ⟨z, met, same⟩ := List.mem_map.mp named
      exact absent z (passed.subset met) same
    refine ⟨fun twoWay => ?_, fun _ => ?_⟩
    · have kept : y ∈ (asked (twoWayFirst bindings)).filter InputField.isTwoWay :=
        List.mem_filter.mpr ⟨listed, twoWay⟩
      obtain ⟨b, held, asks⟩ := List.mem_flatMap.mp listed
      have held := mem_twoWayFirst_iff.mp held
      have chosen := isTwoWay_of_mem_fields (built b held) asks twoWay
      have met : y ∈ asked (bindings.filter Binding.isTwoWay) :=
        List.mem_flatMap.mpr ⟨b, List.mem_filter.mpr ⟨held, chosen⟩, asks⟩
      exact absurd (List.mem_map_of_mem met) unasked'
    · let keep : InputField → Bool := fun z =>
        decide (z.name ∉ (asked (bindings.filter Binding.isTwoWay)).map InputField.name)
      have stray : ∀ z ∈ asked (bindings.filter Binding.isTwoWay), keep z = false := by
        intro z met
        exact decide_eq_false (not_not_intro (List.mem_map_of_mem met))
      apply MetBefore.of_filter (filter_not_stray_asked bindings keep stray) before member
        (decide_eq_true unasked) absent
      intro z alike
      apply decide_eq_true
      rw [alike.1]
      exact unasked'

/-- Each name that a binding asks for has one input. The inputs are in order exactly if
behind a stray one there are only one-way inputs which are asked for later. -/
theorem inOrder_inputs_iff {roots : List Occurrence} (host : Symbols.Table)
    (held : ∀ root ∈ roots, t.Contains root) :
    ((inputs (scan t roots host).bindings).map InputField.name).Nodup ∧
    (∀ name, name ∈ (inputs (scan t roots host).bindings).map InputField.name ↔
      ∃ b ∈ (scan t roots host).bindings, ∃ x ∈ b.fields, x.name = name) ∧
    (InOrder (asked (scan t roots host).bindings) (inputs (scan t roots host).bindings) ↔
      (inputs (scan t roots host).bindings).Pairwise fun x y =>
        Stray (scan t roots host).bindings x →
          y.isTwoWay = false ∧ MetBefore (asked (scan t roots host).bindings) x y) := by
  have built : ∀ b ∈ (scan t roots host).bindings, b.Built t (scopeOf roots host) :=
    fun b member => built_of_mem_bindings held member
  generalize (scan t roots host).bindings = bindings at built
  refine ⟨Sequence.nodup_map_distinctBy _ _, fun name => ?_, ?_⟩
  · rw [inputs_eq, Sequence.mem_map_distinctBy_iff, List.mem_map]
    simp only [List.mem_flatMap, mem_twoWayFirst_iff]
    constructor
    · rintro ⟨x, ⟨b, member, asks⟩, rfl⟩
      exact ⟨b, member, x, asks, rfl⟩
    · rintro ⟨b, member, x, asks, rfl⟩
      exact ⟨x, ⟨b, member, asks⟩, rfl⟩
  constructor
  · intro ordered
    apply (ordered.twoWay.and ordered.encounter).imp
    rintro x y ⟨twoWay, encounter⟩ ⟨oneWay, -⟩
    have direction : y.isTwoWay = false := by
      apply Bool.eq_false_iff.mpr
      intro other
      exact absurd (oneWay.symm.trans (twoWay other)) (by simp)
    exact ⟨direction, encounter (oneWay.trans direction.symm)⟩
  · intro strays
    have standing := Sequence.pairwise_distinctBy InputField.name (asked (twoWayFirst bindings))
    have each : (inputs bindings).Pairwise fun x y => (y.isTwoWay = true → x.isTwoWay = true) ∧
        (x.isTwoWay = y.isTwoWay → MetBefore (asked bindings) x y) := by
      apply (strays.and standing).imp_of_mem
      rintro x y - listed ⟨stray, front, before, member, absent⟩
      by_cases isStray : Stray bindings x
      · obtain ⟨oneWay, encounter⟩ := stray isStray
        exact ⟨fun twoWay => absurd (oneWay.symm.trans twoWay) (by simp), fun _ => encounter⟩
      · exact inOrder_of_not_stray built before member absent
          (Sequence.mem_of_mem_distinctBy listed) isStray
    exact ⟨each.imp And.left, each.imp And.right⟩

/-- A two-way binding after a one-way one. -/
theorem inOrder_inputs_iff_mixed : ∃ source root,
    source = "<i [x]=\"a\" [(b)]=\"c\"></i>".toList ∧
    (Markup.parse source []).template.follow? [0] = some root ∧
    ((inputs (scan (Markup.parse source []).template [root] {}).bindings).map
      InputField.name).Nodup ∧
    (InOrder (asked (scan (Markup.parse source []).template [root] {}).bindings)
        (inputs (scan (Markup.parse source []).template [root] {}).bindings) ↔
      (inputs (scan (Markup.parse source []).template [root] {}).bindings).Pairwise fun x y =>
        Stray (scan (Markup.parse source []).template [root] {}).bindings x →
          y.isTwoWay = false ∧
            MetBefore (asked (scan (Markup.parse source []).template [root] {}).bindings) x y) := by
  have passed : ((Markup.parse "<i [x]=\"a\" [(b)]=\"c\"></i>".toList
      []).template.follow? [0]).isSome = true := by
    decide +kernel
  obtain ⟨root, found⟩ := Option.isSome_iff_exists.mp passed
  have held := (Template.occurrence?_eq_some_iff.mp found).1
  obtain ⟨nodup, -, ordered⟩ := inOrder_inputs_iff {} (List.forall_mem_singleton.mpr held)
  exact ⟨_, root, rfl, found, nodup, ordered⟩

/-- A call in a two-way binding puts a one-way input before a two-way one. -/
theorem not_inOrder_inputs_call : ∃ e : Extraction.Success,
    e.source = "<i [(a)]=\"f()\" [(b)]=\"c\"></i>".toList ∧
      ¬InOrder (asked e.scan.bindings) e.plan.inputs := by
  have passed : Extraction.succeedsWith "<i [(a)]=\"f()\" [(b)]=\"c\"></i>".toList {}
      (fun _ _ _ plan => decide (plan.inputs.map InputField.isTwoWay = [false, true])) = true := by
    decide +kernel
  obtain ⟨e, source_eq, -, passed⟩ := Extraction.exists_success passed
  have directions : e.plan.inputs.map InputField.isTwoWay = [false, true] :=
    of_decide_eq_true passed
  refine ⟨e, source_eq, fun ordered => ?_⟩
  have twoWay : (e.plan.inputs.map InputField.isTwoWay).Pairwise fun x y => y = true → x = true :=
    List.pairwise_map.mpr ordered.twoWay
  rw [directions] at twoWay
  simp at twoWay

end Component

end ComponentExtraction
