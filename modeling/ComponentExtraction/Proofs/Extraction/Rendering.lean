import ComponentExtraction.Proofs.Component.Rewriting
import ComponentExtraction.Proofs.Extraction.Wiring
import ComponentExtraction.Proofs.Fragment.Marks

/-!
# The template of a component is its fragment rewritten

The template of a new component is made by edits at byte positions: those of all
bindings together, for each root those inside it, in source order, leaving out
the ones that overlap. The result can be said without positions: a recorded call
becomes its name, a two-way binding gets its handler, and everything else is the
source around what is below it (`templateText_isRewritten`). No edit gets lost or
strays into another root.
-/

namespace ComponentExtraction

open Fragment

namespace Component

variable {t : Template} {roots : List Occurrence} {bindings : List Binding}
variable {o root : Occurrence} {e : Edit} {found : List Diagnostic}

def callName? (bindings : List Binding) (o : Occurrence) : Option Text :=
  if (bindings.flatMap Binding.calls).any o.same then o.node.calleeName? else none

/-- The handler behind a two-way binding that has a value. It emits under the
first field of the binding. -/
def changeHandler? (bindings : List Binding) (o : Occurrence) : Option Text :=
  match o.kind, attributeExpression? .binding o with
  | .bananaBox property, some owner =>
    (bindings.find? fun b => b.owner.same owner).bind fun b =>
      b.fields.head?.map fun field => changeHandler property field.name
  | _, _ => none

/-- What the bindings of a fragment make of its nodes: calls give
way to names, and two-way attributes are followed by a handler. -/
def rewritingOf (bindings : List Binding) : Rewriting :=
  ⟨callName? bindings, changeHandler? bindings⟩

@[simp] theorem cut_rewritingOf (bindings : List Binding) :
    (rewritingOf bindings).cut = callName? bindings := rfl

@[simp] theorem tail_rewritingOf (bindings : List Binding) :
    (rewritingOf bindings).tail = changeHandler? bindings := rfl

theorem callName?_of_mem (recorded : o ∈ bindings.flatMap Binding.calls) :
    callName? bindings o = o.node.calleeName? := by
  have listed : (bindings.flatMap Binding.calls).any o.same = true :=
    List.any_eq_true.mpr ⟨o, recorded, by simp [Occurrence.same]⟩
  rw [callName?, if_pos listed]

theorem of_callName? (scanned : Scanned t roots bindings) (held : t.Contains o) {name : Text}
    (marked : callName? bindings o = some name) : o ∈ bindings.flatMap Binding.calls := by
  unfold callName? at marked
  split at marked
  · next listed =>
    obtain ⟨c, recorded, same⟩ := List.any_eq_true.mp listed
    have address_eq : o.address = c.address := by simpa [Occurrence.same] using same
    rw [held.ext (scanned.of_mem_calls recorded).1 address_eq]
    exact recorded
  · exact absurd marked (by simp)

theorem find?_owner (scanned : Scanned t roots bindings) {b : Binding} (member : b ∈ bindings) :
    (bindings.find? fun b' => b'.owner.same b.owner) = some b := by
  cases found : bindings.find? fun b' => b'.owner.same b.owner with
  | none =>
    have absent := List.find?_eq_none.mp found b member
    exact absurd absent (by simp [Occurrence.same])
  | some b' =>
    have same : b'.owner.address = b.owner.address := by
      simpa [Occurrence.same] using List.find?_some found
    rw [scanned.eq_of_owner (List.mem_of_find?_eq_some found) member same]

theorem changeHandler?_of_mem (scanned : Scanned t roots bindings) {b : Binding}
    (member : b ∈ bindings) {box : Occurrence} {property : Text} (boxed : b.bananaBox = some box)
    (kind_eq : box.kind = .bananaBox property) :
    changeHandler? bindings box =
      b.fields.head?.map fun field => changeHandler property field.name := by
  obtain ⟨-, -, valued⟩ := scanned.boxes b member box boxed
  rw [changeHandler?, kind_eq, valued]
  dsimp only
  rw [find?_owner scanned member, Option.bind_some]

/-- Only two-way bindings that a binding records get a handler. -/
theorem of_changeHandler? (scanned : Scanned t roots bindings) (run : IsRun t roots)
    (held : t.Contains o) {text : Text} (marked : changeHandler? bindings o = some text) :
    (∃ root ∈ roots, o ∈ root.descendants) ∧ (∃ property, o.kind = .bananaBox property) ∧
      ∃ b ∈ bindings, b.bananaBox = some o := by
  unfold changeHandler? at marked
  split at marked
  · next property owner kind_eq valued =>
    obtain ⟨b, found, -⟩ := Option.bind_eq_some_iff.mp marked
    have member := List.mem_of_find?_eq_some found
    have same : b.owner.address = owner.address := by
      simpa [Occurrence.same] using List.find?_some found
    obtain ⟨child, -⟩ := of_attributeExpression? valued
    obtain ⟨i, -, address_eq⟩ := Occurrence.mem_children_iff.mp child
    obtain ⟨root, selected, below⟩ := scanned.below b member
    have root_held := run.contains root selected
    -- The attribute lies below the root that its expression lies below.
    have o_below : o.Below root := by
      rcases below.eq_or_below_parent (same.trans address_eq) with top | lower
      · have markup := run.markup root selected
        rw [← held.ext root_held top, kind_eq] at markup
        exact absurd markup (by simp [Kind.isMarkup])
      · exact lower
    have listed := (Occurrence.mem_descendants_iff root_held).mpr ⟨held, o_below⟩
    obtain ⟨b', member', -, boxed⟩ := scanned.complete root selected o listed property owner kind_eq
      valued
    exact ⟨⟨root, selected, listed⟩, ⟨property, kind_eq⟩, b', member', boxed⟩
  · exact absurd marked (by simp)

/-- A node has an edit because a binding records it as a call, or because it is
the attribute of a two-way binding. -/
theorem of_editOf (scanned : Scanned t roots bindings) (run : IsRun t roots)
    (held : t.Contains o) (edit : (rewritingOf bindings).EditOf o e) :
    (o ∈ bindings.flatMap Binding.calls ∧ (rewritingOf bindings).cutEdit? o = some e ∧
        e.span = o.span) ∨
      ((∃ root ∈ roots, o ∈ root.descendants) ∧ (∃ property, o.kind = .bananaBox property) ∧
        (∃ b ∈ bindings, b.bananaBox = some o) ∧ (rewritingOf bindings).tailEdit? o = some e ∧
        e.span = Span.point o.span.stop) := by
  rcases edit with cut | tail
  · obtain ⟨name, marked, rfl⟩ := Option.map_eq_some_iff.mp cut
    exact .inl ⟨of_callName? scanned held marked, cut, rfl⟩
  · obtain ⟨text, marked, rfl⟩ := Option.map_eq_some_iff.mp tail
    obtain ⟨place, kind, recorded⟩ := of_changeHandler? scanned run held marked
    exact .inr ⟨place, kind, recorded, tail, rfl⟩

/-- Attributes of two-way bindings are not empty, and end before their element
does, except where the source ends. -/
theorem of_box (sound : Node.Everywhere (Node.Sound t.source found) t.root)
    (root_held : t.Contains root) (listed : o ∈ root.descendants) {property : Text}
    (kind_eq : o.kind = .bananaBox property) :
    o.node.Solid ∧ (o.span.stop < root.span.stop ∨ root.span.stop = t.source.byteLength) := by
  have mirrors : t.Mirrors := sound.mono fun _ h => h.regular
  obtain ⟨held, below⟩ := (Occurrence.mem_descendants_iff root_held).mp listed
  obtain ⟨i, path, address_eq⟩ := below
  obtain ⟨parent, parent_held, parent_eq, child⟩ := held.exists_parent address_eq
  have member : o ∈ parent.children :=
    Occurrence.mem_children_iff.mpr ⟨i, child, by rw [address_eq, parent_eq]; rfl⟩
  have packed := packed_of_child sound parent_held member (by rw [kind_eq]; exact Nat.le_refl 1)
  have node_member := List.mem_of_getElem? child
  refine ⟨packed.solid o.node node_member, ?_⟩
  have inside : parent.span.stop ≤ root.span.stop := by
    rcases Occurrence.eq_or_below_of_address parent_eq with same | lower
    · rw [parent_held.ext root_held same]
    · exact (mirrors.covers_of_below root_held parent_held lower).2
  have plain : o.node.kind.isMarkup = false := by
    rw [show o.node.kind = .bananaBox property from kind_eq]
    rfl
  have limit := (mirrors.regular root_held).stop.le
  rcases packed.enclosed o.node node_member plain with before | finished
  · exact .inl (Nat.lt_of_lt_of_le before inside)
  · refine .inr ?_
    change root.span.stop ≤ t.source.byteLength at limit
    change parent.span.stop = t.source.byteLength at finished
    omega

/-- The marks of a fragment do not get in each other's way. -/
theorem legal_rewritingOf (scanned : Scanned t roots bindings) (run : IsRun t roots)
    (sound : Node.Everywhere (Node.Sound t.source found) t.root)
    (shaped : Node.Every Node.Shaped t.root) : (rewritingOf bindings).Legal t := by
  have mirrors : t.Mirrors := sound.mono fun _ h => h.regular
  have call : ∀ {o name}, t.Contains o → callName? bindings o = some name →
      o.kind = .call ∧ nearestCall? t o.leftmostLeaf = some o := by
    intro o name held marked
    obtain ⟨-, call, -, innermost⟩ := scanned.of_mem_calls (of_callName? scanned held marked)
    exact ⟨Kind.isCall_iff.mp call, innermost⟩
  refine ⟨?_, ?_, ?_, ?_⟩
  · intro o e held edit
    rcases of_editOf scanned run held edit with
      ⟨recorded, -⟩ | ⟨⟨root, selected, listed⟩, ⟨property, kind_eq⟩, -⟩
    · exact solid_of_isCall shaped mirrors held (scanned.of_mem_calls recorded).2.1
    · exact (of_box sound (run.contains root selected) listed kind_eq).1
  · intro o name held marked
    rw [tail_rewritingOf, changeHandler?, (call held marked).1]
  · intro o p e held held' below edit
    -- Attributes stand neither below attributes nor inside expressions.
    have inner : 0 < o.kind.layer := by
      rcases of_editOf scanned run held edit with ⟨recorded, -⟩ | ⟨-, ⟨property, kind_eq⟩, -⟩
      · rw [Kind.isCall_iff.mp (scanned.of_mem_calls recorded).2.1]
        exact Nat.succ_pos 2
      · rw [kind_eq]
        exact Nat.succ_pos 0
    have deeper := mirrors.layer_of_below held held' below inner
    apply Option.eq_none_iff_forall_ne_some.mpr
    intro text marked
    obtain ⟨-, ⟨property, kind_eq⟩, -⟩ := of_changeHandler? scanned run held' marked
    have outer : p.kind.layer = 1 := by
      rw [kind_eq]
      rfl
    omega
  · intro o p name name' held held' below marked marked'
    exact start_lt_of_nearestCall? mirrors held held' below (call held marked).2
      (call held' marked').2

/-- The edit of a binding is that of its two-way attribute. -/
theorem changeEdit?_eq (scanned : Scanned t roots bindings) {b : Binding} (member : b ∈ bindings)
    {edit : Option Edit} (made : changeEdit? t b = .ok edit) :
    edit = b.bananaBox.bind (rewritingOf bindings).tailEdit? := by
  cases boxed : b.bananaBox with
  | none =>
    cases (changeEdit?_of_one_way boxed).symm.trans made
    rfl
  | some box =>
    obtain ⟨-, ⟨property, kind_eq⟩, -⟩ := scanned.boxes b member box boxed
    obtain ⟨field, first, rfl⟩ := (changeEdit?_eq_ok_iff boxed kind_eq).mp made
    have marked := changeHandler?_of_mem scanned member boxed kind_eq
    rw [first, Option.map_some] at marked
    rw [Option.bind_some, Rewriting.tailEdit?, tail_rewritingOf, marked, Option.map_some]

theorem changeEdits_eq (scanned : Scanned t roots bindings) {chosen : List Binding}
    (subset : chosen ⊆ bindings) {changes : List Edit}
    (made : changeEdits t chosen = .ok changes) :
    changes = chosen.filterMap fun b =>
      b.bananaBox.bind (rewritingOf bindings).tailEdit? := by
  induction chosen generalizing changes with
  | nil => exact (Except.ok.inj made).symm
  | cons b rest ih =>
    obtain ⟨member, subset_rest⟩ := List.cons_subset.mp subset
    obtain ⟨edit, later, edit_eq, later_eq, rfl⟩ := changeEdits_cons_eq_ok_iff.mp made
    rw [ih subset_rest later_eq, changeEdit?_eq scanned member edit_eq, List.filterMap_cons]
    cases b.bananaBox.bind (rewritingOf bindings).tailEdit? with
    | none => rfl
    | some e => rfl

theorem templateEdits_eq (scanned : Scanned t roots bindings) {edits : List Edit}
    (made : templateEdits t bindings = .ok edits) :
    edits = (bindings.flatMap Binding.calls).filterMap (rewritingOf bindings).cutEdit? ++
      bindings.filterMap fun b => b.bananaBox.bind (rewritingOf bindings).tailEdit? := by
  obtain ⟨changes, changes_eq, rfl⟩ := templateEdits_eq_ok_iff.mp made
  have calls_eq : (bindings.flatMap Binding.calls).filterMap callEdit? =
      (bindings.flatMap Binding.calls).filterMap (rewritingOf bindings).cutEdit? := by
    apply List.filterMap_congr
    intro c recorded
    rw [callEdit?, Rewriting.cutEdit?, cut_rewritingOf, callName?_of_mem recorded]
  rw [calls_eq, changeEdits_eq scanned (List.Subset.refl bindings) changes_eq]

/-- The edits of a template are those of its marked nodes. -/
theorem mem_templateEdits_iff (scanned : Scanned t roots bindings) (run : IsRun t roots)
    {edits : List Edit} (made : templateEdits t bindings = .ok edits) :
    e ∈ edits ↔ ∃ o, t.Contains o ∧ (rewritingOf bindings).EditOf o e := by
  rw [templateEdits_eq scanned made, List.mem_append, List.mem_filterMap, List.mem_filterMap]
  constructor
  · rintro (⟨c, recorded, cut⟩ | ⟨b, member, found⟩)
    · exact ⟨c, (scanned.of_mem_calls recorded).1, .inl cut⟩
    · obtain ⟨box, boxed, tail⟩ := Option.bind_eq_some_iff.mp found
      exact ⟨box, scanned.contains_box run.contains member boxed, .inr tail⟩
  · rintro ⟨o, held, edit⟩
    rcases of_editOf scanned run held edit with
      ⟨recorded, cut, -⟩ | ⟨-, -, ⟨b, member, boxed⟩, tail, -⟩
    · exact .inl ⟨o, recorded, cut⟩
    · exact .inr ⟨b, member, Option.bind_eq_some_iff.mpr ⟨o, boxed, tail⟩⟩

theorem nodup_templateEdits (scanned : Scanned t roots bindings) (run : IsRun t roots)
    (mirrors : t.Mirrors) (legal : (rewritingOf bindings).Legal t) {edits : List Edit}
    (made : templateEdits t bindings = .ok edits) : edits.Nodup := by
  rw [templateEdits_eq scanned made]
  refine List.nodup_append'.mpr ⟨?_, ?_, ?_⟩
  · refine List.pairwise_filterMap.mpr ((scanned.nodup_calls mirrors).imp_of_mem ?_)
    intro c c' recorded recorded' differ e cut e' cut'
    exact legal.edit_ne mirrors (scanned.of_mem_calls recorded).1
      (scanned.of_mem_calls recorded').1 (fun same => differ (congrArg _ same)) (.inl cut)
      (.inl cut')
  · refine List.pairwise_filterMap.mpr (scanned.nodup_boxes.imp_of_mem ?_)
    intro b b' member member' differ e found e' found'
    obtain ⟨box, boxed, tail⟩ := Option.bind_eq_some_iff.mp found
    obtain ⟨box', boxed', tail'⟩ := Option.bind_eq_some_iff.mp found'
    exact legal.edit_ne mirrors (scanned.contains_box run.contains member boxed)
      (scanned.contains_box run.contains member' boxed') (differ box boxed box' boxed') (.inr tail)
      (.inr tail')
  · intro e cut_mem tail_mem
    obtain ⟨c, recorded, cut⟩ := List.mem_filterMap.mp cut_mem
    obtain ⟨b, member, found⟩ := List.mem_filterMap.mp tail_mem
    obtain ⟨box, boxed, tail⟩ := Option.bind_eq_some_iff.mp found
    obtain ⟨held, call, -⟩ := scanned.of_mem_calls recorded
    obtain ⟨-, ⟨property, kind_eq⟩, -⟩ := scanned.boxes b member box boxed
    have differ : c ≠ box := by
      rintro rfl
      rw [kind_eq] at call
      exact absurd call (by simp [Kind.isCall])
    exact legal.edit_ne mirrors held (scanned.contains_box run.contains member boxed) differ
      (.inl cut) (.inr tail) rfl

theorem below_of_covers (scanned : Scanned t roots bindings) (run : IsRun t roots)
    (sound : Node.Everywhere (Node.Sound t.source found) t.root)
    (legal : (rewritingOf bindings).Legal t) (selected : root ∈ roots) (held : t.Contains o)
    (edit : (rewritingOf bindings).EditOf o e) (covered : root.span.covers e.span = true) :
    o ∈ root.descendants := by
  have mirrors : t.Mirrors := sound.mono fun _ h => h.regular
  -- The node lies below some root. That a two-way binding ends before its root
  -- does keeps its handler out of the next root.
  have place : ∃ other ∈ roots, o ∈ other.descendants ∧ (e.span.start < other.span.stop ∨
      other.span.stop = t.source.byteLength) := by
    rcases of_editOf scanned run held edit with
      ⟨recorded, -, span_eq⟩ |
        ⟨⟨other, listed, below⟩, ⟨property, kind_eq⟩, -, -, span_eq⟩
    · obtain ⟨-, -, ⟨other, listed, below⟩, -⟩ := scanned.of_mem_calls recorded
      have inside := mirrors.covers_of_below (run.contains other listed) held below
      have solid : o.span.start < o.span.stop := legal.solid o e held edit
      rw [span_eq]
      exact ⟨other, listed,
        (Occurrence.mem_descendants_iff (run.contains other listed)).mpr ⟨held, below⟩,
        .inl (Nat.lt_of_lt_of_le solid inside.2)⟩
    · rw [span_eq]
      exact ⟨other, listed, below, (of_box sound (run.contains other listed) below kind_eq).2⟩
  obtain ⟨other, listed, below, ends⟩ := place
  by_cases same : other = root
  · exact same ▸ below
  obtain ⟨-, o_below⟩ := (Occurrence.mem_descendants_iff (run.contains other listed)).mp below
  have inside := mirrors.covers_of_below (run.contains other listed) held o_below
  obtain ⟨start, forward, stop, behind⟩ := legal.inside held edit
  have solid : root.span.start < root.span.stop := run.solid sound root selected
  have limit : root.span.stop ≤ t.source.byteLength :=
    (mirrors.regular (run.contains root selected)).stop.le
  rw [Span.covers, Bool.and_eq_true, decide_eq_true_eq, decide_eq_true_eq] at covered
  exfalso
  rcases Sequence.before_or_behind (run.ordered mirrors) listed selected same with before | after
  · omega
  · omega

/-- The edits inside a root are those of the nodes below it. -/
theorem perm_edits (scanned : Scanned t roots bindings) (run : IsRun t roots)
    (sound : Node.Everywhere (Node.Sound t.source found) t.root)
    (legal : (rewritingOf bindings).Legal t) {edits : List Edit}
    (made : templateEdits t bindings = .ok edits) (selected : root ∈ roots) :
    (edits.filter fun e => root.span.covers e.span).Perm ((rewritingOf bindings).edits root) := by
  have mirrors : t.Mirrors := sound.mono fun _ h => h.regular
  have root_held := run.contains root selected
  have nodup : ((rewritingOf bindings).edits root).Nodup :=
    (Rewriting.pairwise_editsOfNode legal mirrors root_held).imp fun before => before.ne
  have nodup_pool := nodup_templateEdits scanned run mirrors legal made
  rw [List.perm_ext_iff_of_nodup (nodup_pool.filter _) nodup]
  intro e
  rw [List.mem_filter, mem_templateEdits_iff scanned run made, Rewriting.edits,
    Rewriting.mem_editsOfNode_iff, Occurrence.preorder_eq]
  constructor
  · rintro ⟨⟨o, held, edit⟩, covered⟩
    have below := below_of_covers scanned run sound legal selected held edit covered
    exact ⟨o, List.mem_cons_of_mem _ below, edit⟩
  · rintro ⟨o, listed, edit⟩
    rw [← Occurrence.preorder_eq] at listed
    obtain ⟨held, relation⟩ := Occurrence.contains_of_mem_preorder root_held listed
    have inside := mirrors.covers root_held held relation
    obtain ⟨start, -, stop, -⟩ := legal.inside held edit
    refine ⟨⟨o, held, edit⟩, ?_⟩
    rw [Span.covers, Bool.and_eq_true, decide_eq_true_eq, decide_eq_true_eq]
    omega

end Component

namespace Component

theorem editedRoots?_eq {source : Text} {edits : List Edit} {edited : Occurrence → Text}
    (each : ∀ root ∈ roots, Edit.applyAll? source root.span edits = some (edited root)) :
    editedRoots? source edits roots = some (roots.flatMap edited) := by
  induction roots with
  | nil => rfl
  | cons root roots ih =>
    obtain ⟨here, later⟩ := List.forall_mem_cons.mp each
    rw [editedRoots?, here, Option.bind_some, ih later, Option.map_some, List.flatMap_cons]

/-- A text is the rewriting of some roots by their bindings: calls that a binding
records become their names, and every two-way binding that has a value gets the
handler of the first field of its binding. The edits that are applied inside a
root are those of the nodes below it, each once. -/
structure IsRewritten (t : Template) (roots : List Occurrence) (bindings : List Binding)
    (text : Text) : Prop where
  text_eq : text = roots.flatMap ((rewritingOf bindings).rewrite t)
  handled : ∀ root ∈ roots, ∀ box ∈ root.descendants, ∀ property owner,
    box.kind = .bananaBox property → attributeExpression? .binding box = some owner →
      ∃ b ∈ bindings, ∃ field, b.owner = owner ∧ b.fields.head? = some field ∧
        (rewritingOf bindings).tail box = some (changeHandler property field.name)
  edits_eq : ∃ edits, templateEdits t bindings = .ok edits ∧
    ∀ root ∈ roots, Edit.inside root.span edits = (rewritingOf bindings).edits root

/-- The handler behind a two-way binding is there if the edits of the template
could be made. -/
theorem exists_tail (scanned : Scanned t roots bindings) {edits : List Edit}
    (made : templateEdits t bindings = .ok edits) (selected : root ∈ roots)
    (listed : o ∈ root.descendants) {property : Text} {owner : Occurrence}
    (kind_eq : o.kind = .bananaBox property)
    (valued : attributeExpression? .binding o = some owner) :
    ∃ b ∈ bindings, ∃ field, b.owner = owner ∧ b.fields.head? = some field ∧
      (rewritingOf bindings).tail o = some (changeHandler property field.name) := by
  obtain ⟨b, member, owner_eq, boxed⟩ :=
    scanned.complete root selected o listed property owner kind_eq valued
  obtain ⟨changes, changes_eq, -⟩ := templateEdits_eq_ok_iff.mp made
  obtain ⟨edit, edit_eq, -⟩ := of_changeEdits changes_eq member
  obtain ⟨field, first, -⟩ := (changeEdit?_eq_ok_iff boxed kind_eq).mp edit_eq
  have marked := changeHandler?_of_mem scanned member boxed kind_eq
  rw [first, Option.map_some] at marked
  exact ⟨b, member, field, owner_eq, first, marked⟩

/-- Rendering by positions is rewriting along the tree, for every run of sibling
markup nodes and whatever inputs its bindings have. -/
theorem templateText_isRewritten (source url : Text) (host : Symbols.Table)
    (fields : Binding → List InputField) {roots : List Occurrence} {text : Text}
    (run : IsRun (Markup.parse source url).template roots)
    (rendered : templateText (Markup.parse source url).template roots
      (bindingsWith fields (Markup.parse source url).template roots host) = .ok text) :
    IsRewritten (Markup.parse source url).template roots
      (bindingsWith fields (Markup.parse source url).template roots host) text := by
  have sound := Markup.sound_parse source url
  have mirrors := Markup.mirrors_parse source url
  have scanned : Scanned _ roots (bindingsWith fields _ roots host) :=
    scanned_bindingsWith fields run.contains
  have legal := legal_rewritingOf scanned run sound (Markup.shaped_parse source url)
  unfold templateText at rendered
  split at rendered
  · exact absurd rendered (by simp)
  · next edits made =>
    have each : ∀ root ∈ roots, (edits.filter fun e => root.span.covers e.span).Perm
        ((rewritingOf _).edits root) :=
      fun root selected => perm_edits scanned run sound legal made selected
    refine ⟨?_, ?_, edits, made, ?_⟩
    · have edited := editedRoots?_eq fun root selected =>
        Rewriting.applyAll?_eq_rewrite legal mirrors (run.contains root selected)
          (each root selected)
      rw [edited] at rendered
      exact (Except.ok.inj rendered).symm
    · intro root selected box listed property owner kind_eq valued
      exact exists_tail scanned made selected listed kind_eq valued
    · intro root selected
      exact Edit.inside_eq_of_perm (each root selected)
        (Rewriting.pairwise_editsOfNode legal mirrors (run.contains root selected))

/-- Two roots; the handler goes behind a two-way binding without quotes whose
value is a chain that is rooted in a call with a call among its arguments. -/
theorem templateText_isRewritten_chain :
    ∃ e : Extraction.Success, e.source = "<i [(a)]=f(g()).h></i>b".toList ∧ e.roots.length = 2 ∧
      e.plan.templateText = "<i [(a)]=f.h (aChange)=\"gChange.emit($event)\"></i>b".toList ∧
      IsRewritten e.template e.roots e.scan.bindings e.plan.templateText := by
  have passed : Extraction.succeedsWith "<i [(a)]=f(g()).h></i>b".toList {} (fun _ _ roots plan =>
      roots.length == 2 && plan.templateText ==
        "<i [(a)]=f.h (aChange)=\"gChange.emit($event)\"></i>b".toList) = true := by
    decide +kernel
  obtain ⟨e, source_eq, -, answers⟩ := Extraction.exists_success passed
  rw [Bool.and_eq_true, beq_iff_eq, beq_iff_eq] at answers
  obtain ⟨run, -⟩ := isRun_of_select (Markup.sound_parse e.source e.url) e.selected
  have rendered := e.rendered
  rw [Extraction.Success.scan, ← bindingsWith_fields] at rendered
  have rewritten := templateText_isRewritten e.source e.url e.host Binding.fields run rendered
  rw [bindingsWith_fields] at rewritten
  exact ⟨e, source_eq, answers.1, answers.2, rewritten⟩

end Component

end ComponentExtraction
