import ComponentExtraction.Proofs.Extraction.Locality
import Mathlib.Data.List.Nodup

/-!
# Members of the class

The class of a component declares its inputs, an output for every two-way input,
and an output and a method for every event. Inputs differ from each other by name
and so do events, but nothing keeps an input apart from an event or either from a
name with a suffix: `nodup_memberNames_iff` says which names of the fragment must
not meet for the members of the class to be distinct.
-/

namespace ComponentExtraction

open Fragment

namespace Component

/-- A member that the class of a component declares. An event leads to
two of them, and so does an input that goes in both directions. -/
inductive Member where
  | change (field : InputField)
  | input (field : InputField)
  | output (event : Text)
  | handler (event : Text)
deriving DecidableEq, Repr

namespace Member

def name : Member → Text
  | change field => field.name ++ "Change".toList
  | input field => field.name
  | output event => event ++ "Event".toList
  | handler event => event

def declaration (settings : Settings) : Member → Text
  | change field =>
    settings.indent ++ "@Output() ".toList ++ (change field).name ++ " = new EventEmitter<".toList
      ++ field.type.getD settings.unknownType ++ ">();\n".toList
  | input field => settings.indent ++ inputDeclaration field ++ "\n".toList
  | output event =>
    settings.indent ++ "@Output(\"".toList ++ event ++ "\") ".toList ++ (output event).name
      ++ " = new EventEmitter<void>();\n".toList
  | handler event =>
    settings.indent ++ (handler event).name ++ "() \x7b\n".toList
      ++ settings.indent ++ settings.indent ++ "this.".toList ++ event ++ "Event.emit();\n".toList
      ++ settings.indent ++ "\x7d\n".toList

def ofInput (field : InputField) : List Member :=
  if field.isTwoWay then [change field, input field] else [input field]

def ofEvent (event : Text) : List Member :=
  [output event, handler event]

end Member

def members (inputs : List InputField) (events : List Text) : List Member :=
  inputs.flatMap Member.ofInput ++ events.flatMap Member.ofEvent

theorem inputMembers_eq (settings : Settings) (field : InputField) :
    inputMembers settings field = (Member.ofInput field).flatMap (Member.declaration settings) := by
  have output : "Change = new EventEmitter<".toList =
      "Change".toList ++ " = new EventEmitter<".toList := by decide
  unfold inputMembers Member.ofInput
  split
  · rw [List.flatMap_cons, List.flatMap_singleton]
    simp only [output, Member.declaration, Member.name, List.append_assoc]
  · rw [List.flatMap_singleton]
    simp only [Member.declaration, List.append_assoc]
    exact List.nil_append _

theorem eventMembers_eq (settings : Settings) (event : Text) :
    eventMembers settings event = (Member.ofEvent event).flatMap (Member.declaration settings) := by
  have output : "Event = new EventEmitter<void>();\n".toList =
      "Event".toList ++ " = new EventEmitter<void>();\n".toList := by decide
  rw [Member.ofEvent, List.flatMap_cons, List.flatMap_singleton]
  simp only [eventMembers, output, Member.declaration, Member.name, List.append_assoc]

/-- A class is a head, the declarations of some members, and the closing brace. -/
def Declares (settings : Settings) (members : List Member) (text : Text) : Prop :=
  ∃ head, text = head ++ members.flatMap (Member.declaration settings) ++ "\x7d\n".toList

theorem declares_classText (settings : Settings) (className kebab : Text) (scan : Scan) :
    Declares settings
      (members (inputs scan.bindings) ((forwarded scan.handlers).map Prod.snd))
      (classText settings className kebab scan) := by
  rw [Declares, members, List.flatMap_append, List.flatMap_assoc, List.flatMap_assoc,
    List.flatMap_map]
  simp only [← inputMembers_eq, ← eventMembers_eq]
  exact ⟨_, congrArg (· ++ "\x7d\n".toList) (List.append_assoc _ _ _)⟩

/-- An event of a name is forwarded exactly if some handler has the name. -/
theorem mem_names_forwarded_iff {handlers : List Handler} {name : Text} :
    name ∈ (forwarded handlers).map Prod.snd ↔ ∃ h ∈ handlers, h.name = some name := by
  have first : (∃ h, (h, name) ∈ forwarded handlers) ↔
      (handlers.find? fun h => h.name = some name).isSome = true := by
    rw [Option.isSome_iff_exists]
    exact exists_congr fun h => mem_forwarded_iff
  simpa [List.find?_isSome] using first

def changeNames (inputs : List InputField) : List Text :=
  (inputs.filter InputField.isTwoWay).map fun field => field.name ++ "Change".toList

def outputNames (events : List Text) : List Text :=
  events.map fun event => event ++ "Event".toList

theorem perm_names_ofInput (inputs : List InputField) :
    ((inputs.flatMap Member.ofInput).map Member.name).Perm
      (inputs.map InputField.name ++ changeNames inputs) := by
  induction inputs with
  | nil => exact .nil
  | cons field inputs ih =>
    rw [List.flatMap_cons, List.map_append, List.map_cons, changeNames]
    cases twoWay : field.isTwoWay with
    | false =>
      rw [Member.ofInput, twoWay, List.filter_cons_of_neg (by simp [twoWay])]
      exact ih.cons field.name
    | true =>
      rw [Member.ofInput, twoWay, List.filter_cons_of_pos twoWay]
      exact (List.Perm.swap _ _ _).trans (((ih.cons _).trans List.perm_middle.symm).cons _)

theorem perm_names_ofEvent (events : List Text) :
    ((events.flatMap Member.ofEvent).map Member.name).Perm (events ++ outputNames events) := by
  induction events with
  | nil => exact .nil
  | cons event events ih =>
    exact (List.Perm.swap _ _ _).trans (((ih.cons _).trans List.perm_middle.symm).cons _)

/-- Up to their order, the names of the members are those of inputs and events and
those made of them. -/
theorem perm_names_members (inputs : List InputField) (events : List Text) :
    ((members inputs events).map Member.name).Perm
      ((inputs.map InputField.name ++ events) ++ (changeNames inputs ++ outputNames events)) := by
  rw [members, List.map_append, List.append_assoc]
  refine ((perm_names_ofInput inputs).append (perm_names_ofEvent events)).trans ?_
  rw [List.append_assoc]
  exact (List.perm_append_comm_assoc _ _ _).append_left _

/-- The two suffixes keep the names made of inputs and of events apart. -/
theorem change_ne_event (name event : Text) :
    name ++ "Change".toList ≠ event ++ "Event".toList := by
  intro same
  have last := congrArg List.getLast? same
  have ends : "Change".toList.getLast? = some 'e' ∧ "Event".toList.getLast? = some 't' := by decide
  rw [List.getLast?_append, List.getLast?_append, ends.1, ends.2] at last
  exact absurd last (by simp)

theorem nodup_madeNames {inputs : List InputField} {events : List Text}
    (distinct : (inputs.map InputField.name).Nodup) (events_distinct : events.Nodup) :
    (changeNames inputs ++ outputNames events).Nodup := by
  refine List.nodup_append.mpr ⟨?_, events_distinct.map (List.append_left_injective _), ?_⟩
  · have kept : ((inputs.filter InputField.isTwoWay).map InputField.name).Nodup :=
      distinct.sublist (List.filter_sublist.map InputField.name)
    have suffixed := kept.map (List.append_left_injective "Change".toList)
    rw [List.map_map] at suffixed
    exact suffixed
  · intro change made output emitted
    obtain ⟨field, -, rfl⟩ := List.mem_map.mp made
    obtain ⟨event, -, rfl⟩ := List.mem_map.mp emitted
    exact change_ne_event field.name event

end Component

namespace Plan

def members (p : Plan) : List Component.Member :=
  Component.members p.inputs p.events

def memberNames (p : Plan) : List Text :=
  p.members.map Component.Member.name

end Plan

namespace Extraction.Success

open Component

variable (e : Success)

/-- Some binding of the fragment asks for an input of a name. -/
def Asks (name : Text) : Prop :=
  ∃ b ∈ e.scan.bindings, ∃ c ∈ candidates e.template e.scope b, c.field.name = name

/-- Some handler of the fragment is named after a call of the name. -/
def Handles (name : Text) : Prop :=
  ∃ h ∈ e.scan.handlers, h.name = some name

/-- The names that the fragment asks for and those of its handlers do not meet,
nor do they meet the names that are made of them. -/
structure MembersApart : Prop where
  inputs : ∀ name, e.Asks name → ¬e.Handles name
  changes : ∀ name holder, e.holder? name = some holder → holder.field.isTwoWay = true →
    ¬e.Asks (name ++ "Change".toList) ∧ ¬e.Handles (name ++ "Change".toList)
  outputs : ∀ name, e.Handles name →
    ¬e.Asks (name ++ "Event".toList) ∧ ¬e.Handles (name ++ "Event".toList)

variable {e} {name : Text}

theorem mem_inputNames_iff : name ∈ e.plan.inputs.map InputField.name ↔ e.Asks name := by
  rw [e.inputs_eq]
  exact Component.mem_names_inputs_iff e.built

theorem mem_events_iff : name ∈ e.plan.events ↔ e.Handles name := by
  rw [e.events_eq]
  exact Component.mem_names_forwarded_iff

theorem mem_changeNames_iff : name ∈ changeNames e.plan.inputs ↔
    ∃ input holder, e.holder? input = some holder ∧ holder.field.isTwoWay = true ∧
      name = input ++ "Change".toList := by
  simp only [changeNames, List.mem_map, List.mem_filter]
  constructor
  · rintro ⟨field, ⟨member, twoWay⟩, rfl⟩
    obtain ⟨origin, found⟩ := mem_inputs_iff.mp member
    exact ⟨field.name, _, found, twoWay, rfl⟩
  · rintro ⟨input, holder, found, twoWay, rfl⟩
    obtain ⟨member, rfl, -⟩ := input_of_holder? found
    exact ⟨holder.field, ⟨member, twoWay⟩, rfl⟩

theorem declares_members (e : Success) :
    Declares e.settings e.plan.members e.plan.classText := by
  rw [Plan.members, e.inputs_eq, e.events_eq, e.class_eq]
  exact declares_classText e.settings e.plan.className e.plan.kebabName e.scan

theorem nodup_inputNames (e : Success) : (e.plan.inputs.map InputField.name).Nodup := by
  rw [e.inputs_eq]
  exact Sequence.nodup_map_distinctBy _ _

theorem nodup_events (e : Success) : e.plan.events.Nodup := by
  rw [e.events_eq]
  exact Sequence.nodup_map_distinctBy _ _

/-- The members that the class declares are distinct exactly when the names of the
fragment that they are made of do not meet. -/
theorem nodup_memberNames_iff (e : Success) :
    Declares e.settings e.plan.members e.plan.classText ∧
      (e.plan.memberNames.Nodup ↔ e.MembersApart) := by
  refine ⟨e.declares_members, ?_⟩
  have made := nodup_madeNames e.nodup_inputNames e.nodup_events
  rw [Plan.memberNames, Plan.members, (perm_names_members _ _).nodup_iff, List.nodup_append,
    List.nodup_append]
  constructor
  · rintro ⟨⟨-, -, inputs⟩, -, apart⟩
    have unused : ∀ {name}, name ∈ changeNames e.plan.inputs ++ outputNames e.plan.events →
        ¬e.Asks name ∧ ¬e.Handles name := by
      intro name member
      refine ⟨fun asked => ?_, fun handled => ?_⟩
      · exact apart name (List.mem_append_left _ (mem_inputNames_iff.mpr asked)) name member rfl
      · exact apart name (List.mem_append_right _ (mem_events_iff.mpr handled)) name member rfl
    refine ⟨fun name asked handled => ?_, fun name holder found twoWay => ?_,
      fun name handled => ?_⟩
    · exact inputs name (mem_inputNames_iff.mpr asked) name (mem_events_iff.mpr handled) rfl
    · exact unused (List.mem_append_left _
        (mem_changeNames_iff.mpr ⟨name, holder, found, twoWay, rfl⟩))
    · exact unused (List.mem_append_right _ (List.mem_map_of_mem (mem_events_iff.mpr handled)))
  · intro apart
    refine ⟨⟨e.nodup_inputNames, e.nodup_events, ?_⟩, made, ?_⟩
    · rintro name listed _ listed' rfl
      exact apart.inputs name (mem_inputNames_iff.mp listed) (mem_events_iff.mp listed')
    · rintro name plain _ member rfl
      have unused : ¬e.Asks name ∧ ¬e.Handles name := by
        rcases List.mem_append.mp member with changed | emitted
        · obtain ⟨input, holder, found, twoWay, rfl⟩ := mem_changeNames_iff.mp changed
          exact apart.changes input holder found twoWay
        · obtain ⟨event, listed, rfl⟩ := List.mem_map.mp emitted
          exact apart.outputs event (mem_events_iff.mp listed)
      rcases List.mem_append.mp plain with listed | listed
      · exact unused.1 (mem_inputNames_iff.mp listed)
      · exact unused.2 (mem_events_iff.mp listed)

/-- A call in a binding and one in a handler make an input and a method of one name. -/
theorem not_nodup_memberNames_call : ∃ e : Success,
    e.source = "<i [x]=\"f()\" (y)=\"f()\"></i>".toList ∧ ¬e.plan.memberNames.Nodup := by
  have passed : succeedsWith "<i [x]=\"f()\" (y)=\"f()\"></i>".toList {}
      (fun _ _ _ plan => decide (¬plan.memberNames.Nodup)) = true := by
    decide +kernel
  obtain ⟨e, source_eq, -, passed⟩ := exists_success passed
  exact ⟨e, source_eq, of_decide_eq_true passed⟩

end Extraction.Success

end ComponentExtraction
