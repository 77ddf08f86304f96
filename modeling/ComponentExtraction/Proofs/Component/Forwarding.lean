import ComponentExtraction.Proofs.Component.Invocation
import ComponentExtraction.Proofs.Extraction.Members

/-!
# What becomes of handlers

Of the handlers of one name a component forwards the first. A later one that does something
else is reported as shadowed, and one with the same text is served by the first. So every
handler with a name has one of three fates (`Fate`), which is told by a look at the forwarded
handler of its name (`Fate.meets_iff`). `accounted_scan` says this of every scan, together
with what plans take over from it.
-/

namespace ComponentExtraction

open Fragment

namespace Component

/-- What can become of a handler that has a name. The first handler
of each name is forwarded, and the others give way to it. -/
inductive Fate where
  | forwarded
  | shadowed
  | repeated
deriving DecidableEq, Repr

namespace Fate

/-- Whether a handler under a name has a fate among the handlers of a fragment. -/
def Meets (t : Template) (handlers : List Handler) (h : Handler) (name : Text) : Fate → Prop
  | forwarded => (h, name) ∈ Component.forwarded handlers
  | shadowed => (h, name) ∈ Component.shadowed t handlers
  | repeated => ∃ kept, (kept, name) ∈ Component.forwarded handlers ∧
      kept.action.same h.action = false ∧ t.text kept.action = t.text h.action

def beside (t : Template) (kept h : Handler) : Fate :=
  if kept.action.same h.action then forwarded
  else if t.text kept.action = t.text h.action then repeated
  else shadowed

end Fate

variable {t : Template} {handlers : List Handler} {h kept other : Handler} {name : Text}

theorem forwarded_unique (member : (kept, name) ∈ forwarded handlers)
    (member' : (other, name) ∈ forwarded handlers) : other = kept := by
  rw [mem_forwarded_iff] at member member'
  exact Option.some.inj (member'.symm.trans member)

theorem exists_forwarded (member : h ∈ handlers) (named : h.name = some name) :
    ∃ kept, kept ∈ handlers ∧ (kept, name) ∈ forwarded handlers := by
  have passed : (handlers.find? fun other => other.name = some name).isSome = true := by
    rw [List.find?_isSome]
    exact ⟨h, member, by simpa using named⟩
  obtain ⟨kept, found⟩ := Option.isSome_iff_exists.mp passed
  exact ⟨kept, List.mem_of_find?_eq_some found, mem_forwarded_iff.mpr found⟩

theorem mem_shadowed_iff : (h, name) ∈ shadowed t handlers ↔ h ∈ handlers ∧ h.name = some name ∧
    ∃ kept, (kept, name) ∈ forwarded handlers ∧ kept.action.same h.action = false ∧
      t.text kept.action ≠ t.text h.action := by
  have entries : (h, name) ∈ handlers.filterMap named? ↔ h ∈ handlers ∧ h.name = some name := by
    rw [List.mem_filterMap]
    constructor
    · rintro ⟨h', member, entry_eq⟩
      obtain ⟨name', named, pair_eq⟩ := Option.map_eq_some_iff.mp entry_eq
      cases pair_eq
      exact ⟨member, named⟩
    · rintro ⟨member, named⟩
      exact ⟨h, member, by rw [named?, named]; rfl⟩
  rw [shadowed, List.mem_filter, entries, List.any_eq_true, and_assoc]
  refine and_congr_right fun _ => and_congr_right fun _ => ?_
  constructor
  · rintro ⟨⟨kept, name'⟩, member, differs⟩
    simp only [Bool.and_eq_true, beq_iff_eq, Bool.not_eq_true', bne_iff_ne] at differs
    obtain ⟨⟨rfl, apart⟩, texts⟩ := differs
    exact ⟨kept, member, apart, texts⟩
  · rintro ⟨kept, member, apart, texts⟩
    exact ⟨(kept, name), member, by simp [apart, texts]⟩

def Apart (handlers : List Handler) : Prop :=
  (handlers.map fun h => h.action.address).Nodup

theorem Apart.eq_of_same (apart : Apart handlers) (member : kept ∈ handlers)
    (member' : h ∈ handlers) (same : kept.action.same h.action = true) : kept = h :=
  List.inj_on_of_nodup_map apart member member' (eq_of_beq same)

/-- The fate of a handler is told by the forwarded handler of its name. -/
theorem Fate.meets_iff (apart : Apart handlers) (kept_member : kept ∈ handlers)
    (forwards : (kept, name) ∈ Component.forwarded handlers) (member : h ∈ handlers)
    (named : h.name = some name) (fate : Fate) :
    fate.Meets t handlers h name ↔ fate = beside t kept h := by
  have only : ∀ {P : Handler → Prop},
      (∃ other, (other, name) ∈ Component.forwarded handlers ∧ P other) ↔ P kept := by
    intro P
    constructor
    · rintro ⟨other, forwards', holds⟩
      rwa [forwarded_unique forwards forwards'] at holds
    · exact fun holds => ⟨kept, forwards, holds⟩
  have itself : (h, name) ∈ Component.forwarded handlers ↔ kept.action.same h.action = true := by
    constructor
    · intro forwards'
      rw [forwarded_unique forwards forwards']
      exact beq_self_eq_true kept.action.address
    · intro same
      rw [← apart.eq_of_same kept_member member same]
      exact forwards
  rw [beside]
  cases same : kept.action.same h.action with
  | true => cases fate <;> simp [Meets, itself, mem_shadowed_iff, only, same]
  | false =>
    by_cases texts : t.text kept.action = t.text h.action
    · cases fate <;> simp [Meets, itself, mem_shadowed_iff, only, same, texts]
    · cases fate <;> simp [Meets, itself, mem_shadowed_iff, only, same, texts, member, named]

/-- No handler with a name is lost: it has one of three fates. What is forwarded is the first
handler of each name, in the order of the fragment, and nothing forwarded is reported. -/
structure Accounted (t : Template) (handlers : List Handler) : Prop where
  fate : ∀ h ∈ handlers, ∀ name, h.name = some name →
    ∃! fate : Fate, fate.Meets t handlers h name
  distinct : ((forwarded handlers).map Prod.snd).Nodup
  first : ∀ h name, (h, name) ∈ forwarded handlers →
    handlers.find? (fun other => other.name = some name) = some h
  ordered : ((forwarded handlers).map Prod.fst).Sublist handlers
  reported : ∀ entry ∈ shadowed t handlers, entry ∉ forwarded handlers

theorem sublist_named (handlers : List Handler) :
    ((handlers.filterMap named?).map Prod.fst).Sublist handlers := by
  induction handlers with
  | nil => exact .slnil
  | cons h handlers ih =>
    rw [List.filterMap_cons, named?]
    cases h.name with
    | none => exact ih.cons h
    | some name => exact ih.cons_cons h

theorem Apart.accounted (apart : Apart handlers) (t : Template) : Accounted t handlers := by
  have told : ∀ h ∈ handlers, ∀ name, h.name = some name →
      ∃ fate : Fate, ∀ fate' : Fate, fate'.Meets t handlers h name ↔ fate' = fate := by
    intro h member name named
    obtain ⟨kept, kept_member, forwards⟩ := exists_forwarded member named
    exact ⟨_, Fate.meets_iff apart kept_member forwards member named⟩
  refine ⟨fun h member name named => ?_, Sequence.nodup_map_distinctBy _ _,
    fun h name => mem_forwarded_iff.mp, ?_, ?_⟩
  · obtain ⟨fate, meets_iff⟩ := told h member name named
    exact ⟨fate, (meets_iff fate).mpr rfl, fun fate' => (meets_iff fate').mp⟩
  · exact ((Sequence.distinctBy_sublist _ _).map Prod.fst).trans (sublist_named handlers)
  · rintro ⟨h, name⟩ reports forwards
    obtain ⟨member, named, -⟩ := mem_shadowed_iff.mp reports
    obtain ⟨fate, meets_iff⟩ := told h member name named
    have shadowed_eq := (meets_iff .shadowed).mp reports
    have forwarded_eq := (meets_iff .forwarded).mp forwards
    exact absurd (shadowed_eq.trans forwarded_eq.symm) (by decide)

theorem apart_scan (t : Template) (roots : List Occurrence) (host : Symbols.Table) :
    Apart (scan t roots host).handlers :=
  Sequence.nodup_map_distinctBy _ _

/-- A plan passes on some handlers under their names: these are its events, the tag handles
them behind the inputs, and the class declares them behind the inputs. -/
structure Passes (t : Template) (settings : Settings) (plan : Plan)
    (passed : List (Handler × Text)) : Prop where
  events : plan.events = passed.map Prod.snd
  tag : plan.invocationText = Markup.elementText plan.selector
    (plan.inputs.map inputAssignment ++ passed.map (eventAssignment t))
  class_ : Declares settings (members plan.inputs (passed.map Prod.snd)) plan.classText

theorem passes_of_ofRoots {roots : List Occurrence} {host : Symbols.Table} {settings : Settings}
    {plan : Plan} (planned : Extraction.ofRoots t roots name host settings = .ok plan) :
    Passes t settings plan (forwarded (scan t roots host).handlers) := by
  obtain ⟨accepted, span, -, -, isPlan⟩ := Extraction.ofRoots_eq_ok_iff.mp planned
  refine ⟨isPlan.events, ?_, ?_⟩
  · rw [isPlan.tag, isPlan.selector, isPlan.inputs]
    exact invocationTag_eq _ _ _ _
  · rw [isPlan.class_, isPlan.inputs]
    exact declares_classText _ _ _ _

/-- The handlers of every fragment are accounted for, and every plan made of the fragment
passes on those that are forwarded. -/
theorem accounted_scan (t : Template) (roots : List Occurrence) (host : Symbols.Table) :
    Accounted t (scan t roots host).handlers ∧
      ∀ name settings plan, Extraction.ofRoots t roots name host settings = .ok plan →
        Passes t settings plan (forwarded (scan t roots host).handlers) :=
  ⟨(apart_scan t roots host).accounted t, fun _ _ _ => passes_of_ofRoots⟩

/-- Four handlers under two names, one of which is shadowed and one repeated. -/
theorem accounted_scan_four : ∃ t root plan,
    t = (Markup.parse
      "<i (a)=\"f()\" (b)=\"g()\" (c)=\"f(1)\" (d)=\"f()\"></i>".toList []).template ∧
    t.follow? [0] = some root ∧
    Extraction.ofRoots t [root] ['A'] {} {} = .ok plan ∧ plan.events = [['f'], ['g']] ∧
    Passes t {} plan (forwarded (scan t [root] {}).handlers) ∧
    ∃ h ∈ (scan t [root] {}).handlers, h.name = some ['f'] ∧
      (∃! fate : Fate, fate.Meets t (scan t [root] {}).handlers h ['f']) ∧
      (h, ['f']) ∈ shadowed t (scan t [root] {}).handlers ∧
      (h, ['f']) ∉ forwarded (scan t [root] {}).handlers := by
  obtain ⟨t, t_eq⟩ : ∃ t, t = (Markup.parse
      "<i (a)=\"f()\" (b)=\"g()\" (c)=\"f(1)\" (d)=\"f()\"></i>".toList []).template := ⟨_, rfl⟩
  have passed : (t.follow? [0]).any (fun root =>
      (shadowed t (scan t [root] {}).handlers).any (fun entry => decide (entry.2 = ['f'])) &&
      (Extraction.ofRoots t [root] ['A'] {} {}).toOption.any fun plan =>
        decide (plan.events = [['f'], ['g']])) = true := by
    rw [t_eq]
    decide +kernel
  simp only [Option.any_eq_true, Bool.and_eq_true, List.any_eq_true, decide_eq_true_eq] at passed
  obtain ⟨root, found, ⟨⟨h, name⟩, reports, rfl⟩, plan, planned, events⟩ := passed
  obtain ⟨accounted, passes⟩ := accounted_scan t [root] {}
  obtain ⟨member, named, -⟩ := mem_shadowed_iff.mp reports
  have planned : Extraction.ofRoots t [root] ['A'] {} {} = .ok plan := by
    cases outcome : Extraction.ofRoots t [root] ['A'] {} {} with
    | error e =>
      rw [outcome] at planned
      cases planned
    | ok made =>
      rw [outcome] at planned
      exact congrArg Except.ok (Option.some.inj planned)
  exact ⟨t, root, plan, t_eq, found, planned, events, passes _ _ plan planned, h, member, named,
    accounted.fate h member _ named, reports, accounted.reported _ reports⟩

end Component

end ComponentExtraction
