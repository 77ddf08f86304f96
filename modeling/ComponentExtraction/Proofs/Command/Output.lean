import ComponentExtraction.Command.Report
import ComponentExtraction.Proofs.Command.Course

/-!
# What a run leaves in the files

Without force a run damages nothing that exists (`unforced_preserves`): it only
adds files and, as its last step, changes the template. A run that reports its
files as written has written all texts, but one text can be written over another:
`written_complete_iff` says that this is so exactly when two of the paths lead to
one place and the texts written there differ. The places are checked for files
that exist, and not against each other.
-/

namespace ComponentExtraction

namespace Command

open Workspace

variable {options : Options} {plan : Plan} {classFile templateFile : Text}
variable {s s₁ s₂ s' : Store} {result : Except Failure Outcome}
variable {location : Workspace.Location} {file : File}

/-- A run spares what is there: files that existed are as they
were, except for a template whose extraction has been written. -/
structure Spares (options : Options) (s : Store) (result : Except Failure Outcome) (s' : Store) :
    Prop where
  others : ∀ location file, s.file? location = some file →
    s.resolve options.template ≠ .ok location → s'.file? location = some file
  /-- The template is changed by a run that has written everything, and by no
  other. -/
  template : (∃ plan classFile templateFile, result = .ok (.written plan classFile templateFile)) ∨
    s'.lookup options.template = s.lookup options.template
  last : ∀ plan classFile templateFile, result = .ok (.written plan classFile templateFile) →
    ∃ old new s₁ s₂, s.read options.template = .ok old ∧ plan.applyTo? old = some new ∧
      s.write classFile plan.classText = .ok s₁ ∧ s₁.write templateFile plan.templateText = .ok s₂ ∧
      s₂.lookup options.template = s.lookup options.template ∧
      s₂.write options.template new = .ok s' ∧ s'.read options.template = .ok new
  kept : keepsFiles result = true → s' = s
  ways : s.SameWays s'

/-- A file that is there is not written to by way of an absent path. -/
theorem file?_write_of_absent {path text : Text} (absent : s.isPresent path = false)
    (same : s.SameWays s₁) (done : s₁.write path text = .ok s₂) (there : s.file? location = some file) :
    s₂.file? location = s₁.file? location := by
  obtain ⟨place, resolved, put⟩ := Store.puts_of_write done
  refine put.file?_of_ne ?_
  rintro rfl
  have nothing := Store.file?_of_absent absent ((same _ location).mp resolved)
  exact absurd (there.symm.trans nothing) (by simp)

/-- The files of a plan are new, so writing them keeps the files that are there. -/
theorem file?_of_fresh
    (fresh : s.isPresent classFile = false ∧ s.isPresent templateFile = false)
    (first : s.write classFile plan.classText = .ok s₁)
    (there : s.file? location = some file) :
    s₁.file? location = some file ∧ ∀ s₂, s₁.write templateFile plan.templateText = .ok s₂ →
      s₂.file? location = some file := by
  have after_first := file?_write_of_absent fresh.1 (fun _ _ => Iff.rfl) first there
  rw [there] at after_first
  refine ⟨after_first, fun s₂ second => ?_⟩
  rw [file?_write_of_absent fresh.2 (Store.sameWays_write first) second there, after_first]

theorem lookup_eq_of_file? (same : s.SameWays s') (found : s.lookup options.template = .ok file)
    (kept : ∀ place, s.file? place = some file → s'.file? place = some file) :
    s'.lookup options.template = s.lookup options.template := by
  obtain ⟨place, resolved, there⟩ := Store.of_lookup found
  rw [found]
  exact Store.lookup_of_file? ((same _ place).mpr resolved) (kept place there)

theorem spares_of_course (unforced : options.isForced = false)
    (course : Course options s result s') : Spares options s result s' := by
  cases course with
  | kept keeps =>
    refine ⟨fun _ _ there _ => there, .inr rfl, ?_, fun _ => rfl, fun _ _ => Iff.rfl⟩
    rintro plan classFile templateFile rfl
    exact absurd keeps (by simp [keepsFiles])
  | tried read applied fresh writes =>
    have fresh := fresh unforced
    have found : ∃ file, s.lookup options.template = .ok file := by
      obtain ⟨place, file, resolved, there, -⟩ := Store.of_read read
      exact ⟨file, Store.lookup_of_file? resolved there⟩
    obtain ⟨file, found⟩ := found
    cases writes with
    | noClass problem =>
      exact ⟨fun _ _ there _ => there, .inr rfl, by simp, fun _ => rfl, fun _ _ => Iff.rfl⟩
    | noTemplate problem first =>
      refine ⟨fun _ _ there _ => (file?_of_fresh fresh first there).1, .inr ?_, by simp,
        fun keeps => absurd keeps (by simp [keepsFiles, Failure.isRefusedWrite]),
        Store.sameWays_write first⟩
      exact lookup_eq_of_file? (Store.sameWays_write first) found
        fun _ there => (file?_of_fresh fresh first there).1
    | noUpdate problem first second =>
      have same := (Store.sameWays_write first).trans (Store.sameWays_write second)
      refine ⟨fun _ _ there _ => (file?_of_fresh fresh first there).2 _ second, .inr ?_, by simp,
        fun keeps => absurd keeps (by simp [keepsFiles, Failure.isRefusedWrite]), same⟩
      exact lookup_eq_of_file? same found
        fun _ there => (file?_of_fresh fresh first there).2 _ second
    | all first second third =>
      have same := (Store.sameWays_write first).trans (Store.sameWays_write second)
      obtain ⟨place, resolved, put⟩ := Store.puts_of_write third
      refine ⟨?_, .inl ⟨_, _, _, rfl⟩, ?_, fun keeps => absurd keeps (by simp [keepsFiles]),
        same.trans (Store.sameWays_write third)⟩
      · intro location file there other
        rw [put.file?_of_ne]
        · exact (file?_of_fresh fresh first there).2 _ second
        · rintro rfl
          exact other ((same _ location).mp resolved)
      · intro plan' classFile' templateFile' result_eq
        cases result_eq
        obtain ⟨written, there, holds⟩ := put.file?_self
        refine ⟨_, _, _, _, read, applied, first, second, ?_, third, ?_⟩
        · exact lookup_eq_of_file? same found
            fun _ there => (file?_of_fresh fresh first there).2 _ second
        · exact Store.read_of_file? (put.resolve_iff.mpr resolved) there holds

/-- Without force nothing that exists is damaged, whatever the files are and say,
however the run ends, and whichever operation is refused. -/
theorem unforced_preserves (readers : Readers) (w : World) (options : Options)
    (unforced : options.isForced = false) :
    Spares options w.store (performIn readers w options).1
      (performIn readers w options).2.store :=
  spares_of_course unforced (course_perform readers w options)

/-- The run that turns the whole template in `/work` into the component `A`. It is
started in another directory. -/
def wholeRun (template : Text) : World × Options :=
  ({ store := {
      start := ["home".toList]
      files := [(["work".toList, "t.html".toList], ⟨.text "<i></i>".toList, false⟩)] } },
    ⟨template, .offsets 0 7, some ['A'], none, none, none, false, false⟩)

def writesWith (run : World × Options) (test : Plan → Text → Text → Store → Bool) : Bool :=
  match performIn Readers.standard run.1 run.2 with
  | (.ok (.written plan classFile templateFile), w) => test plan classFile templateFile w.store
  | _ => false

theorem exists_written {run : World × Options} {test : Plan → Text → Text → Store → Bool}
    (passed : writesWith run test = true) : ∃ plan classFile templateFile,
    (performIn Readers.standard run.1 run.2).1 = .ok (.written plan classFile templateFile) ∧
      test plan classFile templateFile (performIn Readers.standard run.1 run.2).2.store = true := by
  unfold writesWith at passed
  split at passed
  · next plan classFile templateFile w outcome =>
    rw [outcome]
    exact ⟨plan, classFile, templateFile, rfl, passed⟩
  · exact absurd passed (by simp)

/-- A run without force on an absolute path that writes its three files. -/
theorem unforced_preserves_template : ∃ run plan classFile templateFile,
    run = wholeRun "/work/t.html".toList ∧ run.2.isForced = false ∧
    (performIn Readers.standard run.1 run.2).1 = .ok (.written plan classFile templateFile) ∧
    Spares run.2 run.1.store (performIn Readers.standard run.1 run.2).1
      (performIn Readers.standard run.1 run.2).2.store := by
  have passed : writesWith (wholeRun "/work/t.html".toList) (fun _ _ _ _ => true) = true := by
    decide +kernel
  obtain ⟨plan, classFile, templateFile, written, -⟩ := exists_written passed
  refine ⟨_, plan, classFile, templateFile, rfl, rfl, written, ?_⟩
  exact unforced_preserves Readers.standard _ _ rfl

/-- The files of a plan and the template hold their texts, no other file has changed,
and all paths lead to where they led. -/
structure Complete (options : Options) (s : Store) (plan : Plan) (classFile templateFile : Text)
    (s' : Store) : Prop where
  classText : s'.read classFile = .ok plan.classText
  templateText : s'.read templateFile = .ok plan.templateText
  source : ∃ old new, s.read options.template = .ok old ∧ plan.applyTo? old = some new ∧
    s'.read options.template = .ok new
  others : ∀ location, s.resolve classFile ≠ .ok location → s.resolve templateFile ≠ .ok location →
    s.resolve options.template ≠ .ok location → s'.file? location = s.file? location
  ways : s.SameWays s'

/-- Two paths lead to one place of a store, which need not hold a file. Paths that
are written differently may meet. -/
def Meet (s : Store) (path other : Text) : Prop :=
  ∃ location, s.resolve path = .ok location ∧ s.resolve other = .ok location

theorem meet_iff {path other : Text} {a b : Workspace.Location} (here : s.resolve path = .ok a)
    (there : s.resolve other = .ok b) : Meet s path other ↔ a = b := by
  simp only [Meet, here, there, Except.ok.injEq, exists_eq_left']
  exact eq_comm

theorem read_iff_of_resolve {path text : Text} (found : s.resolve path = .ok location) :
    s.read path = .ok text ↔ (s.file? location).map File.content = some (.text text) := by
  constructor
  · intro read
    obtain ⟨place, file, resolved, there, holds⟩ := Store.of_read read
    cases found.symm.trans resolved
    rw [there, Option.map_some, holds]
  · intro text_there
    obtain ⟨file, there, holds⟩ := Option.map_eq_some_iff.mp text_there
    exact Store.read_of_file? found there holds

theorem content_of_puts {text : Text} {a : Workspace.Location} (put : s.Puts a text s')
    (location : Workspace.Location) : (s'.file? location).map File.content =
      if location = a then some (.text text) else (s.file? location).map File.content := by
  by_cases same : location = a
  · obtain ⟨file, there, holds⟩ := put.file?_self
    rw [if_pos same, same, there, Option.map_some, holds]
  · rw [if_neg same, put.file?_of_ne same]

/-- Three writes keep their texts exactly when no place is written to twice, or
only with one text. -/
theorem complete_iff_of_writes {old new : Text} (read : s.read options.template = .ok old)
    (applied : plan.applyTo? old = some new) (first : s.write classFile plan.classText = .ok s₁)
    (second : s₁.write templateFile plan.templateText = .ok s₂)
    (third : s₂.write options.template new = .ok s') :
    Complete options s plan classFile templateFile s' ↔
      (Meet s classFile templateFile → plan.classText = plan.templateText) ∧
        (Meet s classFile options.template → plan.classText = new) ∧
        (Meet s templateFile options.template → plan.templateText = new) := by
  obtain ⟨a, class_at, put_class⟩ := Store.puts_of_write first
  obtain ⟨b, template_at, put_template⟩ := Store.puts_of_write second
  obtain ⟨c, source_at, put_source⟩ := Store.puts_of_write third
  have same_first := Store.sameWays_write first
  have same_second := same_first.trans (Store.sameWays_write second)
  have same_third := same_second.trans (Store.sameWays_write third)
  rw [same_first] at template_at
  rw [same_second] at source_at
  rw [meet_iff class_at template_at, meet_iff class_at source_at, meet_iff template_at source_at]
  have class_iff : s'.read classFile = .ok plan.classText ↔ _ :=
    read_iff_of_resolve ((same_third _ a).mpr class_at)
  have template_iff : s'.read templateFile = .ok plan.templateText ↔ _ :=
    read_iff_of_resolve ((same_third _ b).mpr template_at)
  simp only [content_of_puts put_source, content_of_puts put_template, content_of_puts put_class]
    at class_iff template_iff
  constructor
  · intro complete
    have class_read := class_iff.mp complete.classText
    have template_read := template_iff.mp complete.templateText
    grind
  · rintro ⟨files_agree, class_agrees, template_agrees⟩
    refine ⟨class_iff.mpr ?_, template_iff.mpr ?_, ⟨old, new, read, applied, ?_⟩, ?_,
      same_third⟩
    · grind
    · grind
    · rw [read_iff_of_resolve ((same_third _ c).mpr source_at), content_of_puts put_source,
        if_pos rfl]
    · intro location not_class not_template not_source
      have not_c : location ≠ c := fun same => not_source (same ▸ source_at)
      have not_b : location ≠ b := fun same => not_template (same ▸ template_at)
      have not_a : location ≠ a := fun same => not_class (same ▸ class_at)
      rw [put_source.file?_of_ne not_c, put_template.file?_of_ne not_b, put_class.file?_of_ne not_a]

/-- A path to nothing does not lead to where a file is. -/
theorem not_meet_of_absent {path other text : Text} (absent : s.isPresent path = false)
    (read : s.read other = .ok text) : ¬Meet s path other := by
  rintro ⟨location, here, there⟩
  have nothing := Store.file?_of_absent absent here
  rw [read_iff_of_resolve there, nothing] at read
  exact absurd read (by simp)

/-- A run that reports its files as written has written everything, exactly when
no two of its three paths lead to one place where different texts belong. Without
force the files of the plan are not the template, but they can be one file. -/
theorem written_complete_iff (readers : Readers) (w : World) (options : Options) {plan : Plan}
    {classFile templateFile : Text}
    (written : (performIn readers w options).1 = .ok (.written plan classFile templateFile)) :
    ∃ old new, w.store.read options.template = .ok old ∧ plan.applyTo? old = some new ∧
      (Complete options w.store plan classFile templateFile
          (performIn readers w options).2.store ↔
        (Meet w.store classFile templateFile → plan.classText = plan.templateText) ∧
          (Meet w.store classFile options.template → plan.classText = new) ∧
          (Meet w.store templateFile options.template → plan.templateText = new)) ∧
      (options.isForced = false → ¬Meet w.store classFile options.template ∧
        ¬Meet w.store templateFile options.template) := by
  have course := course_perform readers w options
  rw [written] at course
  generalize (performIn readers w options).2.store = s' at course
  cases course with
  | kept keeps => exact absurd keeps (by simp [keepsFiles])
  | tried read applied fresh writes =>
    cases writes with
    | all first second third =>
      refine ⟨_, _, read, applied, complete_iff_of_writes read applied first second third, ?_⟩
      intro unforced
      exact ⟨not_meet_of_absent (fresh unforced).1 read, not_meet_of_absent (fresh unforced).2 read⟩

def leadApart (s : Store) (path other : Text) : Bool :=
  match s.resolve path, s.resolve other with
  | .ok a, .ok b => a != b
  | _, _ => false

/-- A run whose three paths lead to three places, out of the current directory. -/
theorem written_complete_template : ∃ run plan classFile templateFile,
    run = wholeRun "../work/t.html".toList ∧
    (performIn Readers.standard run.1 run.2).1 = .ok (.written plan classFile templateFile) ∧
    Complete run.2 run.1.store plan classFile templateFile
      (performIn Readers.standard run.1 run.2).2.store := by
  have passed : writesWith (wholeRun "../work/t.html".toList) (fun _ classFile templateFile _ =>
      leadApart (wholeRun []).1.store classFile templateFile) = true := by
    decide +kernel
  obtain ⟨plan, classFile, templateFile, written, different⟩ := exists_written passed
  obtain ⟨old, new, -, -, complete_iff, unforced⟩ :=
    written_complete_iff Readers.standard _ _ written
  refine ⟨_, plan, classFile, templateFile, rfl, written, complete_iff.mpr ⟨?_, ?_, ?_⟩⟩
  · rintro ⟨location, here, there⟩
    rw [leadApart] at different
    change (wholeRun []).1.store.resolve classFile = _ at here
    change (wholeRun []).1.store.resolve templateFile = _ at there
    simp [here, there] at different
  · exact fun meet => absurd meet (unforced rfl).1
  · exact fun meet => absurd meet (unforced rfl).2

/-- A run with settings that end the names of both files in the same way, so that
both are written to one place. -/
def runWithOneSuffix : World × Options :=
  ({ store := { files := [
      (["workspace".toList, "t.html".toList], ⟨.text "<i></i>".toList, false⟩),
      (["workspace".toList, "c.json".toList],
        ⟨.text "\x7b\"classFileSuffix\":\".component.html\"\x7d".toList, false⟩)] } },
    ⟨"t.html".toList, .offsets 0 7, some ['A'], none, none, some "c.json".toList, false, false⟩)

theorem not_complete_of_read {text : Text} (found : s'.read classFile = .ok text)
    (different : text ≠ plan.classText) : ¬Complete options s plan classFile templateFile s' := by
  intro complete
  exact different (Except.ok.inj (found.symm.trans complete.classText))

/-- The template of the component is written over its class, without a word. -/
theorem written_not_complete_one_suffix : ∃ run plan classFile templateFile,
    run = runWithOneSuffix ∧
    (performIn Readers.standard run.1 run.2).1 = .ok (.written plan classFile templateFile) ∧
    ¬Complete run.2 run.1.store plan classFile templateFile
      (performIn Readers.standard run.1 run.2).2.store := by
  have passed : writesWith runWithOneSuffix (fun plan classFile _ s =>
      match s.read classFile with
      | .ok text => text != plan.classText
      | .error _ => false) = true := by
    decide +kernel
  obtain ⟨plan, classFile, templateFile, written, lost⟩ := exists_written passed
  refine ⟨_, plan, classFile, templateFile, rfl, written, ?_⟩
  split at lost
  · next text found => exact not_complete_of_read found (by simpa using lost)
  · exact absurd lost (by simp)

end Command

end ComponentExtraction
