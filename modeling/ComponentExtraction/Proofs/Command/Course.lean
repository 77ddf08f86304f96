import ComponentExtraction.Command.Perform
import ComponentExtraction.Proofs.Workspace.Store

/-!
# The course of a run

What a run of the command does to a store is told once here (`course_perform`).
Reading, asking and planning leave the store alone. Only then are texts written:
the class, the template of the component and the template of the host, in this
order, and the first write that fails is the last one tried. Whatever is claimed
of runs follows from this course.
-/

namespace ComponentExtraction

namespace Command

open Workspace

variable {α β ε : Type} {w w' : World} {readers : Readers}

abbrev Program (α : Type) :=
  ExceptT Failure (StateM World) α

/-- A program returns, and leaves a world, as described. There is
no program that does not return, so nothing is assumed here. -/
def Ends (program : Program α) (w : World) (Q : Except Failure α → World → Prop) : Prop :=
  Q (program.run.run w).1 (program.run.run w).2

namespace Ends

variable {P : Except Failure α → World → Prop} {Q : Except Failure β → World → Prop}

theorem pure {value : α} (h : P (.ok value) w) : Ends (Pure.pure value) w P :=
  h

theorem throw {failure : Failure} (h : P (.error failure) w) : Ends (MonadExcept.throw failure) w P :=
  h

theorem lift {action : StateM World α} (h : P (.ok (action.run w).1) (action.run w).2) :
    Ends (liftM action) w P :=
  h

/-- A program goes on after another one, unless that fails. -/
theorem bind {program : Program α} {next : α → Program β} (first : Ends program w P)
    (continues : ∀ value w', P (.ok value) w' → Ends (next value) w' Q)
    (fails : ∀ failure w', P (.error failure) w' → Q (.error failure) w') :
    Ends (program >>= next) w Q := by
  unfold Ends at *
  simp only [ExceptT.run_bind, StateT.run_bind]
  generalize program.run.run w = outcome at first
  obtain ⟨result, w'⟩ := outcome
  cases result with
  | ok value => exact continues value w' first
  | error failure => exact fails failure w' first

theorem mono {program : Program α} {P' : Except Failure α → World → Prop} (h : Ends program w P)
    (implies : ∀ result w', P result w' → P' result w') : Ends program w P' :=
  implies _ _ h

theorem orFail {failure : ε → Failure} {action : StateM World (Except ε α)}
    (succeeds : ∀ value, (action.run w).1 = .ok value → P (.ok value) (action.run w).2)
    (fails : ∀ problem, (action.run w).1 = .error problem →
      P (.error (failure problem)) (action.run w).2) :
    Ends (Command.orFail failure action) w P := by
  have performed : Ends (liftM action) w fun result w' =>
      result = .ok (action.run w).1 ∧ w' = (action.run w).2 :=
    lift ⟨rfl, rfl⟩
  refine performed.bind ?_ ?_
  · rintro value w' ⟨same, rfl⟩
    cases same
    cases returned : (action.run w).1 with
    | ok value => exact succeeds value returned
    | error problem => exact fails problem returned
  · rintro failure w' ⟨same, -⟩
    cases same

end Ends

def Failure.isRefusedWrite : Failure → Bool
  | .notWritten _ _ => true
  | .notUpdated _ _ => true
  | _ => false

/-- The files are as they were; what is returned is as described, and what fails
is not a write. -/
def Observed (w : World) (P : α → Prop) (result : Except Failure α) (w' : World) : Prop :=
  w'.store = w.store ∧
    match result with
    | .ok value => P value
    | .error failure => failure.isRefusedWrite = false

/-- A program that only observes goes on as one that only observes. -/
theorem Ends.observe {P : α → Prop} {R : β → Prop} {program : Program α} {next : α → Program β}
    (first : Ends program w (Observed w P))
    (continues : ∀ value w', w'.store = w.store → P value →
      Ends (next value) w' (Observed w' R)) :
    Ends (program >>= next) w (Observed w R) := by
  refine first.bind ?_ ?_
  · rintro value w' ⟨kept, described⟩
    refine (continues value w' kept described).mono ?_
    rintro result w'' ⟨kept', described'⟩
    exact ⟨kept'.trans kept, described'⟩
  · rintro failure w' ⟨kept, described⟩
    exact ⟨kept, described⟩

theorem observed_orFail {P : α → Prop} {failure : ε → Failure}
    {action : StateM World (Except ε α)} (kept : (action.run w).2.store = w.store)
    (described : ∀ value, (action.run w).1 = .ok value → P value)
    (other : ∀ problem, (failure problem).isRefusedWrite = false) :
    Ends (Command.orFail failure action) w (Observed w P) :=
  .orFail (fun value returned => ⟨kept, described value returned⟩)
    fun problem _ => ⟨kept, other problem⟩

theorem observed_of_kept {failure : ε → Failure} {action : StateM World (Except ε α)}
    (kept : (action.run w).2.store = w.store)
    (other : ∀ problem, (failure problem).isRefusedWrite = false) :
    Ends (Command.orFail failure action) w (Observed w fun _ => True) :=
  observed_orFail kept (fun _ _ => trivial) other

theorem observed_pure {P : α → Prop} {value : α} (h : P value) :
    Ends (Pure.pure value) w (Observed w P) :=
  .pure ⟨rfl, h⟩

theorem observed_throw {P : α → Prop} {failure : Failure}
    (other : failure.isRefusedWrite = false) :
    Ends (MonadExcept.throw failure) w (Observed w P) :=
  .throw ⟨rfl, other⟩

theorem observed_readSettings (path : Option Text) :
    Ends (readSettings readers World.access path) w (Observed w fun _ => True) := by
  cases path with
  | none => exact observed_pure trivial
  | some path =>
    apply (observed_of_kept (w.store_access_read path) fun _ => rfl).observe
    intro text w' _ (_ : True)
    split
    · exact observed_pure trivial
    · exact observed_throw rfl

theorem observed_readTable (path : Option Text) :
    Ends (readTable readers World.access path) w (Observed w fun _ => True) := by
  cases path with
  | none => exact observed_pure trivial
  | some path =>
    apply (observed_of_kept (w.store_access_read path) fun _ => rfl).observe
    intro text w' _ (_ : True)
    split
    · exact observed_pure trivial
    · exact observed_throw rfl

theorem store_siblingClass (settings : Component.Settings) (template : Text) :
    ((siblingClass World.access settings template).run w).2 = w := by
  unfold siblingClass
  split <;> rfl

def completedTable (readers : Readers) (table : Symbols.Table) (component : Option Text) :
    Program Symbols.Table :=
  match component with
  | none => Pure.pure table
  | some path => do
    let source ← Command.orFail (Failure.componentUnreadable path) (World.access.read path)
    Pure.pure (table.extend (readers.hostClass source))

theorem observed_readSymbols (options : Options) (settings : Component.Settings) :
    Ends (readSymbols readers World.access options settings) w (Observed w fun _ => True) := by
  unfold readSymbols
  refine (observed_readTable options.symbols).observe ?_
  intro table w₁ _ (_ : True)
  have completed : ∀ (component : Option Text) (w₂ : World),
      Ends (completedTable readers table component) w₂ (Observed w₂ fun _ => True) := by
    intro component w₂
    cases component with
    | none => exact observed_pure trivial
    | some path =>
      refine (observed_of_kept (w₂.store_access_read path) fun _ => rfl).observe ?_
      intro source w₃ _ (_ : True)
      exact observed_pure trivial
  dsimp only
  split
  · next path _ =>
    have given : Ends (Pure.pure (some path)) w₁ (Observed w₁ fun _ => True) := observed_pure trivial
    exact given.observe fun component w₂ _ _ => completed component w₂
  · have sought : Ends (liftM (siblingClass World.access settings options.template)) w₁
        (Observed w₁ fun _ => True) :=
      .lift ⟨congrArg World.store (store_siblingClass settings options.template), trivial⟩
    exact sought.observe fun component w₂ _ _ => completed component w₂

theorem observed_read (path : Text) {failure : FileProblem → Failure}
    (other : ∀ problem, (failure problem).isRefusedWrite = false) :
    Ends (Command.orFail failure (World.access.read path)) w
      (Observed w fun text => w.store.read path = .ok text) :=
  observed_orFail (w.store_access_read path) (fun _ => World.read_of_access_read) other

theorem observed_draft (options : Options) :
    Ends (draft readers World.access options) w (Observed w fun d =>
      w.store.read options.template = .ok d.source) := by
  unfold draft
  refine (observed_readSettings options.config).observe ?_
  intro settings w₁ kept₁ (_ : True)
  refine (observed_read options.template fun _ => rfl).observe ?_
  intro source w₂ kept₂ source_eq
  rw [kept₁] at source_eq
  refine (observed_readSymbols options settings).observe ?_
  intro host w₃ _ (_ : True)
  refine (observed_of_kept rfl fun _ => rfl).observe ?_
  rintro ⟨start, stop⟩ w₄ _ (_ : True)
  have finished : ∀ w₅ : World, Ends (Pure.pure ⟨source, start, stop, host, settings⟩) w₅
      (Observed w₅ fun d : Draft => w.store.read options.template = .ok d.source) :=
    fun w₅ => observed_pure source_eq
  dsimp only
  split
  · refine (observed_of_kept (w₄.store_access_isReadOnly options.template) fun _ => rfl).observe ?_
    intro readOnly w₅ _ (_ : True)
    split
    · exact observed_throw rfl
    · exact finished w₅
  · exact finished w₄

/-- Asking for a name leaves the files alone, at whichever step it fails. -/
theorem observed_chooseName (name : Option Text) :
    Ends (chooseName World.access name) w (Observed w fun _ => True) := by
  cases name with
  | some name => exact observed_pure trivial
  | none =>
    refine (observed_of_kept (w.store_access_put _) fun _ => rfl).observe ?_
    intro shown w₁ _ (_ : True)
    refine (observed_of_kept w₁.store_access_flush fun _ => rfl).observe ?_
    intro flushed w₂ _ (_ : True)
    refine (observed_of_kept w₂.store_access_readLine fun _ => rfl).observe ?_
    intro answer w₃ _ (_ : True)
    exact observed_pure trivial

def Options.classFile (options : Options) (plan : Plan) : Text :=
  Path.join (Path.parent options.template) plan.classFileName

def Options.templateFile (options : Options) (plan : Plan) : Text :=
  Path.join (Path.parent options.template) plan.templateFileName

/-- How far the writes of a plan get: to none of its files, to one of them,
to two, or to all three. What was written before a failure stays. -/
inductive Writes (options : Options) (plan : Plan) (updated : Text) (s : Store) :
    Except Failure Outcome → Store → Prop
  | noClass (problem : FileProblem) :
      Writes options plan updated s (.error (.notWritten (options.classFile plan) problem)) s
  | noTemplate {s₁ : Store} (problem : FileProblem)
      (first : s.write (options.classFile plan) plan.classText = .ok s₁) :
      Writes options plan updated s (.error (.notWritten (options.templateFile plan) problem)) s₁
  | noUpdate {s₁ s₂ : Store} (problem : FileProblem)
      (first : s.write (options.classFile plan) plan.classText = .ok s₁)
      (second : s₁.write (options.templateFile plan) plan.templateText = .ok s₂) :
      Writes options plan updated s (.error (.notUpdated options.template problem)) s₂
  | all {s₁ s₂ s₃ : Store} (first : s.write (options.classFile plan) plan.classText = .ok s₁)
      (second : s₁.write (options.templateFile plan) plan.templateText = .ok s₂)
      (third : s₂.write options.template updated = .ok s₃) :
      Writes options plan updated s
        (.ok (.written plan (options.classFile plan) (options.templateFile plan))) s₃

def keepsFiles : Except Failure Outcome → Bool
  | .ok .cancelled => true
  | .ok (.planned _) => true
  | .ok (.written _ _ _) => false
  | .error failure => !failure.isRefusedWrite

/-- What a run can do to a store: leave it alone, or try to write a plan that can
be applied to the template. Without force the files of the plan are new. -/
inductive Course (options : Options) (s : Store) : Except Failure Outcome → Store → Prop
  | kept {result : Except Failure Outcome} (keeps : keepsFiles result = true) :
      Course options s result s
  | tried {result : Except Failure Outcome} {s' : Store} {plan : Plan} {source updated : Text}
      (read : s.read options.template = .ok source) (applied : plan.applyTo? source = some updated)
      (fresh : options.isForced = false →
        s.isPresent (options.classFile plan) = false ∧
          s.isPresent (options.templateFile plan) = false)
      (writes : Writes options plan updated s result s') :
      Course options s result s'

theorem Course.failed {options : Options} {s s' : Store} {failure : Failure} (kept : s' = s)
    (other : failure.isRefusedWrite = false) : Course options s (.error failure) s' := by
  rw [kept]
  refine .kept ?_
  rw [keepsFiles, other]
  rfl

theorem observed_refusePresent (paths : List Text) :
    Ends (refusePresent World.access paths) w (Observed w fun _ =>
      ∀ path ∈ paths, w.store.isPresent path = false) := by
  induction paths generalizing w with
  | nil => exact observed_pure (by simp)
  | cons path paths ih =>
    have asked : Ends (liftM (World.access.isPresent path)) w
        (Observed w fun present => present = w.store.isPresent path) :=
      .lift ⟨rfl, rfl⟩
    refine asked.observe ?_
    rintro present w' kept rfl
    split
    · exact observed_throw rfl
    · next absent =>
      refine (ih (w := w')).mono ?_
      rintro result w'' ⟨kept', described⟩
      refine ⟨kept', ?_⟩
      cases result with
      | error failure => exact described
      | ok =>
        rw [kept] at described
        exact List.forall_mem_cons.mpr ⟨by simpa using absent, described⟩

/-- A write that is reported changed the store; one that failed did not. -/
theorem ends_write {failure : FileProblem → Failure} {path text : Text} :
    Ends (Command.orFail failure (World.access.write path text)) w fun result w' =>
      match result with
      | .ok () => w.store.write path text = .ok w'.store
      | .error problem => w'.store = w.store ∧ ∃ cause, problem = failure cause := by
  refine .orFail ?_ ?_
  · rintro ⟨⟩ done
    exact World.write_store_of_ok done
  · intro problem failed
    exact ⟨World.store_write_of_error failed, problem, rfl⟩

def writeFiles (options : Options) (plan : Plan) (updated : Text) : Program Outcome := do
  Command.orFail (Failure.notWritten (options.classFile plan))
    (World.access.write (options.classFile plan) plan.classText)
  Command.orFail (Failure.notWritten (options.templateFile plan))
    (World.access.write (options.templateFile plan) plan.templateText)
  Command.orFail (Failure.notUpdated options.template)
    (World.access.write options.template updated)
  return .written plan (options.classFile plan) (options.templateFile plan)

theorem ends_writeFiles {options : Options} {plan : Plan} {updated : Text} :
    Ends (writeFiles options plan updated) w
      fun result w' => Writes options plan updated w.store result w'.store := by
  refine ends_write.bind ?_ ?_
  · rintro ⟨⟩ w₁ first
    refine ends_write.bind ?_ ?_
    · rintro ⟨⟩ w₂ second
      refine ends_write.bind ?_ ?_
      · rintro ⟨⟩ w₃ third
        exact .pure (.all first second third)
      · rintro failure w₃ ⟨kept, problem, rfl⟩
        rw [kept]
        exact .noUpdate problem first second
    · rintro failure w₂ ⟨kept, problem, rfl⟩
      rw [kept]
      exact .noTemplate problem first
  · rintro failure w₁ ⟨kept, problem, rfl⟩
    rw [kept]
    exact .noClass problem

/-- The three writes of a plan, when its edit fits the text of the template. -/
def updateFiles (options : Options) (source : Text) (plan : Plan) : Program Outcome :=
  match plan.applyTo? source with
  | none => MonadExcept.throw (.extraction .cutInsideCharacter)
  | some updated => writeFiles options plan updated

theorem course_writePlan {options : Options} {plan : Plan} {source : Text}
    (read : w.store.read options.template = .ok source) :
    Ends (writePlan World.access options source plan) w fun result w' =>
      Course options w.store result w'.store := by
  have writing : ∀ w₁ : World, w₁.store = w.store →
      (options.isForced = false → w.store.isPresent (options.classFile plan) = false ∧
        w.store.isPresent (options.templateFile plan) = false) →
      Ends (updateFiles options source plan) w₁
        fun result w' => Course options w.store result w'.store := by
    intro w₁ kept fresh
    unfold updateFiles
    cases applied : plan.applyTo? source with
    | none =>
      refine .throw ?_
      rw [kept]
      exact .kept rfl
    | some updated =>
      refine ends_writeFiles.mono fun result w' writes => ?_
      rw [kept] at writes
      exact .tried read applied fresh writes
  unfold writePlan
  dsimp only
  split
  · refine (observed_refusePresent _).bind ?_ ?_
    · rintro ⟨⟩ w₁ ⟨kept, absent⟩
      refine writing w₁ kept fun _ => ?_
      exact ⟨absent _ List.mem_cons_self, absent _ (List.mem_cons_of_mem _ List.mem_cons_self)⟩
    · rintro failure w₁ ⟨kept, other⟩
      exact .failed kept other
  · next forced => exact writing w rfl fun unforced => absurd unforced (by simpa using forced)

def performIn (readers : Readers) (w : World) (options : Options) :
    Except Failure Outcome × World :=
  (perform readers World.access options).run.run w

/-- Every run of the command takes its course, whatever its readers
make of the files and whatever the operating system refuses. -/
theorem course_perform (readers : Readers) (w : World) (options : Options) :
    Course options w.store (performIn readers w options).1
      (performIn readers w options).2.store := by
  have course : Ends (perform readers World.access options) w fun result w' =>
      Course options w.store result w'.store := by
    unfold perform
    refine (observed_draft options).bind ?_ ?_
    · rintro d w₁ ⟨kept, read⟩
      refine (observed_chooseName options.name).bind ?_ ?_
      · rintro answer w₂ ⟨kept', -⟩
        rw [← kept, ← kept'] at read ⊢
        split
        · exact .pure (.kept rfl)
        · refine (observed_of_kept rfl fun _ => rfl : Ends _ w₂ (Observed w₂ fun _ => True)).bind
            ?_ ?_
          · rintro plan w₃ ⟨kept'', -⟩
            rw [← kept''] at read ⊢
            split
            · exact .pure (.kept rfl)
            · exact course_writePlan read
          · rintro failure w₃ ⟨kept'', other⟩
            exact .failed kept'' other
      · rintro failure w₂ ⟨kept', other⟩
        exact .failed (kept'.trans kept) other
    · rintro failure w₁ ⟨kept, other⟩
      exact .failed kept other
  exact course

end Command

end ComponentExtraction
