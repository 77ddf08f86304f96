import ComponentExtraction.Workspace.Store

/-!
# Access to files and to the user

What a program does to its surroundings, apart from how that happens: files are
read, asked about and written, a text is shown to the user, and a line is read
from the user. A world is one such surrounding, described by values. Every
operation on it that reports problems can be refused for any reason.
-/

namespace ComponentExtraction

namespace Workspace

/-- The operations on the surroundings of a program. A question whether there is a
file has an answer even if nothing can be found out. -/
structure Access (m : Type → Type) where
  read : Text → m (Except FileProblem Text)
  isFile : Text → m Bool
  isPresent : Text → m Bool
  isReadOnly : Text → m (Except FileProblem Bool)
  write : Text → Text → m (Except FileProblem Unit)
  /-- Pass a text on to the user. It may be kept back until `flush`. -/
  put : Text → m (Except FileProblem Unit)
  flush : m (Except FileProblem Unit)
  readLine : m (Except FileProblem Text)

/-- Files, and a user whose answers are known beforehand. Every operation that can
fail takes its answer from `refusals` first, so each of them may be refused. -/
structure World where
  store : Store
  /-- What the operating system answers to the coming operations, one after the
  other; without an entry it lets them pass. -/
  refusals : List (Option FileProblem) := []
  input : Text := []
  shown : Text := []

namespace World

def splitLine : Text → Text × Text
  | [] => ([], [])
  | c :: cs => if c = '\n' then ([c], cs) else (c :: (splitLine cs).1, (splitLine cs).2)

def refusal? (w : World) : Option FileProblem :=
  w.refusals.head?.join

def later (w : World) : World :=
  { w with refusals := w.refusals.tail }

/-- Try an operation with a known result and a known effect. A refused one has no
effect, and so has one that fails. -/
def attempt {α : Type} (w : World) (result : Except FileProblem α) (effect : α → World → World) :
    Except FileProblem α × World :=
  match w.refusal?, result with
  | some problem, _ => (.error problem, w.later)
  | none, .error problem => (.error problem, w.later)
  | none, .ok value => (.ok value, effect value w.later)

section

variable {α : Type} {w : World} {result : Except FileProblem α} {effect : α → World → World}

theorem attempt_of_ok {value : α} (done : (w.attempt result effect).1 = .ok value) :
    result = .ok value ∧ (w.attempt result effect).2 = effect value w.later := by
  unfold attempt at *
  split at done
  · cases done
  · cases done
  · cases done
    constructor
    · rfl
    · rfl

theorem attempt_of_error {problem : FileProblem}
    (failed : (w.attempt result effect).1 = .error problem) :
    (w.attempt result effect).2 = w.later := by
  unfold attempt at *
  split at failed
  · rfl
  · rfl
  · cases failed

end

def observe {α : Type} (w : World) (result : Except FileProblem α) :
    Except FileProblem α × World :=
  w.attempt result fun _ later => later

theorem store_observe {α : Type} (w : World) (result : Except FileProblem α) :
    (w.observe result).2.store = w.store := by
  cases observed : (w.observe result).1 with
  | ok value =>
    rw [observe, (attempt_of_ok observed).2]
    rfl
  | error problem =>
    rw [observe, attempt_of_error observed]
    rfl

def write (w : World) (path text : Text) : Except FileProblem Unit × World :=
  let attempted := w.attempt (w.store.write path text) fun store later => { later with store }
  (attempted.1.map fun _ => (), attempted.2)

theorem store_write_of_error {path text : Text} {w : World} {problem : FileProblem}
    (failed : (w.write path text).1 = .error problem) : (w.write path text).2.store = w.store := by
  unfold write at *
  dsimp only at *
  cases attempted : (w.attempt (w.store.write path text) fun store later => { later with store }).1 with
  | ok store =>
    rw [attempted] at failed
    cases failed
  | error problem =>
    rw [attempt_of_error attempted]
    rfl

theorem write_store_of_ok {path text : Text} {w : World}
    (done : (w.write path text).1 = .ok ()) :
    w.store.write path text = .ok (w.write path text).2.store := by
  unfold write at *
  dsimp only at *
  cases attempted : (w.attempt (w.store.write path text) fun store later => { later with store }).1 with
  | ok store =>
    obtain ⟨written, after⟩ := attempt_of_ok attempted
    rw [after]
    exact written
  | error problem =>
    rw [attempted] at done
    cases done

def put (w : World) (text : Text) : Except FileProblem Unit × World :=
  w.attempt (.ok ()) fun _ later => { later with shown := later.shown ++ text }

theorem store_put (w : World) (text : Text) : (w.put text).2.store = w.store := by
  unfold put attempt
  split <;> rfl

def readLine (w : World) : Except FileProblem Text × World :=
  w.attempt (.ok (splitLine w.input).1) fun _ later => { later with input := (splitLine w.input).2 }

theorem store_readLine (w : World) : w.readLine.2.store = w.store := by
  unfold readLine attempt
  split <;> rfl

def access : Access (StateM World) where
  read path := modifyGet fun w => w.observe (w.store.read path)
  isFile path := return (← get).store.isFile path
  isPresent path := return (← get).store.isPresent path
  isReadOnly path := modifyGet fun w => w.observe (w.store.isReadOnly path)
  write path text := modifyGet fun w => w.write path text
  put text := modifyGet fun w => w.put text
  flush := modifyGet fun w => w.observe (.ok ())
  readLine := modifyGet fun w => w.readLine

variable (w : World) (path text : Text)

theorem store_access_read : ((access.read path).run w).2.store = w.store :=
  store_observe w _

theorem store_access_isReadOnly : ((access.isReadOnly path).run w).2.store = w.store :=
  store_observe w _

theorem store_access_put : ((access.put text).run w).2.store = w.store :=
  store_put w text

theorem store_access_flush : (access.flush.run w).2.store = w.store :=
  store_observe w _

theorem store_access_readLine : (access.readLine.run w).2.store = w.store :=
  store_readLine w

variable {w path text}

theorem read_of_access_read (returned : ((access.read path).run w).1 = .ok text) :
    w.store.read path = .ok text := by
  have observed : (w.observe (w.store.read path)).1 = .ok text := returned
  exact (attempt_of_ok observed).1

end World

end Workspace

end ComponentExtraction
