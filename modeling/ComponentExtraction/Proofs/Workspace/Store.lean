import ComponentExtraction.Workspace.Store

/-!
# Writing to stores

A write needs a directory for its file and makes none, so it changes what is at one
place and where no path leads to. After several writes every path therefore still
leads to where it led before the first of them (`SameWays`), and the contents of these
places tell what the last write there was.

Following a path is taken apart into the turns of its parts. What holds of one turn
is carried along a walk, and from there through the links of a path, so that both
inductions are made once for each fact about paths.
-/

namespace ComponentExtraction

namespace Workspace

namespace Store

variable {s s' : Store} {path text part : Text} {location here origin : Location}
variable {parts more : List Text} {jump jump' : Location → List Text → Except FileProblem Location}

theorem isDirectory_iff :
    s.isDirectory location = true ↔ ∃ directory ∈ s.innermost, location <+: directory := by
  simp only [isDirectory, List.any_eq_true, List.isPrefixOf_iff_prefix]

theorem mem_innermost_iff : location ∈ s.innermost ↔
    location = s.start ∨ location ∈ s.directories ∨
      (∃ entry ∈ s.files, entry.1.dropLast = location) ∨
      ∃ entry ∈ s.links, entry.1.dropLast = location := by
  simp only [innermost, List.cons_append, List.mem_cons, List.mem_append, List.mem_map, or_assoc]

theorem isDirectory_start (s : Store) : s.isDirectory s.start = true :=
  isDirectory_iff.mpr ⟨s.start, mem_innermost_iff.mpr (.inl rfl), List.prefix_rfl⟩

theorem isDirectory_of_above (above : here <+: location) (h : s.isDirectory location = true) :
    s.isDirectory here = true := by
  obtain ⟨directory, member, below⟩ := isDirectory_iff.mp h
  exact isDirectory_iff.mpr ⟨directory, member, above.trans below⟩

theorem isDirectory_root (s : Store) : s.isDirectory [] = true :=
  isDirectory_of_above List.nil_prefix s.isDirectory_start

/-- A file can be put at a place: there is a directory for it. -/
def HasDirectory (s : Store) (location : Location) : Prop :=
  s.isDirectory location = true ∨ s.isDirectory location.dropLast = true

theorem HasDirectory.of_isDirectory (h : s.isDirectory location = true) : s.HasDirectory location :=
  .inl h

/-- A part is looked up in a directory, and leads to a name there, or to a link that
starts from there or from the root. -/
theorem turn_cases {way : Turn} (taken : s.turn here part = .ok way) :
    s.isDirectory here = true ∧ (way = .place here ∨ way = .place here.dropLast ∨
      way = s.enter here part) := by
  unfold turn at taken
  split at taken
  · exact absurd taken (by simp)
  split at taken
  · exact absurd taken (by simp)
  next directory =>
    refine ⟨by simpa using directory, ?_⟩
    split at taken
    · exact .inl (Except.ok.inj taken).symm
    split at taken
    · exact absurd taken (by simp)
    split at taken
    · exact .inl (Except.ok.inj taken).symm
    split at taken
    · exact .inr (.inl (Except.ok.inj taken).symm)
    split at taken
    · exact absurd taken (by simp)
    · exact .inr (.inr (Except.ok.inj taken).symm)

theorem hasDirectory_of_place (taken : s.turn here part = .ok (.place location)) :
    s.HasDirectory location := by
  obtain ⟨directory, same | above | entered⟩ := turn_cases taken
  · cases same
    exact .of_isDirectory directory
  · cases above
    exact .of_isDirectory (isDirectory_of_above (List.dropLast_prefix here) directory)
  · unfold enter at entered
    split at entered
    · cases entered
      apply Or.inr
      rw [List.dropLast_concat]
      exact directory
    · cases entered

theorem isDirectory_of_link (taken : s.turn here part = .ok (.link origin parts)) :
    s.isDirectory origin = true := by
  obtain ⟨directory, same | above | entered⟩ := turn_cases taken
  · cases same
  · cases above
  · unfold enter at entered
    split at entered
    · cases entered
    · cases entered
      split
      · exact s.isDirectory_root
      · exact directory

theorem hasDirectory_of_walk
    (jumps : ∀ {origin parts}, s.HasDirectory origin → jump origin parts = .ok location →
      s.HasDirectory location)
    (begins : s.HasDirectory here) (found : s.walk jump here parts = .ok location) :
    s.HasDirectory location := by
  induction parts generalizing here with
  | nil =>
    cases found
    exact begins
  | cons part more ih =>
    rw [walk] at found
    split at found
    · cases found
    · next taken => exact ih (hasDirectory_of_place taken) found
    · next taken => exact jumps (.of_isDirectory (isDirectory_of_link taken)) found

theorem hasDirectory_of_follow {links : Nat} (begins : s.HasDirectory here)
    (found : s.follow links here parts = .ok location) : s.HasDirectory location := by
  induction links generalizing here parts with
  | zero =>
    refine hasDirectory_of_walk ?_ begins found
    intro origin parts _ jumped
    cases jumped
  | succ links ih => exact hasDirectory_of_walk ih begins found

theorem hasDirectory_of_resolve (found : s.resolve path = .ok location) :
    s.HasDirectory location := by
  unfold resolve at found
  split at found
  · cases found
  split at found
  · cases found
  split at found
  · cases found
  apply hasDirectory_of_follow _ found
  by_cases absolute : Path.isAbsolute path = true
  · rw [if_pos absolute]
    exact .of_isDirectory s.isDirectory_root
  · rw [if_neg absolute]
    exact .of_isDirectory s.isDirectory_start

/-- Two stores whose turns agree are walked in the same way. -/
theorem walk_iff
    (turns : ∀ {here part turn}, s'.turn here part = .ok turn ↔ s.turn here part = .ok turn)
    (jumps : ∀ {origin parts}, jump' origin parts = .ok location ↔
      jump origin parts = .ok location) :
    s'.walk jump' here parts = .ok location ↔ s.walk jump here parts = .ok location := by
  induction parts generalizing here with
  | nil => rfl
  | cons part more ih =>
    rw [walk, walk]
    cases taken : s.turn here part with
    | ok turn =>
      rw [turns.mpr taken]
      cases turn with
      | place next => exact ih
      | link origin parts => exact jumps
    | error problem =>
      cases taken' : s'.turn here part with
      | ok turn => exact absurd (taken.symm.trans (turns.mp taken')) (by simp)
      | error problem' => simp

theorem follow_iff {links : Nat}
    (turns : ∀ {here part turn}, s'.turn here part = .ok turn ↔ s.turn here part = .ok turn) :
    s'.follow links here parts = .ok location ↔ s.follow links here parts = .ok location := by
  induction links generalizing here parts with
  | zero => exact walk_iff turns Iff.rfl
  | succ links ih => exact walk_iff turns ih

theorem mem_putText {files : List (Location × File)} {entry : Location × File}
    (member : entry ∈ putText location text files) :
    entry.1 = location ∨ entry ∈ files := by
  induction files with
  | nil =>
    cases List.mem_singleton.mp member
    exact .inl rfl
  | cons first files ih =>
    rw [putText] at member
    split at member
    · cases List.mem_cons.mp member with
      | inl same => exact .inl (same ▸ rfl)
      | inr later => exact .inr (List.mem_cons_of_mem _ later)
    · cases List.mem_cons.mp member with
      | inl same => exact .inr (same ▸ List.mem_cons_self)
      | inr later => exact (ih later).imp_right (List.mem_cons_of_mem _)

theorem exists_mem_putText {files : List (Location × File)} {entry : Location × File}
    (member : entry ∈ files) : ∃ file, (entry.1, file) ∈ putText location text files := by
  induction files with
  | nil => exact absurd member (by simp)
  | cons first files ih =>
    rw [putText]
    split
    · next same =>
      cases List.mem_cons.mp member with
      | inl here =>
        rw [here, same]
        exact ⟨_, List.mem_cons_self⟩
      | inr later => exact ⟨entry.2, List.mem_cons_of_mem _ later⟩
    · cases List.mem_cons.mp member with
      | inl here =>
        rw [here]
        exact ⟨first.2, List.mem_cons_self⟩
      | inr later =>
        obtain ⟨file, found⟩ := ih later
        exact ⟨file, List.mem_cons_of_mem _ found⟩

/-- A text was written to a place that can hold a file. -/
structure Puts (s : Store) (location : Location) (text : Text) (s' : Store) : Prop where
  free : s.isDirectory location = false
  hasDirectory : s.isDirectory location.dropLast = true
  store_eq : s' = { s with files := putText location text s.files }

theorem puts_of_write (done : s.write path text = .ok s') :
    ∃ location, s.resolve path = .ok location ∧ s.Puts location text s' := by
  unfold write at done
  split at done
  · cases done
  next location found =>
    split at done
    · cases done
    next free =>
      have free : s.isDirectory location = false := by simpa using free
      refine ⟨location, found, free, ?_, (Except.ok.inj done).symm⟩
      cases hasDirectory_of_resolve found with
      | inl directory => exact absurd (directory.symm.trans free) (by simp)
      | inr directory => exact directory

namespace Puts

variable {a : Location} (put : s.Puts a text s')
include put

theorem file?_self : ∃ file, s'.file? a = some file ∧ file.content = .text text := by
  rw [put.store_eq, file?, find?_putText_self]
  exact ⟨_, rfl, rfl⟩

theorem file?_of_ne (different : location ≠ a) : s'.file? location = s.file? location := by
  rw [put.store_eq, file?, file?, find?_putText_of_ne different]

theorem isDirectory_eq (location : Location) : s'.isDirectory location = s.isDirectory location := by
  rw [Bool.eq_iff_iff]
  constructor
  · intro after
    obtain ⟨directory, member, below⟩ := isDirectory_iff.mp after
    refine isDirectory_of_above below ?_
    rw [put.store_eq, mem_innermost_iff] at member
    rcases member with start | listed | ⟨entry, held, rfl⟩ | linked
    · exact start ▸ s.isDirectory_start
    · exact isDirectory_iff.mpr ⟨directory, mem_innermost_iff.mpr (.inr (.inl listed)), List.prefix_rfl⟩
    · cases mem_putText held with
      | inl written => exact written ▸ put.hasDirectory
      | inr held =>
        have listed : entry.1.dropLast ∈ s.innermost :=
          mem_innermost_iff.mpr (.inr (.inr (.inl ⟨entry, held, rfl⟩)))
        exact isDirectory_iff.mpr ⟨_, listed, List.prefix_rfl⟩
    · have listed : directory ∈ s.innermost := mem_innermost_iff.mpr (.inr (.inr (.inr linked)))
      exact isDirectory_iff.mpr ⟨directory, listed, List.prefix_rfl⟩
  · intro before
    obtain ⟨directory, member, below⟩ := isDirectory_iff.mp before
    refine isDirectory_iff.mpr ⟨directory, ?_, below⟩
    rw [put.store_eq, mem_innermost_iff]
    refine (mem_innermost_iff.mp member).imp_right (Or.imp_right (Or.imp_left ?_))
    rintro ⟨entry, held, inside⟩
    obtain ⟨file, held'⟩ := exists_mem_putText held
    exact ⟨(entry.1, file), held', inside⟩

theorem enter_eq : s'.enter here part = s.enter here part := by
  rw [put.store_eq]
  rfl

/-- Parts lead to where they led before, and no part leads anywhere new. -/
theorem turn_iff {turn : Turn} : s'.turn here part = .ok turn ↔ s.turn here part = .ok turn := by
  have closed_eq : s'.closed = s.closed := by rw [put.store_eq]
  rw [Store.turn, Store.turn, put.isDirectory_eq here, put.enter_eq, closed_eq]
  by_cases directory : s.isDirectory here = true
  · have elsewhere : here ≠ a := by
      rintro rfl
      exact absurd (directory.symm.trans put.free) (by simp)
    rw [put.file?_of_ne elsewhere]
  · -- Behind a file or nothing, only the problem can be another one.
    rw [Bool.not_eq_true] at directory
    simp only [directory, Bool.not_false, if_true]
    constructor
    · intro taken
      split at taken <;> cases taken
    · intro taken
      split at taken <;> cases taken

theorem resolve_iff : s'.resolve path = .ok location ↔ s.resolve path = .ok location := by
  have start_eq : s'.start = s.start := by rw [put.store_eq]
  rw [resolve, resolve, start_eq]
  split
  · rfl
  split
  · rfl
  split
  · rfl
  · exact follow_iff put.turn_iff

end Puts

/-- Every path leads to the same place in both stores, or to
none in both. The texts at these places may differ. -/
def SameWays (s s' : Store) : Prop :=
  ∀ path location, s'.resolve path = .ok location ↔ s.resolve path = .ok location

theorem SameWays.trans {s'' : Store} (first : SameWays s s') (second : SameWays s' s'') :
    SameWays s s'' :=
  fun path location => (second path location).trans (first path location)

theorem sameWays_write (done : s.write path text = .ok s') : SameWays s s' := by
  obtain ⟨_, -, put⟩ := puts_of_write done
  intro path location
  exact put.resolve_iff

theorem lookup_of_file? {file : File} (found : s.resolve path = .ok location)
    (there : s.file? location = some file) : s.lookup path = .ok file := by
  simp only [lookup, found, there]

theorem of_lookup {file : File} (found : s.lookup path = .ok file) :
    ∃ location, s.resolve path = .ok location ∧ s.file? location = some file := by
  unfold lookup at found
  split at found
  · cases found
  next location resolved =>
    split at found
    · next file' there => exact ⟨location, resolved, Except.ok.inj found ▸ there⟩
    · split at found <;> cases found

theorem of_read (found : s.read path = .ok text) : ∃ location file,
    s.resolve path = .ok location ∧ s.file? location = some file ∧ file.content = .text text := by
  unfold read at found
  split at found
  · cases found
  next file there =>
    obtain ⟨location, resolved, held⟩ := of_lookup there
    refine ⟨location, file, resolved, held, ?_⟩
    cases holds : file.content with
    | text text' =>
      rw [holds] at found
      cases found
      rfl
    | bytes bytes noText =>
      rw [holds] at found
      cases found

theorem read_of_file? {file : File} (found : s.resolve path = .ok location)
    (there : s.file? location = some file) (holds : file.content = .text text) :
    s.read path = .ok text := by
  rw [read, lookup_of_file? found there]
  dsimp only
  rw [holds]

/-- Nothing is at the place that an absent path leads to. -/
theorem file?_of_absent (absent : s.isPresent path = false) (found : s.resolve path = .ok location) :
    s.file? location = none := by
  cases there : s.file? location with
  | none => rfl
  | some file =>
    rw [isPresent, lookup_of_file? found there] at absent
    cases absent

end Store

end Workspace

end ComponentExtraction
