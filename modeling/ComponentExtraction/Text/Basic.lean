/-!
# Texts and their byte positions

A text is a list of characters. Every position the library hands out counts the
bytes of the UTF-8 encoding, so a position may also fall inside a character or
past the end; `Text.slice?` is the one operation that turns positions back into
a text, and it answers `none` for such positions.
-/

namespace ComponentExtraction

abbrev Text := List Char

namespace Text

instance : LawfulBEq Text :=
  List.instLawfulBEq

def byteLength : Text → Nat
  | [] => 0
  | c :: cs => c.utf8Size + byteLength cs

@[simp] theorem byteLength_nil : byteLength [] = 0 := rfl

@[simp] theorem byteLength_cons (c : Char) (cs : Text) :
    byteLength (c :: cs) = c.utf8Size + byteLength cs := rfl

@[simp] theorem byteLength_append (s t : Text) :
    byteLength (s ++ t) = byteLength s + byteLength t := by
  induction s with
  | nil => simp
  | cons c cs ih => simp [ih, Nat.add_assoc]

/-- The characters before byte `n`, when a character ends there. -/
def takeBytes? : Nat → Text → Option Text
  | 0, _ => some []
  | _ + 1, [] => none
  | n + 1, c :: cs =>
    if c.utf8Size ≤ n + 1 then (takeBytes? (n + 1 - c.utf8Size) cs).map (c :: ·) else none

/-- The characters from byte `n` on, when a character starts there or the text
ends there. -/
def dropBytes? : Nat → Text → Option Text
  | 0, cs => some cs
  | _ + 1, [] => none
  | n + 1, c :: cs =>
    if c.utf8Size ≤ n + 1 then dropBytes? (n + 1 - c.utf8Size) cs else none

/-- The text between two byte positions. There is none when the positions are
reversed, past the end, or inside a character. -/
def slice? (text : Text) (start stop : Nat) : Option Text :=
  if start ≤ stop then (dropBytes? start text).bind (takeBytes? (stop - start)) else none

/-- Whether a character starts at byte `n`, or the text ends there. -/
def isBoundary (text : Text) (n : Nat) : Bool :=
  (dropBytes? n text).isSome

/-- The last character boundary at or before byte `n`. -/
def floorBoundary (text : Text) : Nat → Nat
  | 0 => 0
  | n + 1 => if isBoundary text (n + 1) then n + 1 else floorBoundary text n

def stripStart? : (start text : Text) → Option Text
  | [], text => some text
  | _ :: _, [] => none
  | a :: start, c :: text => if a = c then stripStart? start text else none

def stripEnd? (ending text : Text) : Option Text :=
  (stripStart? ending.reverse text.reverse).map List.reverse

/-- Split at the first occurrence of `pattern`, which neither part keeps. -/
def splitOnce? (pattern : Text) : Text → Option (Text × Text)
  | [] => if pattern.isEmpty then some ([], []) else none
  | c :: cs =>
    match stripStart? pattern (c :: cs) with
    | some after => some ([], after)
    | none => (splitOnce? pattern cs).map fun parts => (c :: parts.1, parts.2)

theorem eq_append_of_stripStart? {start text rest : Text} (h : stripStart? start text = some rest) :
    text = start ++ rest := by
  induction start generalizing text with
  | nil => simpa [stripStart?] using h
  | cons a start ih =>
    cases text with
    | nil => simp [stripStart?] at h
    | cons c text =>
      simp only [stripStart?] at h
      split at h
      · next same => simp [same, ih h]
      · simp at h

theorem eq_append_of_splitOnce? {pattern text : Text} {parts : Text × Text}
    (h : splitOnce? pattern text = some parts) : text = parts.1 ++ pattern ++ parts.2 := by
  induction text generalizing parts with
  | nil =>
    simp only [splitOnce?] at h
    split at h
    · next empty =>
      cases h
      simpa using empty
    · simp at h
  | cons c cs ih =>
    simp only [splitOnce?] at h
    split at h
    · next after found =>
      cases h
      simpa using eq_append_of_stripStart? found
    · obtain ⟨inner, found, rfl⟩ := Option.map_eq_some_iff.mp h
      simpa using ih found

theorem length_snd_of_splitOnce? {pattern text : Text} {parts : Text × Text}
    (h : splitOnce? pattern text = some parts) : parts.2.length ≤ text.length := by
  simp only [eq_append_of_splitOnce? h, List.length_append]
  omega

def lowercase (text : Text) : Text :=
  text.map Char.toLower

def sameIgnoringCase (s t : Text) : Bool :=
  lowercase s = lowercase t

def ofNat (n : Nat) : Text :=
  Nat.toDigits 10 n

def joinWith (separator : Text) : List Text → Text
  | [] => []
  | [text] => text
  | text :: texts => text ++ separator ++ joinWith separator texts

end Text

end ComponentExtraction
