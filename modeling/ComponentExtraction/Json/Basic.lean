import ComponentExtraction.Sequence.Entries

/-!
# JSON values

Objects keep the order of their members, and repeated names, since readers of
settings and symbol tables have rules for both.
-/

namespace ComponentExtraction

inductive Json where
  | null
  | bool (value : Bool)
  | number (literal : Text)
  | string (value : Text)
  /-- A string with an escaped surrogate that has no partner: it can be read but
  denotes no text. -/
  | unpaired
  | array (items : List Json)
  | object (members : List (Text × Json))
deriving Repr

namespace Json

def ofNat (n : Nat) : Json :=
  .number (Text.ofNat n)

def ofText? : Option Text → Json
  | some text => .string text
  | none => .null

def text? : Json → Option Text
  | .string value => some value
  | _ => none

def items? : Json → Option (List Json)
  | .array items => some items
  | _ => none

def members? : Json → Option (List (Text × Json))
  | .object members => some members
  | _ => none

def bool? : Json → Option Bool
  | .bool value => some value
  | _ => none

def isNull : Json → Bool
  | .null => true
  | _ => false

def get? (name : Text) (j : Json) : Option Json :=
  j.members?.bind (Entries.get? name)

def digitsValue? (digits : Text) : Option Nat :=
  if digits.isEmpty then none
  else
    digits.foldl
      (fun value c => value.bind fun n =>
        if '0' ≤ c && c ≤ '9' then some (n * 10 + (c.toNat - '0'.toNat)) else none)
      (some 0)

def nat? : Json → Option Nat
  | .number literal => digitsValue? literal
  | _ => none

/-- Every member once: the values of a record with the given member names, each
at most once. Unknown members are passed over; a list of values stands for the
members in the given order. -/
def record? (names : List String) (j : Json) : Option (List (Option Json)) :=
  match j with
  | .array items =>
    if items.length ≤ names.length then
      some (items.map some ++ List.replicate (names.length - items.length) none)
    else none
  | .object members =>
    let values := names.map fun name => members.filterMap fun entry =>
      if entry.1 = name.toList then some entry.2 else none
    if values.all fun found => found.length ≤ 1 then some (values.map List.head?) else none
  | _ => none

end Json

end ComponentExtraction
