/-
# JSON values

A number is kept as it is written, so that no digit is lost, and an object keeps its members in
order and also those whose name comes twice.  A text can be written with half of a surrogate pair,
which stands for no character; such a text is kept as `none`.
-/

import AnnexB.Json.Number

namespace AnnexB

/-- A JSON value. -/
inductive Json where
  | null
  | bool (b : Bool)
  | number (literal : String)
  | string (text : Option String)
  | array (elements : List Json)
  | object (members : List (Option String × Json))
  deriving Repr, Inhabited

namespace Json

/-- A natural number. -/
def ofNat (n : Nat) : Json := number (toString n)

/-- A text. -/
def ofText (text : String) : Json := string (some text)

/-- An object of named members. -/
def ofMembers (members : List (String × Json)) : Json :=
  object (members.map fun (name, value) => (some name, value))

mutual

/-- The number of arrays and objects around the innermost value. -/
def depth : Json → Nat
  | array elements => depthOfElements elements + 1
  | object members => depthOfMembers members + 1
  | _ => 0

/-- The greatest depth among some values. -/
def depthOfElements : List Json → Nat
  | [] => 0
  | value :: rest => max value.depth (depthOfElements rest)

/-- The greatest depth among some members. -/
def depthOfMembers : List (Option String × Json) → Nat
  | [] => 0
  | (_, value) :: rest => max value.depth (depthOfMembers rest)

end

mutual

/-- Whether every text and every name in the value stands for characters, and every number is in
range. -/
def isMeaningful : Json → Bool
  | string text => text.isSome
  | number literal => Number.inRange literal
  | array elements => elementsAreMeaningful elements
  | object members => membersAreMeaningful members
  | _ => true

/-- Whether `isMeaningful` holds of all values. -/
def elementsAreMeaningful : List Json → Bool
  | [] => true
  | value :: rest => value.isMeaningful && elementsAreMeaningful rest

/-- Whether `isMeaningful` holds of all members, with their names. -/
def membersAreMeaningful : List (Option String × Json) → Bool
  | [] => true
  | (name, value) :: rest => name.isSome && value.isMeaningful && membersAreMeaningful rest

end

/-- The four hexadecimal digits of a number below 2^16. -/
def hexDigits (n : Nat) : List Char :=
  [n / 4096, n / 256, n / 16, n].map fun d => Nat.digitChar (d % 16)

/-- A character as it is written inside quotes. -/
def escape (c : Char) : List Char :=
  match c with
  | '"' => ['\\', '"']
  | '\\' => ['\\', '\\']
  | '\n' => ['\\', 'n']
  | '\r' => ['\\', 'r']
  | '\t' => ['\\', 't']
  | '\x08' => ['\\', 'b']
  | '\x0c' => ['\\', 'f']
  | c => if c.toNat < 32 then '\\' :: 'u' :: hexDigits c.toNat else [c]

/-- A text in quotes. -/
def quote (text : String) : String :=
  String.ofList ('"' :: text.toList.flatMap escape ++ ['"'])

/-- The blanks in front of a line at some depth. -/
def indent (level : Nat) : String := String.ofList (List.replicate (2 * level) ' ')

mutual

/-- The value with one element or member to a line, each level two blanks further in. -/
def pretty (level : Nat) : Json → String
  | null => "null"
  | bool b => if b then "true" else "false"
  | number literal => literal
  | string text => quote (text.getD "")
  | array [] => "[]"
  | array elements =>
    "[\n" ++ prettyElements (level + 1) elements ++ "\n" ++ indent level ++ "]"
  | object [] => "\x7b\x7d"
  | object members =>
    "\x7b\n" ++ prettyMembers (level + 1) members ++ "\n" ++ indent level ++ "\x7d"

/-- Elements, each on a line of its own. -/
def prettyElements (level : Nat) : List Json → String
  | [] => ""
  | [value] => indent level ++ pretty level value
  | value :: rest => indent level ++ pretty level value ++ ",\n" ++ prettyElements level rest

/-- Members, each on a line of its own. -/
def prettyMembers (level : Nat) : List (Option String × Json) → String
  | [] => ""
  | [(name, value)] => indent level ++ quote (name.getD "") ++ ": " ++ pretty level value
  | (name, value) :: rest =>
    indent level ++ quote (name.getD "") ++ ": " ++ pretty level value ++ ",\n"
      ++ prettyMembers level rest

end

end Json

end AnnexB
