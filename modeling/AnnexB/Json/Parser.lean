/-
# Reading JSON

The grammar is that of the standard and no wider: no comments, no trailing commas, no control
characters inside quotes, no zeros in front of a number.  A parser takes what it reads from the
front of the characters and gives what is left.

Arrays and objects nest, so that the parsers of values call each other; the number of calls left
bounds them, and twice the number of characters is enough.
-/

import AnnexB.Json.Basic

namespace AnnexB
namespace Json

/-- The characters behind the blanks at the front. -/
def skipBlanks (cs : List Char) : List Char :=
  cs.dropWhile fun c => c == ' ' || c == '\t' || c == '\n' || c == '\r'

/-- The value of a hexadecimal digit. -/
def hexValue (c : Char) : Option Nat :=
  if '0' ≤ c && c ≤ '9' then some (c.toNat - '0'.toNat)
  else if 'a' ≤ c && c ≤ 'f' then some (c.toNat - 'a'.toNat + 10)
  else if 'A' ≤ c && c ≤ 'F' then some (c.toNat - 'A'.toNat + 10)
  else none

/-- The number that four hexadecimal digits stand for. -/
def hexNumber (a b c d : Char) : Option Nat := do
  return (((← hexValue a) * 16 + (← hexValue b)) * 16 + (← hexValue c)) * 16 + (← hexValue d)

/-- What a letter behind a backslash stands for. -/
def unescape : Char → Option Char
  | '"' => some '"'
  | '\\' => some '\\'
  | '/' => some '/'
  | 'b' => some '\x08'
  | 'f' => some '\x0c'
  | 'n' => some '\n'
  | 'r' => some '\r'
  | 't' => some '\t'
  | _ => none

/-- Reads code points up to the closing quote; halves of surrogate pairs count as code points. -/
def codePoints : List Char → Option (List Nat × List Char)
  | [] => none
  | '"' :: rest => some ([], rest)
  | '\\' :: 'u' :: a :: b :: c :: d :: rest => do
    let n ← hexNumber a b c d
    let (ns, rest) ← codePoints rest
    return (n :: ns, rest)
  | '\\' :: c :: rest => do
    let c ← unescape c
    let (ns, rest) ← codePoints rest
    return (c.toNat :: ns, rest)
  | c :: rest =>
    if c.toNat < 32 then none
    else do
      let (ns, rest) ← codePoints rest
      return (c.toNat :: ns, rest)

/-- Joins the halves of surrogate pairs; a half that stands alone is no character. -/
def joinSurrogates : List Nat → Option (List Char)
  | [] => some []
  | n :: rest =>
    if 0xD800 ≤ n && n < 0xDC00 then
      match rest with
      | m :: rest =>
        if 0xDC00 ≤ m && m < 0xE000 then
          (joinSurrogates rest).map
            (Char.ofNat (0x10000 + (n - 0xD800) * 0x400 + (m - 0xDC00)) :: ·)
        else none
      | [] => none
    else if 0xDC00 ≤ n && n < 0xE000 then none
    else (joinSurrogates rest).map (Char.ofNat n :: ·)

/-- Reads the text behind an opening quote. -/
def text (cs : List Char) : Option (Option String × List Char) := do
  let (ns, rest) ← codePoints cs
  return ((joinSurrogates ns).map String.ofList, rest)

/-- Reads at least one digit. -/
def digits (cs : List Char) : Option (List Char × List Char) :=
  match cs.span Char.isDigit with
  | ([], _) => none
  | (ds, rest) => some (ds, rest)

/-- Reads the whole part of a number: zero, or digits of which the first is not zero. -/
def wholePart (cs : List Char) : Option (List Char × List Char) :=
  match cs with
  | '0' :: rest => some (['0'], rest)
  | cs => digits cs

/-- Reads the part of a number behind its point, if it has one. -/
def fraction (cs : List Char) : Option (List Char × List Char) :=
  match cs with
  | '.' :: rest => (digits rest).map fun (ds, rest) => ('.' :: ds, rest)
  | cs => some ([], cs)

/-- Reads the exponent of a number, if it has one. -/
def exponent (cs : List Char) : Option (List Char × List Char) :=
  match cs with
  | e :: rest =>
    if e == 'e' || e == 'E' then
      let (sign, rest) := match rest with
        | '+' :: rest => (['+'], rest)
        | '-' :: rest => (['-'], rest)
        | rest => ([], rest)
      (digits rest).map fun (ds, rest) => (e :: sign ++ ds, rest)
    else some ([], cs)
  | [] => some ([], [])

/-- Reads a number as it is written. -/
def numberLiteral (cs : List Char) : Option (String × List Char) := do
  let (sign, cs) := match cs with
    | '-' :: rest => (['-'], rest)
    | cs => ([], cs)
  let (whole, cs) ← wholePart cs
  let (part, cs) ← fraction cs
  let (power, cs) ← exponent cs
  return (String.ofList (sign ++ whole ++ part ++ power), cs)

mutual

/-- Reads a value, behind blanks. -/
def value : (calls : Nat) → List Char → Option (Json × List Char)
  | 0, _ => none
  | calls + 1, cs =>
    match skipBlanks cs with
    | 'n' :: 'u' :: 'l' :: 'l' :: rest => some (null, rest)
    | 't' :: 'r' :: 'u' :: 'e' :: rest => some (bool true, rest)
    | 'f' :: 'a' :: 'l' :: 's' :: 'e' :: rest => some (bool false, rest)
    | '"' :: rest => (text rest).map fun (t, rest) => (string t, rest)
    | '[' :: rest =>
      match skipBlanks rest with
      | ']' :: rest => some (array [], rest)
      | rest => (elements calls rest).map fun (vs, rest) => (array vs, rest)
    | '\x7b' :: rest =>
      match skipBlanks rest with
      | '\x7d' :: rest => some (object [], rest)
      | rest => (members calls rest).map fun (ms, rest) => (object ms, rest)
    | cs => (numberLiteral cs).map fun (n, rest) => (number n, rest)

/-- Reads at least one value up to the closing bracket. -/
def elements : (calls : Nat) → List Char → Option (List Json × List Char)
  | 0, _ => none
  | calls + 1, cs => do
    let (v, cs) ← value calls cs
    match skipBlanks cs with
    | ',' :: rest =>
      let (vs, rest) ← elements calls rest
      return (v :: vs, rest)
    | ']' :: rest => return ([v], rest)
    | _ => none

/-- Reads at least one member up to the closing brace. -/
def members : (calls : Nat) → List Char → Option (List (Option String × Json) × List Char)
  | 0, _ => none
  | calls + 1, cs => do
    match skipBlanks cs with
    | '"' :: rest =>
      let (name, cs) ← text rest
      match skipBlanks cs with
      | ':' :: rest =>
        let (v, cs) ← value calls rest
        match skipBlanks cs with
        | ',' :: rest =>
          let (ms, rest) ← members calls rest
          return ((name, v) :: ms, rest)
        | '\x7d' :: rest => return ([(name, v)], rest)
        | _ => none
      | _ => none
    | _ => none

end

/-- The value that a text holds, and nothing but blanks around it. -/
def parse (input : String) : Option Json :=
  let cs := input.toList
  match value (2 * cs.length + 1) cs with
  | some (v, rest) => if (skipBlanks rest).isEmpty then some v else none
  | none => none

end Json
end AnnexB
