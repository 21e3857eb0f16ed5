/-
# Start codes

An Annex B stream separates NAL units by start codes: `00 00 01`, or `00 00 00 01` where a zero
stands before the pattern `00 00 01`.

A pattern counts only with payload behind it: one byte when the data is complete, two while more
may follow.  `StartCodeMatch.find?` searches from a position on, looking one byte back from it to
tell the two start codes apart, so that a match may begin one byte before that position.
-/

namespace AnnexB

/-- The two start codes. -/
inductive StartCode where
  | short
  | long
  deriving DecidableEq, Repr, Inhabited

namespace StartCode

def size : StartCode → Nat
  | short => 3
  | long => 4

def bytes : StartCode → List UInt8
  | short => [0, 0, 1]
  | long => [0, 0, 0, 1]

def ofSize? : Nat → Option StartCode
  | 3 => some short
  | 4 => some long
  | _ => none

/-- The start code at the front of some data. -/
def leading? (data : List UInt8) : Option StartCode :=
  if long.bytes.isPrefixOf data then some long
  else if short.bytes.isPrefixOf data then some short
  else none

/-- The start code of a pattern that stands behind a zero, or does not. -/
def ofPattern (afterZero : Bool) : StartCode := if afterZero then long else short

end StartCode

/-- The shortest unit that stands for itself, with its start code: a short start code and two
bytes, or a long one and one byte. -/
def minUnitSize : Nat := 5

/-- Whether data can still grow behind its end. -/
inductive Extent where
  | growing
  | complete
  deriving DecidableEq, Repr, Inhabited

/-- The number of bytes that must stand behind a pattern. -/
def Extent.payloadNeeded : Extent → Nat
  | .growing => 2
  | .complete => 1

/-- A start code in some data: the position of its first byte, and which one it is. -/
structure StartCodeMatch where
  offset : Nat
  startCode : StartCode
  deriving DecidableEq, Repr, Inhabited

namespace StartCodeMatch

/-- The position of the first byte behind the start code. -/
def payloadOffset (m : StartCodeMatch) : Nat := m.offset + m.startCode.size

/-- Whether the data begins with the pattern `00 00 01` and at least `needed` bytes more. -/
@[inline]
def hasPattern (needed : Nat) : List UInt8 → Bool
  | a :: b :: c :: rest => a == 0 && b == 0 && c == 1 && (rest.take needed).length == needed
  | _ => false

/-- The match of a pattern at position `i`, behind a zero or not. -/
def ofPattern (afterZero : Bool) (i : Nat) : StartCodeMatch :=
  let startCode := StartCode.ofPattern afterZero
  ⟨i + 3 - startCode.size, startCode⟩

/-- The first match in the data that stands from position `i` on, behind a zero or not. -/
def findFrom (needed : Nat) (afterZero : Bool) (i : Nat) : List UInt8 → Option StartCodeMatch
  | [] => none
  | byte :: rest =>
    if hasPattern needed (byte :: rest) then some (ofPattern afterZero i)
    else findFrom needed (byte == 0) (i + 1) rest

/-- Whether a zero stands before position `i`. -/
def followsZero (data : List UInt8) (i : Nat) : Bool := i ≠ 0 && data[i - 1]? == some 0

/-- The first start code whose pattern stands at position `start` or later. -/
def find? (extent : Extent) (data : List UInt8) (start : Nat) : Option StartCodeMatch :=
  findFrom extent.payloadNeeded (followsZero data start) start (data.drop start)

end StartCodeMatch

end AnnexB
