/-
# Replaying a source

A source has a fixed number of access units.  It is played once, or again after its end: a given
number of times more, or without end for the count 0.

The cursor counts the access units served over all passes, in 64 bits, and the completed passes in
32 bits.  Where a count leaves its width, it goes on from 0 (`ReplayCursor.advance`), or the program
faults, if it checks its sums (`ReplayCursor.advanceChecked`).  What is served is the same up to there.
-/

import AnnexB.Error

namespace AnnexB

/-- Whether a source is played again after its end, and how often. -/
structure Replay where
  enabled : Bool := false
  count : UInt32 := 0
  deriving DecidableEq, Repr, Inhabited

namespace Replay

/-- The source is played once. -/
def disabled : Replay := {}

/-- The source is played `count` times more, without end for 0. -/
def repeating (count : UInt32) : Replay := ⟨true, count⟩

/-- Whether the source never ends. -/
def isEndless (r : Replay) : Bool := r.enabled && r.count == 0

end Replay

/-- A place in the passes over a source. -/
structure ReplayCursor where
  replay : Replay
  /-- The number of access units of a pass. -/
  length : Nat
  /-- The access unit of the pass to be served next. -/
  position : Nat
  /-- The number of returns to the first access unit. -/
  completedPasses : UInt32
  /-- The number of access units served. -/
  served : UInt64
  atEnd : Bool
  deriving DecidableEq, Repr, Inhabited

namespace ReplayCursor

/-- The cursor before the first pass over `length` access units; over none there is no pass. -/
def start (replay : Replay) (length : Nat) : ReplayCursor :=
  { replay, length, position := 0, completedPasses := 0, served := 0, atEnd := length == 0 }

/-- The cursor after an access unit was served. -/
def advance (c : ReplayCursor) : ReplayCursor :=
  let c := { c with served := c.served + 1, position := c.position + 1 }
  if c.position < c.length then c
  else if c.replay.isEndless || (c.replay.enabled && c.completedPasses < c.replay.count) then
    { c with completedPasses := c.completedPasses + 1, position := 0 }
  else { c with atEnd := true }

/-- The cursor after an access unit was served, if no count leaves its width. -/
def advanceChecked (c : ReplayCursor) : Except Halt ReplayCursor := do
  let served ← Halt.checked (·.toNat) (c.served + 1) (c.served.toNat + 1)
  let c := { c with served, position := c.position + 1 }
  if c.position < c.length then return c
  else if c.replay.isEndless || (c.replay.enabled && c.completedPasses < c.replay.count) then
    let completedPasses ←
      Halt.checked (·.toNat) (c.completedPasses + 1) (c.completedPasses.toNat + 1)
    return { c with completedPasses, position := 0 }
  else return { c with atEnd := true }

/-- The number of access units still to be served, or none for a source without end. -/
def left (c : ReplayCursor) : Option Nat :=
  if c.atEnd then some 0
  else if c.replay.isEndless then none
  else
    let passes := if c.replay.enabled then c.replay.count.toNat - c.completedPasses.toNat else 0
    some (c.length - c.position + passes * c.length)

end ReplayCursor

end AnnexB
