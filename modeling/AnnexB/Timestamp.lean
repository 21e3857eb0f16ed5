/-
# Times of access units

An access unit is stamped once, and all its samples carry that time.

| mode | time of access unit `k` |
| --- | --- |
| `untimed` | 0 |
| `live` | the moment it was found |
| `frameRate fps` | `k` times the duration of a frame, `1 / fps` seconds |

The moment of a live stamp is outside the library, so such a stamp carries no number.
-/

namespace AnnexB

/-- How access units are stamped. -/
inductive TimestampMode where
  | untimed
  | live
  | frameRate (fps : UInt32)
  deriving DecidableEq, Repr

/-- The frame rate where none is given, or 0 is. -/
def defaultFrameRate : UInt32 := 25

instance : Inhabited TimestampMode := ⟨.frameRate defaultFrameRate⟩

/-- A time in seconds, or the moment of a live stream. -/
inductive Timestamp where
  | seconds (t : Float)
  | live
  deriving DecidableEq, Repr

/-- The time 0. -/
def Timestamp.zero : Timestamp := .seconds 0

instance : Inhabited Timestamp := ⟨.zero⟩

namespace TimestampMode

/-- The duration of a frame in seconds, where the mode has a frame rate. -/
def frameDuration : TimestampMode → Option Float
  | frameRate fps => some (1.0 / (if fps = 0 then defaultFrameRate else fps).toFloat)
  | _ => none

/-- The time of access unit `index`, counted from 0. -/
def stamp (mode : TimestampMode) (index : Nat) : Timestamp :=
  match mode with
  | untimed => .zero
  | live => .live
  | frameRate _ => .seconds ((UInt64.ofNat index).toFloat * mode.frameDuration.getD 0)

end TimestampMode

end AnnexB
