/-
# Configurations as JSON

| type | members, in order |
| --- | --- |
| `Replay` | `enabled` (false), `count` (0) |
| `SourceConfig` | `media_type`, `loop` (played once), `timestamp_mode` (25 frames a second) |
| `YuvConfig` | `width`, `height`, `loop`, `timestamp_mode`, with the same defaults |
| `TimestampMode` | `mode`, and for the mode `frame_rate` also `fps` |

A member with a default, given in brackets, may be left out.  Members of other names are passed
over, but a member of the type must not come twice.  In place of an object the values of its members
may stand in an array, in order, and only those at the end left out.

The members of a timestamp mode are read before the mode is known, so that all that stands in it
must be meaningful, and no deeper than `maxDepth`.
-/

import AnnexB.Json.Parser
import AnnexB.Source.Basic

namespace AnnexB
namespace Json

/-- The number of arrays and objects that may stand around a value. -/
def maxDepth : Nat := 127

/-- A natural number below 2^32, written without point and exponent. -/
def toUInt32? : Json → Option UInt32
  | number literal =>
    if literal.toList.all Char.isDigit then
      let n := Decimal.ofDigits literal.toList
      if n < UInt32.size then some (UInt32.ofNat n) else none
    else none
  | _ => none

def toBool? : Json → Option Bool
  | bool b => some b
  | _ => none

def toText? : Json → Option String
  | string text => text
  | _ => none

/-- The values of the members with some name. -/
def valuesOf (name : String) (members : List (Option String × Json)) : List Json :=
  members.filterMap fun (n, v) => if n = some name then some v else none

/-- The values of the named members, as far as they are there. -/
def membersOf (names : List String) : Json → Option (List (Option Json))
  | object members =>
    if members.all fun (name, _) => name.isSome then
      names.mapM fun name =>
        match valuesOf name members with
        | [] => some none
        | [v] => some (some v)
        | _ => none
    else none
  | array elements =>
    if elements.length ≤ names.length then
      some (elements.map some ++ List.replicate (names.length - elements.length) none)
    else none
  | _ => none

/-- A value that may be left out. -/
def orDefault {α : Type} (default : α) (read : Json → Option α) : Option Json → Option α
  | none => some default
  | some v => read v

end Json

namespace MediaType

/-- The media type of some name. -/
def ofConfigName? : String → Option MediaType
  | "H264" => some h264
  | "H264-SVC" => some h264Svc
  | "H265" => some h265
  | _ => none

/-- A media type is written as its name, or as an object with the name for null. -/
def ofJson? : Json → Option MediaType
  | .string text => text.bind ofConfigName?
  | .object [(name, .null)] => name.bind ofConfigName?
  | _ => none

def toJson (t : MediaType) : Json := .ofText t.name

end MediaType

namespace Replay

def ofJson? (j : Json) : Option Replay := do
  match ← j.membersOf ["enabled", "count"] with
  | [enabled, count] =>
    return ⟨← Json.orDefault false Json.toBool? enabled, ← Json.orDefault 0 Json.toUInt32? count⟩
  | _ => none

def toJson (r : Replay) : Json :=
  .ofMembers [("enabled", .bool r.enabled), ("count", .ofNat r.count.toNat)]

end Replay

namespace TimestampMode

/-- A mode without members, whatever members are named. -/
def ofBare? (rest : Json) (mode : TimestampMode) : Option TimestampMode :=
  match rest with
  | .array (_ :: _) => none
  | _ => some mode

/-- A mode of some name with its other members. -/
def ofParts? (name : String) (rest : Json) : Option TimestampMode :=
  match name with
  | "none" => ofBare? rest untimed
  | "live" => ofBare? rest live
  | "frame_rate" => do
    match ← rest.membersOf ["fps"] with
    | [fps] => return frameRate (← (← fps).toUInt32?)
    | _ => none
  | _ => none

/-- A mode inside of `level` arrays and objects. -/
def ofJson? (level : Nat) (j : Json) : Option TimestampMode :=
  if level + j.depth ≤ Json.maxDepth && j.isMeaningful then
    match j with
    | .object members =>
      match Json.valuesOf "mode" members with
      | [name] => do
        ofParts? (← name.toText?) (.object (members.filter fun (n, _) => n ≠ some "mode"))
      | _ => none
    | .array (name :: rest) => do ofParts? (← name.toText?) (.array rest)
    | _ => none
  else none

def toJson : TimestampMode → Json
  | untimed => .ofMembers [("mode", .ofText "none")]
  | live => .ofMembers [("mode", .ofText "live")]
  | frameRate fps => .ofMembers [("mode", .ofText "frame_rate"), ("fps", .ofNat fps.toNat)]

end TimestampMode

namespace SourceConfig

def ofJson? (j : Json) : Option SourceConfig := do
  match ← j.membersOf ["media_type", "loop", "timestamp_mode"] with
  | [mediaType, replay, mode] =>
    return { mediaType := ← MediaType.ofJson? (← mediaType)
             replay := ← Json.orDefault .disabled Replay.ofJson? replay
             mode := ← Json.orDefault default (TimestampMode.ofJson? 1) mode }
  | _ => none

def toJson (c : SourceConfig) : Json :=
  .ofMembers [("media_type", c.mediaType.toJson), ("loop", c.replay.toJson),
    ("timestamp_mode", c.mode.toJson)]

/-- The configuration that a text holds. -/
def parse (text : String) : Option SourceConfig := do ofJson? (← Json.parse text)

end SourceConfig

namespace YuvConfig

def ofJson? (j : Json) : Option YuvConfig := do
  match ← j.membersOf ["width", "height", "loop", "timestamp_mode"] with
  | [width, height, replay, mode] =>
    return { width := ← (← width).toUInt32?
             height := ← (← height).toUInt32?
             replay := ← Json.orDefault .disabled Replay.ofJson? replay
             mode := ← Json.orDefault default (TimestampMode.ofJson? 1) mode }
  | _ => none

def toJson (c : YuvConfig) : Json :=
  .ofMembers [("width", .ofNat c.width.toNat), ("height", .ofNat c.height.toNat),
    ("loop", c.replay.toJson), ("timestamp_mode", c.mode.toJson)]

end YuvConfig

end AnnexB
