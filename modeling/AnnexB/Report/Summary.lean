/-
# The summary of a stream

What a run reports: totals over the access units, counts of the NAL unit types by name, and on
request a line for each access unit.

Each counter is a number without bound here.  Words of 64 bits hold them all as long as a run has read
fewer than 2^64 bytes.
-/

import AnnexB.Json.Basic
import AnnexB.Sample
import AnnexB.Text.Decimal

namespace AnnexB

/-- The seconds that a report shows for a time.  A live time counts from the first access unit; a
report reads all its input at one moment. -/
def Timestamp.shown : Timestamp → Float
  | .seconds t => t
  | .live => 0

/-- Totals over the access units of a stream. -/
structure Summary where
  fileName : String
  mediaType : String
  accessUnits : Nat := 0
  samples : Nat := 0
  bytes : Nat := 0
  /-- The bytes of the largest access unit. -/
  maxUnitBytes : Nat := 0
  /-- The number of NAL units with slice data. -/
  vclUnits : Nat := 0
  /-- The number of access units at which decoding can start. -/
  randomAccessUnits : Nat := 0
  /-- The time of the last access unit. -/
  lastTime : Timestamp := .zero
  /-- The NAL unit types by name, in order, each with the number of its units. -/
  nalTypes : List (String × Nat) := []
  /-- The number of access units written to the base layer, where it is written. -/
  baseLayerUnits : Option Nat := none
  deriving DecidableEq, Repr, Inhabited

namespace Summary

/-- Counts one more of a name. -/
def countName (name : String) : List (String × Nat) → List (String × Nat)
  | [] => [(name, 1)]
  | (other, n) :: rest =>
    if name = other then (other, n + 1) :: rest
    else if name < other then (name, 1) :: (other, n) :: rest
    else (other, n) :: countName name rest

/-- The number of payload bytes of an access unit. -/
def unitBytes (unit : AccessUnit) : Nat := unit.foldr (fun s n => s.payloadSize + n) 0

/-- Whether decoding can start at an access unit. -/
def isRandomAccess (codec : VideoCodec) (unit : AccessUnit) : Bool :=
  unit.any fun s => (s.header codec).isRandomAccess

/-- The time of an access unit. -/
def unitTime : AccessUnit → Timestamp
  | [] => .zero
  | first :: _ => first.time

/-- Takes an access unit into the totals. -/
def record (s : Summary) (codec : VideoCodec) (unit : AccessUnit) : Summary :=
  let headers := unit.map (·.header codec)
  let bytes := unitBytes unit
  { s with
    accessUnits := s.accessUnits + 1
    samples := s.samples + unit.length
    bytes := s.bytes + bytes
    maxUnitBytes := max s.maxUnitBytes bytes
    vclUnits := s.vclUnits + headers.countP NalHeader.isVcl
    randomAccessUnits := s.randomAccessUnits + (if isRandomAccess codec unit then 1 else 0)
    lastTime := unitTime unit
    nalTypes := headers.foldl (fun names h => countName h.typeName names) s.nalTypes }

/-- A text with blanks in front of it up to some width. -/
def padLeft (width : Nat) (text : String) : String :=
  String.ofList (List.replicate (width - text.length) ' ') ++ text

/-- A text with blanks behind it up to some width. -/
def padRight (width : Nat) (text : String) : String :=
  text ++ String.ofList (List.replicate (width - text.length) ' ')

/-- The line for access unit number `index`. -/
def unitLine (codec : VideoCodec) (index : Nat) (unit : AccessUnit) : String :=
  let types := ", ".intercalate (unit.map fun s => (s.header codec).typeName)
  "AU #" ++ padRight 6 (toString index)
    ++ " t=" ++ padLeft 9 (Decimal.fixed 3 (unitTime unit).shown) ++ "s"
    ++ "  样本 " ++ padLeft 3 (toString unit.length)
    ++ "  字节 " ++ padLeft 8 (toString (unitBytes unit))
    ++ (if isRandomAccess codec unit then " * [" else "   [") ++ types ++ "]"

/-- The summary as lines of text. -/
def lines (s : Summary) : List String :=
  [ "文件:         " ++ s.fileName,
    "媒体类型:     " ++ s.mediaType,
    "访问单元:     " ++ toString s.accessUnits,
    "NAL 单元:     " ++ toString s.samples,
    "负载字节:     " ++ toString s.bytes,
    "最大访问单元: " ++ toString s.maxUnitBytes ++ " 字节",
    "VCL 单元:     " ++ toString s.vclUnits,
    "随机访问点:   " ++ toString s.randomAccessUnits ++ " 个访问单元",
    "最后时间戳:   " ++ Decimal.fixed 3 s.lastTime.shown ++ "s" ]
  ++ s.nalTypes.map (fun (name, n) => "  " ++ padRight 24 name ++ " " ++ toString n)
  ++ s.baseLayerUnits.toList.map fun n => "基本层写出:   " ++ toString n ++ " 个访问单元"

/-- The summary as a JSON object. -/
def toJson (s : Summary) : Json :=
  .ofMembers <|
    [ ("filename", .ofText s.fileName),
      ("media_type", .ofText s.mediaType),
      ("access_units", .ofNat s.accessUnits),
      ("samples", .ofNat s.samples),
      ("bytes", .ofNat s.bytes),
      ("max_access_unit_bytes", .ofNat s.maxUnitBytes),
      ("vcl_units", .ofNat s.vclUnits),
      ("random_access_units", .ofNat s.randomAccessUnits),
      ("last_start_time", .number (Decimal.shortest s.lastTime.shown)),
      ("nal_types", .ofMembers (s.nalTypes.map fun (name, n) => (name, .ofNat n))) ]
    ++ s.baseLayerUnits.toList.map fun n => ("base_layer_access_units", .ofNat n)

end Summary

end AnnexB
