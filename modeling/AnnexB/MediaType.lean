/-
# Codecs and media types

A media type names the kind of stream; two of the three kinds share one codec, which decides how a
NAL unit header is laid out and where access units begin.

| media type | codec | file extensions | other spellings |
| --- | --- | --- | --- |
| `H264` | H.264 | `264`, `h264`, `avc` | `H.264`, `AVC` |
| `H264-SVC` | H.264 |  | `H264SVC`, `SVC` |
| `H265` | H.265 | `265`, `h265`, `hevc` | `H.265`, `HEVC` |

Case does not matter in either column, for the ASCII letters.
-/

import AnnexB.Error

namespace AnnexB

/-- What decides the layout of NAL unit headers and the rule for access units. -/
inductive VideoCodec where
  | h264
  | h265
  deriving DecidableEq, Repr, Inhabited

/-- The number of payload bytes that a decision on access units needs: for H.265 the two header
bytes and the first byte of the slice header. -/
def VideoCodec.probeLength : VideoCodec → Nat
  | .h264 => 1
  | .h265 => 3

/-- The kind of a stream. -/
inductive MediaType where
  | h264
  | h264Svc
  | h265
  deriving DecidableEq, Repr, Inhabited

namespace MediaType

def codec : MediaType → VideoCodec
  | h264 => .h264
  | h264Svc => .h264
  | h265 => .h265

/-- The name, as configuration files spell it. -/
def name : MediaType → String
  | h264 => "H264"
  | h264Svc => "H264-SVC"
  | h265 => "H265"

/-- The media type that a file extension stands for. -/
def ofExtension? (extension : String) : Option MediaType :=
  match extension.toLower with
  | "264" | "h264" | "avc" => some h264
  | "265" | "h265" | "hevc" => some h265
  | _ => none

/-- The media type that a user names. -/
def ofName (text : String) : Except Error MediaType :=
  match text.toUpper with
  | "H264" | "H.264" | "AVC" => .ok h264
  | "H264-SVC" | "H264SVC" | "SVC" => .ok h264Svc
  | "H265" | "H.265" | "HEVC" => .ok h265
  | _ => .error (.unknownMediaType text)

end MediaType

end AnnexB
