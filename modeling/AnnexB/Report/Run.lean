/-
# Running a report

A run settles the configuration, opens the input, reads access units up to its end or to a limit,
and takes them into the summary; on request it writes their base layer.

| refused | before |
| --- | --- |
| a configuration that cannot be read or understood; an unknown file extension | all else |
| replay without end and without a limit | the input is opened |
| an input that cannot be opened, or without NAL units when it is indexed | the output is created |
| a base layer of an H.265 stream; an output that cannot be created | any line is printed |

The surroundings of a run, that is the files that it finds, are a parameter.
-/

import AnnexB.AccessUnit.Layers
import AnnexB.Output
import AnnexB.Report.Options
import AnnexB.Report.Summary
import AnnexB.Source.ConfigFile
import AnnexB.Source.Indexed
import AnnexB.Source.Stream
import AnnexB.Storage.File
import AnnexB.Text.Path

namespace AnnexB

/-- The files that a run finds. -/
structure Surroundings where
  /-- The file or directory at a path, opened for reading. -/
  openRead : String → Option FileHandle
  /-- Whether a file can be created. -/
  canCreate : String → Bool

/-- What a run leaves behind: the lines for access units, the summary or what went wrong instead,
and the file written. -/
structure Outcome where
  unitLines : List String := []
  summary : Option Summary := none
  error : Option String := none
  written : Option (String × List UInt8) := none
  deriving Repr, Inhabited

namespace Outcome

/-- The outcome of a run that is refused. -/
def refused (error : String) : Outcome := { error := some error }

/-- The outcome when the output cannot be created. -/
def cannotCreate (path : String) : Outcome := refused ("无法创建输出文件: " ++ path)

end Outcome

namespace Options

/-- The media type that is named, or that the input's extension stands for. -/
def inferMediaType (o : Options) : Except String MediaType :=
  match o.format, (Path.extension? o.input).bind MediaType.ofExtension? with
  | some t, _ => .ok t
  | none, some t => .ok t
  | none, none => .error ("无法从扩展名推断媒体类型, 请使用 --format: " ++ o.input)

/-- The text of a file, if it is one. -/
def readText (s : Surroundings) (path : String) : Option String := do
  let file ← s.openRead path
  let bytes ← (file.read file.data.size).1.toOption
  String.fromUTF8? (ByteArray.mk bytes)

/-- The configuration of the file that is named, or else the one for the media type. -/
def baseConfig (o : Options) (s : Surroundings) : Except String SourceConfig :=
  match o.config with
  | none => (o.inferMediaType).map fun mediaType => { mediaType }
  | some path =>
    match readText s path with
    | none => .error ("无法读取配置文件: " ++ path)
    | some text =>
      match SourceConfig.parse text with
      | none => .error ("配置文件格式错误: " ++ path)
      | some config => .ok config

/-- The configuration with what the options say besides it. -/
def override (o : Options) (c : SourceConfig) : SourceConfig :=
  { mediaType := o.format.getD c.mediaType
    replay := (o.loopCount.map Replay.repeating).getD c.replay
    mode := if o.live then .live else (o.fps.map TimestampMode.frameRate).getD c.mode }

/-- The configuration of the run. -/
def resolve (o : Options) (s : Surroundings) : Except String SourceConfig := do
  let config := o.override (← o.baseConfig s)
  if config.replay.isEndless && o.limit.isNone then throw "无限循环需要指定 --limit"
  return config

/-- The state of a run: its source, the writer of the base layer, the summary, and the lines,
latest first. -/
structure State (α : Type) where
  source : α
  writer : Option (StreamWriter FileHandle)
  summary : Summary
  lines : List String := []

section
variable {α : Type} [MediaSource α]

/-- Takes an access unit into the summary and writes its base layer. -/
def takeUnit (o : Options) (codec : VideoCodec) (s : State α) (unit : AccessUnit) :
    Except Error Unit × State α :=
  let lines :=
    if o.verbosity > 0 && !o.json then
      Summary.unitLine codec s.summary.accessUnits unit :: s.lines
    else s.lines
  let s := { s with lines, summary := s.summary.record codec unit }
  match s.writer with
  | none => (.ok (), s)
  | some w =>
    let (answer, w) := w.writeAccessUnit unit.splitLayers.1
    (answer, { s with writer := some w })

/-- Reads access units while the source is good and the limit is not reached, at most `rounds` of
them. -/
def readUnits (o : Options) (codec : VideoCodec) (s : State α) :
    (rounds : Nat) → Except Error Unit × State α
  | 0 => (.ok (), s)
  | rounds + 1 =>
    if !MediaSource.isGood s.source then (.ok (), s)
    else if o.limit.any fun limit => s.summary.accessUnits ≥ limit.toNat then (.ok (), s)
    else
      let (unit, source) := MediaSource.next s.source
      let s := { s with source }
      if unit.isEmpty then (.ok (), s)
      else
        match takeUnit o codec s unit with
        | (.error e, s) => (.error e, s)
        | (.ok _, s) => readUnits o codec s rounds

/-- The number of access units that a run can read: those that the source has, and no more than the
limit. -/
def roundsFor (o : Options) (source : α) : Nat :=
  match MediaSource.bound source, o.limit with
  | some n, some limit => min n limit.toNat
  | some n, none => n
  | none, some limit => limit.toNat
  | none, none => 0

/-- Reads a source and reports on it. -/
def report (o : Options) (codec : VideoCodec) (source : α) : Outcome :=
  let writer := o.baseLayer.map fun _ => StreamWriter.ofChannel (.ofStorage FileHandle.create) codec
  let summary := { fileName := o.input, mediaType := MediaSource.name source : Summary }
  let (answer, s) := readUnits o codec { source, writer, summary } (roundsFor o source)
  let written := do some (← o.baseLayer, (← s.writer).channel.storage.data.toList)
  match answer with
  | .error e => { unitLines := s.lines.reverse, error := some e.message, written }
  | .ok _ =>
    let baseLayerUnits := s.writer.map (·.unitsWritten)
    { unitLines := s.lines.reverse, summary := some { s.summary with baseLayerUnits }, written }

/-- Reports on an open source.  Where the output is the input's own file, creating it empties the
input, as `emptied` says. -/
def reportOn (o : Options) (s : Surroundings) (codec : VideoCodec) (source : α)
    (emptied : α → α) : Outcome :=
  if !MediaSource.isGood source then .refused ("无法读取输入: " ++ o.input)
  else
    match o.baseLayer with
    | none => report o codec source
    | some path =>
      if codec ≠ .h264 then .refused "--base-layer 只支持 H.264/SVC 码流"
      else if !s.canCreate path then .cannotCreate path
      else report o codec (if Path.same path o.input then emptied source else source)

end

/-- The channel to a file that someone else has emptied. -/
def emptied (c : Channel FileHandle) : Channel FileHandle := { c with storage := c.storage.emptied }

/-- Runs a report. -/
def run (o : Options) (s : Surroundings) : Outcome :=
  match o.resolve s with
  | .error e => .refused e
  | .ok config =>
    let codec := config.mediaType.codec
    let channel := (s.openRead o.input).map Channel.ofStorage
    if o.streaming then
      match channel with
      | none => .refused ("无法打开输入文件: " ++ o.input)
      | some c =>
        reportOn o s codec (StreamReader.ofChannel c config.mediaType config.mode)
          fun r => { r with channel := emptied r.channel }
    else
      let source := (channel.map fun c => IndexedSource.ofChannel c config).getD (.failed config)
      reportOn o s codec source fun r => { r with channel := r.channel.map emptied }

end Options

/-- The exit code of a run. -/
def Outcome.exitCode (r : Outcome) : Nat := if r.error.isSome then 1 else 0

/-- The lines that a run prints. -/
def Outcome.print (r : Outcome) (json : Bool) : List String :=
  r.unitLines ++
    match r.summary with
    | none => []
    | some s => if json then [s.toJson.pretty 0] else s.lines

end AnnexB
