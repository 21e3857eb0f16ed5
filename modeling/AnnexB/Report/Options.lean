/-
# The options of a report

| option | value | meaning |
| --- | --- | --- |
| `-f`, `--format` | media type | the kind of stream, in place of the file extension |
| `--config` | file | how to play the stream, as JSON |
| `--fps` | below 2^32 | the frame rate of the time stamps |
| `--live` |  | live time stamps; not together with `--fps` |
| `--loop-count` | below 2^32 | times to play again; 0 has no end |
| `--limit` | below 2^64 | the most access units to read |
| `--streaming` |  | read in chunks, without an index |
| `--base-layer` | file | where to write the base layer |
| `--json` |  | report as JSON |
| `-v`, `--verbose` |  | a line for each access unit; may be repeated |
| `-V`, `--version`; `-h`, `--help` |  | say so and stop |

One argument besides is the input.  A value follows its option as the next argument, or in the same
one: `--fps=30`, `-fH265`, `-f=H265`.  Flags of one letter can share an argument.  An argument that
begins with `-` is no value and no input, except `-` itself and all that follows `--`.
-/

import AnnexB.MediaType
import AnnexB.Text.Decimal

namespace AnnexB

/-- The version of the program and of the library. -/
def programVersion : String := "0.1.0"

/-- What the program says of its version. -/
def versionLine : String := "nalu-info " ++ programVersion

/-- What a report is asked for. -/
structure Options where
  input : String
  format : Option MediaType := none
  config : Option String := none
  fps : Option UInt32 := none
  live : Bool := false
  loopCount : Option UInt32 := none
  limit : Option UInt64 := none
  streaming : Bool := false
  baseLayer : Option String := none
  json : Bool := false
  verbosity : Nat := 0
  deriving DecidableEq, Repr, Inhabited

/-- What the arguments of a program ask for. -/
inductive Request where
  | report (options : Options)
  | version
  | help
  /-- The arguments cannot be understood. -/
  | usage
  deriving DecidableEq, Repr, Inhabited

namespace Options

/-- The options that take a value. -/
inductive Setting where
  | format
  | config
  | fps
  | loopCount
  | limit
  | baseLayer
  deriving DecidableEq, Repr, Inhabited

/-- The options that take none. -/
inductive Flag where
  | live
  | streaming
  | json
  | verbose
  | help
  | version
  deriving DecidableEq, Repr, Inhabited

/-- The option of some long name. -/
def ofName? : String → Option (Setting ⊕ Flag)
  | "format" => some (.inl .format)
  | "config" => some (.inl .config)
  | "fps" => some (.inl .fps)
  | "loop-count" => some (.inl .loopCount)
  | "limit" => some (.inl .limit)
  | "base-layer" => some (.inl .baseLayer)
  | "live" => some (.inr .live)
  | "streaming" => some (.inr .streaming)
  | "json" => some (.inr .json)
  | "verbose" => some (.inr .verbose)
  | "help" => some (.inr .help)
  | "version" => some (.inr .version)
  | _ => none

/-- The option of some letter. -/
def ofLetter? : Char → Option (Setting ⊕ Flag)
  | 'f' => some (.inl .format)
  | 'v' => some (.inr .verbose)
  | 'h' => some (.inr .help)
  | 'V' => some (.inr .version)
  | _ => none

/-- The natural number that some digits stand for. -/
def digits? (cs : List Char) : Option Nat :=
  if cs.isEmpty || !cs.all Char.isDigit then none
  else some (Decimal.ofDigits cs)

/-- A natural number below 2^64, with or without a plus sign. -/
def toUInt64? (value : String) : Option UInt64 := do
  let n ← match value.toList with
    | '+' :: cs => digits? cs
    | cs => digits? cs
  if n < UInt64.size then some (UInt64.ofNat n) else none

/-- A number below 2^32, with or without a sign; the only one with a minus sign is zero. -/
def toUInt32? (value : String) : Option UInt32 := do
  let n ← match value.toList with
    | '+' :: cs => digits? cs
    | '-' :: cs => (digits? cs).filter (· == 0)
    | cs => digits? cs
  if n < UInt32.size then some (UInt32.ofNat n) else none

/-- A path of at least one character. -/
def toPath? (value : String) : Option String := if value.isEmpty then none else some value

/-- The options read so far; the input may still be missing. -/
structure Draft where
  input : Option String := none
  options : Options := { input := "" }
  deriving DecidableEq, Repr, Inhabited

/-- Gives an option its value, unless it has one or the text is none. -/
def Draft.set? (d : Draft) (setting : Setting) (value : String) : Option Draft :=
  let o := d.options
  let put {α : Type} (old new : Option α) (store : Option α → Options) : Option Draft :=
    if old.isSome || new.isNone then none else some { d with options := store new }
  match setting with
  | .format => put o.format (MediaType.ofName value).toOption fun v => { o with format := v }
  | .config => put o.config (toPath? value) fun v => { o with config := v }
  | .fps => put o.fps (toUInt32? value) fun v => { o with fps := v }
  | .loopCount => put o.loopCount (toUInt32? value) fun v => { o with loopCount := v }
  | .limit => put o.limit (toUInt64? value) fun v => { o with limit := v }
  | .baseLayer => put o.baseLayer (toPath? value) fun v => { o with baseLayer := v }

/-- Raises a flag.  Only `verbose` may be raised again; the flags that ask for something else than
a report end the reading. -/
def Draft.raise (d : Draft) (flag : Flag) : Except Request Draft :=
  let o := d.options
  let put (old : Bool) (new : Options) : Except Request Draft :=
    if old then .error .usage else .ok { d with options := new }
  match flag with
  | .live => put o.live { o with live := true }
  | .streaming => put o.streaming { o with streaming := true }
  | .json => put o.json { o with json := true }
  | .verbose => .ok { d with options := { o with verbosity := o.verbosity + 1 } }
  | .help => .error .help
  | .version => .error .version

/-- Takes an argument as the input, unless there is one. -/
def Draft.setInput? (d : Draft) (value : String) : Option Draft :=
  if d.input.isSome then none else do some { d with input := ← toPath? value }

/-- What the options ask for when all arguments are read. -/
def Draft.finish (d : Draft) : Request :=
  match d.input with
  | none => .usage
  | some input =>
    if d.options.live && d.options.fps.isSome then .usage
    else .report { d.options with input := input }

/-- Whether an argument is an option and not a value or the input. -/
def isOption (arg : String) : Bool := arg.startsWith "-" && arg ≠ "-"

/-- Reads a group of one-letter options.  Gives the option at its end that still needs a value. -/
def letters (d : Draft) : List Char → Except Request (Draft × Option Setting)
  | [] => .ok (d, none)
  | c :: rest =>
    match ofLetter? c with
    | none => .error .usage
    | some (.inr flag) =>
      match d.raise flag with
      | .error r => .error r
      | .ok d => letters d rest
    | some (.inl setting) =>
      let value := match rest with
        | '=' :: value => some value
        | [] => none
        | value => some value
      match value with
      | none => .ok (d, some setting)
      | some value =>
        match d.set? setting (String.ofList value) with
        | none => .error .usage
        | some d => .ok (d, none)

/-- Reads a long option, given without its dashes.  Gives the option if it still needs a value. -/
def long (d : Draft) (arg : String) : Except Request (Draft × Option Setting) :=
  let name := String.ofList (arg.toList.takeWhile (· ≠ '='))
  let value := (arg.toList.dropWhile (· ≠ '=')).tail?
  match ofName? name, value with
  | none, _ => .error .usage
  | some (.inr _), some _ => .error .usage
  | some (.inr flag), none => (d.raise flag).map (·, none)
  | some (.inl setting), none => .ok (d, some setting)
  | some (.inl setting), some value =>
    match d.set? setting (String.ofList value) with
    | none => .error .usage
    | some d => .ok (d, none)

/-- Reads the arguments behind those that went into the draft.  The option `waiting` takes the next
argument as its value; `rest` says that `--` was read. -/
def readArgs (d : Draft) (waiting : Option Setting) (rest : Bool) : List String → Request
  | [] => if waiting.isSome then .usage else d.finish
  | arg :: args =>
    match waiting with
    | some setting =>
      if isOption arg then .usage
      else
        match d.set? setting arg with
        | none => .usage
        | some d => readArgs d none rest args
    | none =>
      if rest || !isOption arg then
        match d.setInput? arg with
        | none => .usage
        | some d => readArgs d none rest args
      else if arg = "--" then readArgs d none true args
      else
        let answer :=
          if arg.startsWith "--" then long d (String.ofList (arg.toList.drop 2))
          else letters d (arg.toList.drop 1)
        match answer with
        | .error request => request
        | .ok (d, waiting) => readArgs d waiting rest args

/-- What the arguments of a program ask for. -/
def parse (args : List String) : Request := readArgs {} none false args

end Options

end AnnexB
