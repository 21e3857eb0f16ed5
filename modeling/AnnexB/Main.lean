/-
# The report as a program

Reads the files that the arguments name, runs the report over them, prints what it leaves behind
and writes the file that it has written.
-/

import AnnexB.Report.Run

namespace AnnexB

/-- The bytes behind a handle; for a directory, none can be read. -/
def readAll (handle : IO.FS.Handle) : IO FileHandle := do
  try
    return .openRead (← handle.readBinToEnd).toList
  catch _ => return .openDirectory

/-- The file or directory at a path, opened for reading. -/
def openFile? (path : String) : IO (Option FileHandle) := do
  try
    return some (← readAll (← IO.FS.Handle.mk path .read))
  catch _ => return none

/-- How the program is called. -/
def usageText : String := "nalu-info [OPTIONS] <INPUT>"

/-- Prints an outcome, and gives the exit code. -/
def finish (r : Outcome) (json : Bool) : IO UInt32 := do
  for line in r.print json do
    IO.println line
  if let some e := r.error then
    IO.eprintln ("错误: " ++ e)
  return UInt32.ofNat r.exitCode

/-- Runs a report over the files that its options name. -/
def runReport (o : Options) : IO UInt32 := do
  let input ← openFile? o.input
  let config ← match o.config with
    | some path => openFile? path
    | none => pure none
  let openRead (path : String) : Option FileHandle :=
    if some path = o.config then config else if path = o.input then input else none
  let outcome := o.run { openRead, canCreate := fun _ => true }
  match outcome.written with
  | none => finish outcome o.json
  | some (path, bytes) =>
    try
      IO.FS.writeBinFile path (ByteArray.mk bytes.toArray)
      finish outcome o.json
    catch _ => finish (.cannotCreate path) o.json

end AnnexB

/-- The program. -/
def main (args : List String) : IO UInt32 := do
  match AnnexB.Options.parse args with
  | .report options => AnnexB.runReport options
  | .version =>
    IO.println AnnexB.versionLine
    return 0
  | .help =>
    IO.println AnnexB.usageText
    return 0
  | .usage =>
    IO.eprintln AnnexB.usageText
    return 2
