/-
# Open files

A file is opened for reading or for writing, and refuses the other; a directory can be opened like
a file, and refuses both.  To write nothing is never refused.  A write behind the end fills the gap
with zeros.  Positions run from 0 to 2^63 - 1, and a seek to any other is refused.
-/

import AnnexB.Storage.Basic

namespace AnnexB

/-- What a file is opened for. -/
inductive FileAccess where
  | reading
  | writing
  /-- A directory is open, which has no bytes of its own. -/
  | listing
  deriving DecidableEq, Repr, Inhabited

/-- The bytes of a file, a position, and what it is opened for. -/
structure FileHandle where
  data : Array UInt8
  position : Nat
  access : FileAccess
  deriving DecidableEq, Repr, Inhabited

namespace FileHandle

/-- A file with some bytes, opened for reading. -/
def openRead (bytes : List UInt8) : FileHandle := ⟨bytes.toArray, 0, .reading⟩

/-- An empty file, opened for writing. -/
def create : FileHandle := ⟨#[], 0, .writing⟩

/-- A directory, opened like a file. -/
def openDirectory : FileHandle := ⟨#[], 0, .listing⟩

/-- The file after someone else has emptied it. -/
def emptied (f : FileHandle) : FileHandle := { f with data := #[] }

def read (n : Nat) (f : FileHandle) : Except StorageFailure (Array UInt8) × FileHandle :=
  match f.access with
  | .reading =>
    let bytes := f.data.extract f.position (f.position + n)
    (.ok bytes, { f with position := f.position + bytes.size })
  | _ => (.error .system, f)

def write (bytes : List UInt8) (f : FileHandle) : Except StorageFailure Unit × FileHandle :=
  if bytes.isEmpty then (.ok (), f)
  else
    match f.access with
    | .writing =>
      let gap := f.position - f.data.size
      let data :=
        if f.position ≥ f.data.size then
          (f.data.appendList (List.replicate gap 0)).appendList bytes
        else (f.data.extract 0 f.position).appendList bytes
          ++ f.data.extract (f.position + bytes.length) f.data.size
      (.ok (), { f with data, position := f.position + bytes.length })
    | _ => (.error .system, f)

/-- The new position, before its limits are looked at. -/
def target (f : FileHandle) : SeekTarget → Int
  | .start offset => offset.toNat
  | .current offset => f.position + offset.toInt
  | .stop offset => f.data.size + offset.toInt

def seek (place : SeekTarget) (f : FileHandle) : Except StorageFailure Nat × FileHandle :=
  let target := f.target place
  if target < 0 ∨ Int64.maxValue.toInt < target then (.error .system, f)
  else (.ok target.toNat, { f with position := target.toNat })

instance : Storage FileHandle where
  read := read
  write := write
  seek := seek
  position f := (.ok f.position, f)
  size f := some f.data.size
  contents _ := none
  remaining f := f.data.size - f.position

end FileHandle

end AnnexB
