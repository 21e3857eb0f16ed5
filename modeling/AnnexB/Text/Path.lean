/-
# File paths

A path is a sequence of names between slashes.  Empty names and the name `.` stand for nothing.
-/

namespace AnnexB
namespace Path

/-- The names of a path that stand for something. -/
def names (path : String) : List String :=
  (path.splitOn "/").filter fun name => name ≠ "" ∧ name ≠ "."

/-- Whether two paths are spelled alike but for what stands for nothing. -/
def same (a b : String) : Bool :=
  names a == names b && a.startsWith "/" == b.startsWith "/"

/-- The name of the file that a path leads to. -/
def fileName? (path : String) : Option String :=
  match (names path).getLast? with
  | some ".." => none
  | name => name

/-- The part of a file name behind its last point, unless nothing stands before that point. -/
def extension? (path : String) : Option String := do
  let parts := (← fileName? path).splitOn "."
  if parts.length < 2 then none
  else if parts.length = 2 ∧ parts.head? = some "" then none
  else parts.getLast?

end Path
end AnnexB
