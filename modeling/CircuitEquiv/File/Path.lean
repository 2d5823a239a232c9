-- SUMMARY: The parts of file paths: names, stems, extensions, and joining.
/-!
# Paths

Empty parts and single dots between slashes do not count. A dot at the front of a name starts no
extension.
-/

namespace CircuitEquiv.Path

/-- The name of the file at the end of a path; a path that ends in two dots has none. -/
def fileName? (path : String) : Option String :=
  match ((path.splitOn "/").filter fun part => part ≠ "" ∧ part ≠ ".").getLast? with
  | some ".." => none
  | name => name

/-- A name split at its last dot. -/
def splitName (name : String) : String × Option String :=
  match (name.splitOn ".").reverse with
  | extension :: part :: rest =>
    let stem := ".".intercalate (part :: rest).reverse
    if stem = "" then (name, none) else (stem, some extension)
  | _ => (name, none)

/-- The name without its extension. -/
def stem? (path : String) : Option String := (fileName? path).map fun name => (splitName name).1

/-- The extension of the name. -/
def extension? (path : String) : Option String := (fileName? path).bind fun name => (splitName name).2

/-- The path of a file in a directory. -/
def join (directory name : String) : String :=
  if directory = "" ∨ directory.endsWith "/" then directory ++ name else directory ++ "/" ++ name

end CircuitEquiv.Path
