-- SUMMARY: File systems held in memory: where paths lead, what is read there, and what writing there changes.
/-!
# File systems

A path leads from the root or from the working directory over directories to a place, part by part:
a single dot stays in a directory, two dots leave it, a name enters what has that name. Only the
last name may lead to nothing. A name has at most 255 bytes and a path at most 4095.
-/

namespace CircuitEquiv

/-- A place: the names on the way to it from the root, the last one first. -/
abbrev Location := List String

/-- What stands at a place. -/
inductive Entry where
  | directory
  | file (content : List UInt8)
  /-- Takes what is written and keeps nothing of it. -/
  | sink
  /-- Has no room for what is written. -/
  | full
  /-- Prints what is written. -/
  | printer
deriving DecidableEq

/-- The things that stand in a file system, and the directory that paths start from. -/
structure FileSystem where
  entries : List (Location × Entry)
  home : Location

namespace FileSystem

/-- What stands at a place. -/
def get? (fs : FileSystem) (place : Location) : Option Entry := fs.entries.lookup place

/-- Whether a directory stands at a place. -/
def isDirectory (fs : FileSystem) (place : Location) : Bool := fs.get? place == some .directory

/-- Puts something at a place, instead of what was there. -/
def put (fs : FileSystem) (place : Location) (entry : Entry) : FileSystem :=
  { fs with entries := (place, entry) :: fs.entries }

@[simp]
theorem get?_put_self (fs : FileSystem) (place : Location) (entry : Entry) :
    (fs.put place entry).get? place = some entry := by
  simp [put, get?]

theorem get?_put_of_ne (fs : FileSystem) {place other : Location} (entry : Entry)
    (h : other ≠ place) : (fs.put place entry).get? other = fs.get? other := by
  simp [put, get?, List.lookup_cons, beq_eq_false_iff_ne.2 h]

/-! ## Paths -/

/-- The parts of a path between its slashes. -/
def pathParts (path : String) : List String := (path.splitOn "/").filter (· ≠ "")

/-- Whether a path names a directory: a slash ends it. -/
def namesDirectory (path : String) : Bool := path.endsWith "/"

/-- Whether a path and the names in it are short enough. -/
def isWithinLimits (path : String) : Bool :=
  path.utf8ByteSize ≤ 4095 && (pathParts path).all (·.utf8ByteSize ≤ 255)

/-- Where a path starts: a slash in front stands for the root. -/
def start (fs : FileSystem) (path : String) : Location :=
  if path.startsWith "/" then [] else fs.home

/-- The place that the parts lead to; what is left or entered on the way has to be a directory. -/
def follow? (fs : FileSystem) (place : Location) : List String → Option Location
  | [] => some place
  | part :: rest =>
    if !fs.isDirectory place then none
    else if part = "." then fs.follow? place rest
    else if part = ".." then fs.follow? (place.drop 1) rest
    else fs.follow? (part :: place) rest

/-- The place that a path leads to; something need not stand there. The empty path leads nowhere. -/
def locate? (fs : FileSystem) (path : String) : Option Location :=
  if path = "" ∨ !isWithinLimits path then none
  else fs.follow? (fs.start path) (pathParts path)

/-- Makes the directories that are missing on the way along the parts. A name that is followed by
single dots only is not made: the dots need it already. -/
def makeAlong? (fs : FileSystem) (place : Location) : List String → Option FileSystem
  | [] => some fs
  | part :: rest =>
    if part = "." then fs.makeAlong? place rest
    else if part = ".." then fs.makeAlong? (place.drop 1) rest
    else
      match fs.get? (part :: place) with
      | some .directory => fs.makeAlong? (part :: place) rest
      | some _ => none
      | none =>
        if rest ≠ [] ∧ rest.all (· = ".") then none
        else (fs.put (part :: place) .directory).makeAlong? (part :: place) rest

/-- Makes a directory and the ones on the way to it, unless something else is in the way. -/
def makeDirectory? (fs : FileSystem) (path : String) : Option FileSystem :=
  if isWithinLimits path then fs.makeAlong? (fs.start path) (pathParts path) else none

/-! ## Files -/

/-- The content of a file, if it can be read. -/
def read? (fs : FileSystem) (path : String) : Option (List UInt8) := do
  let place ← fs.locate? path
  if namesDirectory path then none
  match ← fs.get? place with
  | .file content => some content
  | .sink => some []
  | .directory | .full | .printer => none

/-- What writing to a path does: the file system afterwards, and what is printed. -/
def write? (fs : FileSystem) (path content : String) : Option (FileSystem × String) := do
  let place ← fs.locate? path
  if namesDirectory path then none
  match fs.get? place with
  | some .directory | some .full => none
  | some .sink => some (fs, "")
  | some .printer => some (fs, content)
  | some (.file _) | none => some (fs.put place (.file content.toUTF8.toList), "")

/-! ## Construction -/

/-- The directory in which a program is started. -/
def workingDirectory : Location := ["work", "tmp"]

/-- A file system with an empty working directory and the usual devices. -/
def empty : FileSystem where
  entries := [([], .directory), (["tmp"], .directory), (workingDirectory, .directory),
    (["dev"], .directory), (["null", "dev"], .sink), (["full", "dev"], .full),
    (["stdout", "dev"], .printer), (["stderr", "dev"], .sink)]
  home := workingDirectory

/-- Adds a file and the directories on the way to it. -/
def addFile (fs : FileSystem) (path : String) (content : List UInt8) : FileSystem :=
  let parts := pathParts path
  let made := (fs.makeAlong? fs.home parts.dropLast).getD fs
  match made.follow? fs.home parts with
  | some place => made.put place (.file content)
  | none => fs

/-- A file system whose working directory holds the given files. -/
def ofFiles (files : List (String × List UInt8)) : FileSystem :=
  files.foldl (fun fs (path, content) => fs.addFile path content) empty

end FileSystem

end CircuitEquiv
