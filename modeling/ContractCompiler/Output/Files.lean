import ContractCompiler.Text.Utf8

/-!
# Files

A working directory as a value: the files in it by path, and what reading a path gives.
-/

namespace ContractCompiler

/-- The part that a path from the root of the file system starts with. -/
def rootPart : String := "/"

/-- The place reached from `here` by one part of a path: an empty part and `.` stay, `..` goes back. -/
def movePart (here : List String) (part : String) : List String :=
  if part = "" || part = "." then here
  else if part = ".." then
    match here.getLast? with
    | none | some ".." => here ++ [".."]
    | some last => if last = rootPart then here else here.dropLast
  else here ++ [part]

/-- Where a path starts, and the parts to go from there. -/
def pathStart (path : String) : List String × List String :=
  (if path.startsWith "/" then [rootPart] else [], (path.toList.splitOn '/').map String.ofList)

/-- The place that a path names, as the parts of its shortest form. -/
def pathParts (path : String) : List String :=
  let (start, parts) := pathStart path
  parts.foldl movePart start

/-- The places that the parts of a path go through from `here` on, the last one left out. -/
def placesPassed (here : List String) : List String → List (List String)
  | [] => []
  | part :: parts => here :: placesPassed (movePart here part) parts

/-- The directories that a file at a path is in or reached through. -/
def pathDirectories (path : String) : List (List String) :=
  let (start, parts) := pathStart path
  placesPassed start parts

/-- A path from a directory. One from the root of the file system does not depend on the directory. -/
def joinPath (dir path : String) : String :=
  if path.startsWith "/" then path
  else if dir = "" || dir.endsWith "/" then dir ++ path
  else dir ++ "/" ++ path

/-- The files of a directory, each by the parts of its path and its bytes, and the directories that
have been made for them. -/
structure Files where
  entries : List (List String × List UInt8)
  directories : List (List String)

/-- Why a file cannot be read as text. -/
inductive ReadError where
  | notFound | notADirectory | isADirectory | nameTooLong | notAPath | notText
deriving DecidableEq, Repr

/-- The wording of a failure to read. -/
def ReadError.message : ReadError → String
  | .notFound => "No such file or directory (os error 2)"
  | .notADirectory => "Not a directory (os error 20)"
  | .isADirectory => "Is a directory (os error 21)"
  | .nameTooLong => "File name too long (os error 36)"
  | .notAPath => "file name contained an unexpected NUL byte"
  | .notText => "stream did not contain valid UTF-8"

namespace Files

/-- A directory without files. -/
def empty : Files := ⟨[], []⟩

/-- The bytes of the file with these parts. -/
def lookup (fs : Files) (parts : List String) : Option (List UInt8) :=
  (fs.entries.find? fun entry => entry.1 = parts).map Prod.snd

/-- The directory after a file has been written, in the place of one of that path if there is one. The
directories on its path are made. -/
def write (fs : Files) (path : String) (bytes : List UInt8) : Files :=
  let parts := pathParts path
  ⟨fs.entries.filter (fun entry => entry.1 ≠ parts) ++ [(parts, bytes)],
    fs.directories ++ (pathDirectories path).filter fun place => place ∉ fs.directories⟩

/-- Whether a place is a directory: the root, the working directory, one above it, or one that has
been made. -/
def isDirectory (fs : Files) (parts : List String) : Bool :=
  parts = [rootPart] || parts.all (· = "..") || parts ∈ fs.directories

/-- The largest number of bytes that one part of a path may have. -/
def maxPartSize : Nat := 255

/-- The largest number of bytes that a path may have. -/
def maxPathSize : Nat := 4095

/-- Goes along the parts of a path. All that it goes through must be directories. -/
def walk (fs : Files) : List String → List String → Except ReadError (List String)
  | here, [] => .ok here
  | here, part :: parts =>
    if (fs.lookup here).isSome then .error .notADirectory
    else if !fs.isDirectory here then .error .notFound
    else if maxPartSize < part.utf8ByteSize then .error .nameTooLong
    else fs.walk (movePart here part) parts

/-- The bytes at a path. A text that holds a NUL is no path. -/
def readBytes (fs : Files) (path : String) : Except ReadError (List UInt8) := do
  if path.contains '\x00' then throw .notAPath
  if path = "" then throw .notFound
  if maxPathSize < path.utf8ByteSize then throw .nameTooLong
  let (start, parts) := pathStart path
  let place ← fs.walk start parts
  match fs.lookup place with
  | some bytes => return bytes
  | none => if fs.isDirectory place then throw .isADirectory else throw .notFound

/-- Whether there is something at a path. -/
def pathExists (fs : Files) (path : String) : Bool :=
  match fs.readBytes path with
  | .ok _ | .error .isADirectory => true
  | .error _ => false

/-- The text at a path. -/
def readText (fs : Files) (path : String) : Except ReadError String :=
  match fs.readBytes path with
  | .error e => .error e
  | .ok bytes =>
    match Text.decode? bytes with
    | some text => .ok text
    | none => .error .notText

/-- The paths and bytes of all files, in the order of their paths. -/
def listing (fs : Files) : List (String × List UInt8) :=
  (fs.entries.map fun entry => ("/".intercalate entry.1, entry.2)).mergeSort fun a b => a.1 ≤ b.1

end Files

end ContractCompiler
