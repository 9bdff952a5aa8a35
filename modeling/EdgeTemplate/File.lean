import EdgeTemplate.Text.Quoted

/-!
# Files that cannot be read

A path is brought to its plain form before it is used: empty and `.` components are dropped, a path
without components is `.`, and exactly two leading slashes are kept as they are.
-/

namespace EdgeTemplate

/-- Neither a path nor the value of a variable may hold a null character. -/
def holdsNull (text : String) : Bool := text.toList.contains '\x00'

def embeddedNullMessage : String := "embedded null byte"

def pathRoot : List Char → List Char
  | '/' :: '/' :: '/' :: _ => ['/']
  | '/' :: '/' :: _ => ['/', '/']
  | '/' :: _ => ['/']
  | _ => []

def pathParts (path : String) : List String := (path.splitOn "/").filter fun part => part != "" && part != "."

def normalizePath (path : String) : String :=
  let plain := String.ofList (pathRoot path.toList) ++ "/".intercalate (pathParts path)
  if plain = "" then "." else plain

inductive FileFault where
  | missing
  | denied
  | isDirectory
  | nameTooLong
  deriving DecidableEq

/-- The fault and the path that it concerns. -/
def FileFault.message (path : String) (fault : FileFault) : String :=
  let cause := match fault with
    | .missing => "[Errno 2] No such file or directory"
    | .denied => "[Errno 13] Permission denied"
    | .isDirectory => "[Errno 21] Is a directory"
    | .nameTooLong => "[Errno 36] File name too long"
  cause ++ ": " ++ String.ofList (quoted path.toList)

/-- The most bytes that a path and one of its components may take. -/
def maxPathBytes : Nat := 4095

def maxNameBytes : Nat := 255

/-- What is wrong with reading a path from an empty directory: it only goes up to a directory, or its
first other component is not there. -/
def FileFault.inEmptyDirectory (path : String) : FileFault :=
  if (normalizePath path).utf8ByteSize > maxPathBytes then .nameTooLong
  else
    match (pathParts path).find? (· != "..") with
    | none => .isDirectory
    | some name => if name.utf8ByteSize > maxNameBytes then .nameTooLong else .missing

end EdgeTemplate
