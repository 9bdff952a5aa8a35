import EdgeTemplate.Listing

/-!
# Command line

Prints the listing of one template file. The exit code is 1 if the template could not be read and 2
if the command line is wrong.
-/

open EdgeTemplate

def listFile (path : String) : IO Listing := do
  try
    let contents ← IO.FS.readFile path
    return .ofContents (fun text => .ok (.parse text)) contents.toList
  catch
    | .noFileOrDirectory .. => return .unreadable path .missing
    | .inappropriateType .. => return .unreadable path .isDirectory
    | .permissionDenied .. => return .unreadable path .denied
    | .invalidArgument .. => return .unreadable path .nameTooLong
    | fault => throw fault

def main (arguments : List String) : IO UInt32 := do
  match arguments with
  | [path] =>
    let listing ← listFile (normalizePath path)
    IO.print listing.output
    return if listing.readable then 0 else 1
  | _ =>
    IO.println "Usage: edge-template path/to/template.edge"
    return 2
