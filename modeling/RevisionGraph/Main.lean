import RevisionGraph.Command.Run

/-!
# The program

Looks up the files that a command may touch, runs the command on them and writes those that it
changed.
-/

namespace RevisionGraph

/-- Adds the file or folder at a place, if it lies in a folder that is there. -/
def look (f : Files) (l : Location) : IO Files := do
  unless f.isFolder l.outer && !f.isFolder l do return f
  try
    let bytes ← IO.FS.readBinFile l.key
    return { f with contents := f.contents.insert l.key bytes }
  catch
    | .inappropriateType .. => return { f with folders := f.folders.insert l.key () }
    | _ => return f

/-- Adds what is found on the way to a path. -/
def lookAlong (f : Files) (path : String) : IO Files := do
  let (_, found) ← (Path.names path).foldlM
    (fun (l, found) name => return (l.enter name, ← look found (l.enter name)))
    (Location.start path, f)
  return found

def lookAll (f : Files) (paths : List String) : IO Files := paths.foldlM lookAlong f

/-- Writes the folders and files of `after` that are not in `before`. -/
def writeChanges (before after : Files) : IO Unit := do
  for (key, _) in after.folders.toList do
    unless before.folders.contains key do IO.FS.createDirAll key
  for (key, bytes) in after.contents.toList do
    unless before.contents.get? key == some bytes do IO.FS.writeBinFile key bytes

/-- The files that a command line may touch. -/
def findFiles (texts : List String) : IO Files := do
  match Invocation.parse texts with
  | .error _ => return ∅
  | .ok invocation =>
    let found ← lookAll ∅ [invocation.config.getD Settings.defaultPath]
    match Settings.resolve found invocation.config with
    | .error _ => return found
    | .ok settings => lookAll found (invocation.command.paths settings)

end RevisionGraph

open RevisionGraph in
def main (texts : List String) : IO UInt32 := do
  let before ← findFiles texts
  let report := Report.ofArguments before texts
  writeChanges before report.files
  IO.print report.output
  for message in report.messages do IO.eprintln message
  return report.code.toUInt32
