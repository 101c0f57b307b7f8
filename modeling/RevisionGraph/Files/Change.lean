import RevisionGraph.Files.Basic

/-!
# Changes of files

A `FileTask` changes files one after the other, and what it has changed stays if it fails later.
`Files.write` makes the folders that a file lies in, then the file.
-/

namespace RevisionGraph

namespace Files

/-- Makes one folder in a folder that is there. -/
def makeFolder (f : Files) (path : String) : Except FileFault Files := do
  let l ← f.locate path
  if f.isFile l ∨ f.isFolder l then throw .alreadyThere
  return { f with folders := f.folders.insert l.key () }

/-- Writes a file in a folder that is there. -/
def put (f : Files) (path : String) (bytes : ByteArray) : Except FileFault Files := do
  let l ← f.locate path
  if f.isFolder l then throw .isAFolder
  return { f with contents := f.contents.insert l.key bytes }

/-- Changes that may stop at a fault. -/
abbrev Change := ExceptT FileFault (StateM Files)

def change (result : Files → Except FileFault Files) : Change Unit := do
  set (← ExceptT.mk (return result (← get)))

/-- Makes a folder, unless it is there. -/
def makeOrKeep (path : String) : Change Unit :=
  tryCatch (change (·.makeFolder path)) fun fault => do
    unless (← get).hasFolder path do throw fault

/-- Makes the folder at the first of some paths, each of which lies in the next one. The others are
made only if something is missing on the way. -/
def makeLineage : List String → Change Unit
  | [] => throw .notFound
  | path :: outer => do
    if path = "" then return
    if (← get).makeFolder path matches .error .notFound then makeLineage outer
    makeOrKeep path

/-- Makes a folder and those that it lies in, unless they are there. -/
def makeFolders (path : String) : Change Unit := makeLineage (Path.lineage path)

/-- Makes the folders that the place of a path lies in. -/
def makeParents (path : String) : Change Unit := makeFolders ((Path.parent? path).getD "")

end Files

/-- A task that may change files. -/
abbrev FileTask := ExceptT Failure (StateM Files)

namespace FileTask

/-- A task that only looks at the files. -/
def look {α : Type} (result : Files → Except Failure α) : FileTask α :=
  ExceptT.mk (return result (← get))

/-- Names the task that `task` is part of. -/
def during {α : Type} (name : String) (task : FileTask α) : FileTask α :=
  ExceptT.adapt (Failure.within name) task

def ofChange (name : String) (change : Files.Change Unit) : FileTask Unit :=
  ExceptT.adapt (fun fault => ⟨[name], .file fault⟩) change

end FileTask

namespace Files

def write (path text : String) : FileTask Unit := do
  FileTask.ofChange ("Cannot create directory " ++ (Path.parent? path).getD "") (makeParents path)
  FileTask.ofChange ("Cannot write " ++ path) (change (·.put path text.toUTF8))

/-- The files after a file is added, with the folders that it lies in. -/
def add (f : Files) (path : String) (bytes : ByteArray) : Files :=
  (do makeParents path; change (·.put path bytes) : Change Unit).run.run f |>.2

end Files

end RevisionGraph
