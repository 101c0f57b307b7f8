import RevisionGraph.Failure
import RevisionGraph.Files.Location
import RevisionGraph.Ordered.Map

/-!
# Files

`Files` are the files and folders that a command sees. `Files.locate` follows a path from folder to
folder, and `Files.load` reads the file at its end.
-/

namespace RevisionGraph

structure Files where
  contents : SortedMap String ByteArray
  folders : SortedMap String Unit

namespace Files

def empty : Files := ⟨∅, ∅⟩

instance : EmptyCollection Files := ⟨empty⟩

def isFile (f : Files) (l : Location) : Bool := f.contents.contains l.key

def isFolder (f : Files) (l : Location) : Bool := l.names.isEmpty || f.folders.contains l.key

/-- The place that a name leads to. Every name, `..` too, leads on from folders only. -/
def step (f : Files) (l : Location) (name : String) : Except FileFault Location :=
  if f.isFile l then .error .notAFolder
  else if !f.isFolder l then .error .notFound
  else if Path.longestName < name.utf8ByteSize then .error .nameTooLong
  else .ok (l.enter name)

/-- The place that a path leads to. It need not be there, but all places on the way are. -/
def locate (f : Files) (path : String) : Except FileFault Location :=
  if path.toList.contains '\x00' then .error .badName
  else if path = "" then .error .notFound
  else if Path.longest < path.utf8ByteSize then .error .nameTooLong
  else (Path.names path).foldlM f.step (Location.start path)

def hasFolder (f : Files) (path : String) : Bool :=
  match f.locate path with
  | .ok l => f.isFolder l
  | .error _ => false

def fetch (f : Files) (path : String) : Except FileFault ByteArray := do
  let l ← f.locate path
  match f.contents.get? l.key with
  | some bytes => return bytes
  | none => throw (if f.isFolder l then .isAFolder else .notFound)

/-- A folder can be opened, but not read. -/
def load (f : Files) (path : String) : Except Failure ByteArray :=
  match f.fetch path with
  | .ok bytes => .ok bytes
  | .error .isAFolder => .error ⟨["Cannot read " ++ path], .file .isAFolder⟩
  | .error fault => .error ⟨["Cannot open " ++ path], .file fault⟩

def text? (f : Files) (path : String) : Option String :=
  match f.fetch path with
  | .ok bytes => String.fromUTF8? bytes
  | .error _ => none

end Files

end RevisionGraph
