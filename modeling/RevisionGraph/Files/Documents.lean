import RevisionGraph.Document.Text
import RevisionGraph.Files.Basic
import RevisionGraph.Settings.Basic

/-!
# Documents in files
-/

namespace RevisionGraph

namespace Files

def readRevision (f : Files) (path : String) : Except Failure Decoded := do
  let bytes ← f.load path
  during ("Invalid revision call graph: " ++ path) (Decoded.parse (Runes.ofBytes bytes))

def readFacts (f : Files) (path : String) : Except Failure Facts := do
  let bytes ← f.load path
  during ("Invalid facts document: " ++ path) (Facts.ofText (Runes.ofBytes bytes))

end Files

namespace Settings

def defaultPath : String := "revcg.toml"

def load (f : Files) (path : String) : Except Failure Settings := do
  let task := "Cannot read config file: " ++ path
  let bytes ← (f.fetch path).mapError fun fault => ⟨[task], .file fault⟩
  match String.fromUTF8? bytes with
  | some text => during ("In config file: " ++ path) (parse text)
  | none => .error ⟨[task], .file (.other "stream did not contain valid UTF-8")⟩

/-- The settings at a path that is given, or those at the default path if there is a file. -/
def resolve (f : Files) (path : Option String) : Except Failure Settings :=
  match path with
  | some path => load f path
  | none =>
    match f.fetch defaultPath with
    | .ok _ => load f defaultPath
    | .error _ => .ok {}

end Settings

end RevisionGraph
