import RevisionGraph.Assembly.Assembler
import RevisionGraph.Document.Encode
import RevisionGraph.Dot
import RevisionGraph.Files.Change
import RevisionGraph.Files.Documents
import RevisionGraph.Summary

/-!
# Checking, converting and assembling files
-/

namespace RevisionGraph

/-- The form in which a revision is written. -/
inductive Format where
  | json (pretty : Bool)
  | dot
  deriving DecidableEq, Repr

def Format.render (format : Format) (r : Revision) : String :=
  match format with
  | .json false => r.compact
  | .json true => r.pretty
  | .dot => Dot.text r

namespace Files

def loadRevision (f : Files) (path : String) : Except Failure Revision :=
  return (← f.readRevision path).revision

/-- Each path with its revision or the reason why there is none. -/
def loadMany (f : Files) (paths : List String) : List (String × Except Failure Revision) :=
  paths.map fun path => (path, f.loadRevision path)

/-- Reads a revision and checks the ends of its calls. -/
def validate (f : Files) (path : String) : Except Failure Summary := do
  let r ← f.loadRevision path
  during ("Inconsistent call graph: " ++ path) (checked r.validate)
  return .ofRevision r

def writeRevision (format : Format) (r : Revision) (output : String) : FileTask Unit :=
  write output (format.render r)

def convert (format : Format) (input output : String) : FileTask Summary := do
  let r ← FileTask.look (·.loadRevision input)
  FileTask.during ("Failed to export to " ++ output) (writeRevision format r output)
  return .ofRevision r

/-- Writes the revision that a facts document describes. -/
def assemble (pretty : Bool) (facts output : String) : FileTask Summary := do
  let document ← FileTask.look (·.readFacts facts)
  let r ← FileTask.look fun _ => during ("Cannot assemble " ++ facts) document.assemble
  writeRevision (.json pretty) r output
  return .ofRevision r

end Files

end RevisionGraph
