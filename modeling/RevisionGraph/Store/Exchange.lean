import RevisionGraph.Files.Export
import RevisionGraph.Store.Basic

/-!
# Between files and a store
-/

namespace RevisionGraph.RevisionStore

variable {σ : Type} [RevisionStore σ]

/-- Stores one file. -/
def putFile (f : Files) (s : σ) (path : String) : Except Failure String × σ :=
  match f.loadRevision path with
  | .error failure => (.error failure, s)
  | .ok r =>
    let (key, s) := put s r
    (during ("Cannot store " ++ path) key, s)

/-- Stores one file after the other up to the first that fails, and gives the keys. -/
def putFiles (f : Files) (s : σ) : List String → Except Failure (List String) × σ
  | [] => (.ok [], s)
  | path :: rest =>
    match putFile f s path with
    | (.error failure, s) => (.error failure, s)
    | (.ok key, s) =>
      let (keys, s) := putFiles f s rest
      (keys.map (key :: ·), s)

/-- Writes a stored revision to a file, and tells whether it is in the store. -/
def exportStored (s : σ) (key : String) (format : Format) (output : String) : FileTask Bool := do
  match ← FileTask.look fun _ => get? s key with
  | some r =>
    Files.writeRevision format r output
    return true
  | none => return false

end RevisionGraph.RevisionStore
