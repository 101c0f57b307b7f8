import RevisionGraph.Failure
import RevisionGraph.Settings.Toml

/-!
# Settings
-/

namespace RevisionGraph

structure Settings where
  logLevel : String := "info"
  /-- The number of workers; half the cores where it is not set. -/
  workers : Option UInt64 := none
  /-- The folder of the revision store. -/
  storePath : Option String := none
  pretty : Bool := false
  deriving DecidableEq, Inhabited

namespace Settings

/-- Sets one entry, if its name and the kind of its value are known. -/
def assign (s : Settings) : String × Toml.Scalar → Option Settings
  | ("log_level", .text level) => some { s with logLevel := level }
  | ("workers", .integer n) => (uint64? n).map fun n => { s with workers := some n }
  | ("store_path", .text path) => some { s with storePath := some path }
  | ("pretty", .bool b) => some { s with pretty := b }
  | _ => none

def ofEntries? (entries : List (String × Toml.Scalar)) : Option Settings :=
  if (entries.map Prod.fst).Nodup then entries.foldlM assign {} else none

def parse (text : String) : Except Failure Settings :=
  during "Invalid settings" <|
    match (Toml.read? text).bind ofEntries? with
    | some settings => .ok settings
    | none => .error ⟨[], .toml⟩

end Settings

end RevisionGraph
