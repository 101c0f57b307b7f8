import RevisionGraph.Files.Path

/-!
# Locations of files

A location is a place below the root, below the working folder, or below one of the folders that the
working folder lies in. `enter` goes from one location to the next by a name.
-/

namespace RevisionGraph

/-- A folder that is always there. -/
inductive Base where
  | root
  /-- The folder so many levels above the working folder. -/
  | above (levels : Nat)
  deriving DecidableEq, Repr

structure Location where
  base : Base
  /-- The names below the base, the outermost first. -/
  names : List String
  deriving DecidableEq, Repr

namespace Location

/-- Where the names of a path start. -/
def start (path : String) : Location :=
  ⟨if Path.startsAtRoot path then .root else .above 0, []⟩

/-- The folder that a place lies in; the root lies in itself. -/
def outer (l : Location) : Location :=
  match l.base, l.names with
  | .root, [] => l
  | .above levels, [] => ⟨.above (levels + 1), []⟩
  | base, names => ⟨base, names.dropLast⟩

/-- Goes one name further: an empty name and `.` stay where they are, `..` goes back. -/
def enter (l : Location) (name : String) : Location :=
  if name = "" ∨ name = "." then l
  else if name = ".." then l.outer
  else { l with names := l.names ++ [name] }

def baseText : Base → String
  | .root => "/"
  | .above levels => String.join (List.replicate levels "../")

/-- A path that leads to the place without detours. -/
def key (l : Location) : String := baseText l.base ++ "/".intercalate l.names

end Location

end RevisionGraph
