import RevisionGraph.Scope
import RevisionGraph.Text.Integer
import RevisionGraph.Uri.Parts

/-!
# Errors of the model

`Error` holds the causes for which a revision cannot be built, read or accepted, and
`Error.message` their wording.
-/

namespace RevisionGraph

/-- The place of a field in a document. -/
inductive FieldPath where
  | root (name : String)
  | field (parent : FieldPath) (name : String)
  | entry (parent : FieldPath) (key : String)
  deriving DecidableEq, Repr

def FieldPath.text : FieldPath → String
  | .root name => name
  | .field parent name => parent.text ++ "." ++ name
  | .entry parent key => parent.text ++ "[" ++ key ++ "]"

inductive Error where
  | malformedUri (uri : String) (flaw : Uri.Flaw)
  | missingField (path : FieldPath)
  | invalidId (path : FieldPath) (text : String)
  | unknownAccess (name : String)
  | unknownScope (name : String)
  | danglingEdge (relation : Relation) (caller callee : Int64)
  | scopeConflict (uri : String) (first second : Scope)
  | duplicateMethod (path : FieldPath) (uri : String)
  | typeNotFound (uri : String) (scope : Scope)
  deriving DecidableEq, Repr

def Error.message : Error → String
  | .malformedUri uri flaw => "malformed URI '" ++ uri ++ "': " ++ flaw.message
  | .missingField path => "missing required field: " ++ path.text
  | .invalidId path text => "invalid id in " ++ path.text ++ ": '" ++ text ++ "'"
  | .unknownAccess name => "unknown access modifier: '" ++ name ++ "'"
  | .unknownScope name => "unknown scope: '" ++ name ++ "'"
  | .danglingEdge relation caller callee =>
    "dangling edge (" ++ idText caller ++ ", " ++ idText callee ++ ") in " ++ relation.name
  | .scopeConflict uri first second =>
    "type '" ++ uri ++ "' declared in both " ++ first.name ++ " and " ++ second.name
  | .duplicateMethod path uri => "duplicate method '" ++ uri ++ "' at " ++ path.text
  | .typeNotFound uri scope => "type '" ++ uri ++ "' not found in " ++ scope.name

def Scope.ofName (name : String) : Except Error Scope :=
  match Scope.ofName? name with
  | some scope => .ok scope
  | none => .error (.unknownScope name)

end RevisionGraph
