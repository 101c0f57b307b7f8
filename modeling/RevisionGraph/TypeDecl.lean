import RevisionGraph.MethodTable

/-!
# Types of a revision
-/

namespace RevisionGraph

inductive Access where
  | publicAccess
  | privateAccess
  | protectedAccess
  /-- Visible in its package; written as the empty text. -/
  | packageAccess
  deriving DecidableEq, Repr, Inhabited

namespace Access

def all : List Access := [.publicAccess, .privateAccess, .protectedAccess, .packageAccess]

def name : Access → String
  | .publicAccess => "public"
  | .privateAccess => "private"
  | .protectedAccess => "protected"
  | .packageAccess => ""

def ofName? (name : String) : Option Access := all.find? fun access => access.name == name

def ofName (name : String) : Except Error Access :=
  match ofName? name with
  | some access => .ok access
  | none => .error (.unknownAccess name)

theorem ofName?_name (access : Access) : ofName? access.name = some access := by
  cases access <;> decide

theorem ofName_name (access : Access) : ofName access.name = .ok access := by
  rw [ofName, ofName?_name]

end Access

/-- A class or an interface. -/
structure TypeDecl where
  sourceFile : String
  methods : MethodTable
  /-- The nearest one first. -/
  superClasses : List Uri
  superInterfaces : List Uri
  access : Access
  isFinal : Bool
  deriving BEq, Inhabited

namespace TypeDecl

/-- A type of which only the name is known. -/
def placeholder : TypeDecl := ⟨"", ∅, [], [], .packageAccess, false⟩

def addMethod (t : TypeDecl) (method : Method) (candidate : Int64) : Int64 × TypeDecl :=
  let (id, methods) := t.methods.insert method candidate
  (id, { t with methods })

/-- The methods whose entity contains `signature`, in ascending order of their ids. -/
def defined (t : TypeDecl) (signature : String) : List (Int64 × Method) :=
  t.methods.toList.filter fun row => occurs signature.toList row.2.entityChars

/-- The method with the lowest id whose entity contains `signature`. -/
def defined? (t : TypeDecl) (signature : String) : Option (Int64 × Method) :=
  t.methods.toList.find? fun row => occurs signature.toList row.2.entityChars

end TypeDecl

end RevisionGraph
