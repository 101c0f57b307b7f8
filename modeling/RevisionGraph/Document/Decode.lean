import RevisionGraph.Document.Basic
import RevisionGraph.Revision

/-!
# From a document to its revision

`Document.decode` checks a document field by field, in the order of `Document.fieldNames` but with
the time last, and stops at the first error. Only the time never leads to an error: where it is
missing or no integer the revision gets an unknown time and a `Warning`.
-/

namespace RevisionGraph

open Json

/-- What the decoder noticed about the time of a revision. -/
inductive Warning where
  | missingTimestamp
  | invalidTimestamp (value : Value)

def Warning.message : Warning → String
  | .missingTimestamp => "no timestamp provided: assuming -1"
  | .invalidTimestamp value => "invalid timestamp " ++ value.compact ++ ": assuming -1"

structure Decoded where
  revision : Revision
  warnings : List Warning

namespace Document

def require {α : Type} (path : FieldPath) : Option α → Except Error α
  | some a => .ok a
  | none => .error (.missingField path)

def decodeId (path : FieldPath) (text : String) : Except Error Int64 :=
  match readId? text with
  | some id => .ok id
  | none => .error (.invalidId path text)

/-- Adds an entry of a method map at `path` to a table. -/
def decodeMethod (path : FieldPath) (t : MethodTable) (key : String) (e : MethodEntry) :
    Except Error MethodTable := do
  let place := path.entry key
  let id ← decodeId path key
  let uri ← Uri.parse (← require (place.field "uri") e.uri)
  let metadata ← require (place.field "metadata") e.metadata
  if t.containsUri uri || t.containsId id then throw (.duplicateMethod place uri.text)
  return (t.insert ⟨uri, metadata⟩ id).2

def decodeMethods (path : FieldPath) (methods : SortedMap String MethodEntry) :
    Except Error MethodTable :=
  methods.toList.foldlM (fun t entry => decodeMethod path t entry.1 entry.2) ∅

def decodeType (path : FieldPath) (e : TypeEntry) : Except Error TypeDecl := do
  let sourceFile ← require (path.field "sourceFile") e.sourceFile
  let methods ← decodeMethods (path.field "methods") (← require (path.field "methods") e.methods)
  let superClasses ← (← require (path.field "superClasses") e.superClasses).mapM Uri.parse
  let superInterfaces ←
    (← require (path.field "superInterfaces") e.superInterfaces).mapM Uri.parse
  let access ← Access.ofName (← require (path.field "access") e.access)
  let isFinal ← require (path.field "final") e.isFinal
  return ⟨sourceFile, methods, superClasses, superInterfaces, access, isFinal⟩

def decodeTypeEntry (path : FieldPath) (entry : String × TypeEntry) :
    Except Error (Uri × TypeDecl) := do
  let uri ← Uri.parse entry.1
  return (uri, ← decodeType (path.entry entry.1) entry.2)

def scopePath (scope : Scope) : FieldPath := (FieldPath.root "cha").field scope.name

def decodeTypes (scope : Scope) (types : Option (SortedMap String TypeEntry)) :
    Except Error TypeMap := do
  let types ← require (scopePath scope) types
  return .ofList (← types.toList.mapM (decodeTypeEntry (scopePath scope)))

def decodeHierarchy (t : Types) : Except Error Hierarchy := do
  let internal ← decodeTypes .internal t.internal
  let external ← decodeTypes .external t.external
  let resolved ← decodeTypes .resolved t.resolved
  Hierarchy.ofScopes internal external resolved

def relationPath (relation : Relation) : FieldPath := (FieldPath.root "graph").field relation.name

def decodeSites (path : FieldPath) (sites : SortedMap String Metadata) : Except Error CallSites :=
  do
  return .ofList (← sites.toList.mapM fun entry => return (← decodeId path entry.1, entry.2))

/-- Adds an entry of a call array at `path`. Entries of one pair add up. -/
def decodeCall (path : FieldPath) (calls : CallMap) (e : CallEntry) : Except Error CallMap := do
  let caller ← decodeId path e.caller
  let callee ← decodeId path e.callee
  return CallMap.merge calls ⟨caller, callee⟩ (← decodeSites path e.sites)

def decodeCalls (relation : Relation) (calls : List CallEntry) : Except Error CallMap :=
  calls.foldlM (decodeCall (relationPath relation)) ∅

def decodeRelation (relation : Relation) (calls : Option (List CallEntry)) :
    Except Error CallMap := do
  decodeCalls relation (← require (relationPath relation) calls)

def decodeCallGraph (c : Calls) : Except Error CallGraph := do
  let internal ← decodeRelation .internal c.internal
  let external ← decodeRelation .external c.external
  let resolved ← decodeRelation .resolved c.resolved
  return ⟨internal, external, resolved⟩

def decodeTimestamp : Option Value → Int64 × List Warning
  | none | some .null => (Timestamp.unknown.seconds, [.missingTimestamp])
  | some value =>
    match value with
    | .number (.whole n) =>
      match n.toInt64? with
      | some seconds => (seconds, [])
      | none => (Timestamp.unknown.seconds, [.invalidTimestamp value])
    | _ => (Timestamp.unknown.seconds, [.invalidTimestamp value])

def decode (d : Document) : Except Error Decoded := do
  let forge ← require (.root "forge") d.forge
  let product ← require (.root "product") d.product
  let version ← require (.root "version") d.version
  let generator ← require (.root "generator") d.generator
  let hierarchy ← decodeHierarchy (← require (.root "cha") d.types)
  let calls ← decodeCallGraph (← require (.root "graph") d.calls)
  let nodes ← require (.root "nodes") d.nodes
  let (seconds, warnings) := decodeTimestamp d.timestamp
  let revision ← Revision.new forge product version seconds nodes generator hierarchy calls
  return ⟨revision, warnings⟩

end Document

end RevisionGraph
