import RevisionGraph.Document.Basic
import RevisionGraph.Revision

/-!
# From a revision to its document
-/

namespace RevisionGraph

open Json

namespace Document

def MethodEntry.ofMethod (m : Method) : MethodEntry := ⟨some m.uri.text, some m.metadata⟩

def TypeEntry.ofType (t : TypeDecl) : TypeEntry where
  sourceFile := some t.sourceFile
  methods := some <| .ofList <|
    t.methods.toList.map fun row => (idText row.1, MethodEntry.ofMethod row.2)
  superClasses := some (t.superClasses.map Uri.text)
  superInterfaces := some (t.superInterfaces.map Uri.text)
  access := some t.access.name
  isFinal := some t.isFinal

def encodeTypes (types : TypeMap) : SortedMap String TypeEntry :=
  .ofList (types.toList.map fun entry => (entry.1.text, TypeEntry.ofType entry.2))

def Types.ofHierarchy (h : Hierarchy) : Types :=
  ⟨some (encodeTypes h.internal), some (encodeTypes h.external), some (encodeTypes h.resolved)⟩

def encodeSites (sites : CallSites) : SortedMap String Metadata :=
  .ofList (sites.toList.map fun entry => (idText entry.1, entry.2))

def CallEntry.ofCall (pair : CallPair) (sites : CallSites) : CallEntry :=
  ⟨idText pair.caller, idText pair.callee, encodeSites sites⟩

def encodeCalls (calls : CallMap) : List CallEntry :=
  calls.toList.map fun entry => CallEntry.ofCall entry.1 entry.2

def Calls.ofCallGraph (g : CallGraph) : Calls :=
  ⟨some (encodeCalls g.internal), some (encodeCalls g.external), some (encodeCalls g.resolved)⟩

def ofRevision (r : Revision) : Document where
  forge := some r.coordinates.forge
  product := some r.coordinates.product
  version := some r.coordinates.version
  generator := some r.generator
  timestamp := r.timestamp.known?.map Value.int
  types := some (Types.ofHierarchy r.hierarchy)
  calls := some (Calls.ofCallGraph r.calls)
  nodes := some r.nodeCount

end Document

namespace Revision

/-- The document as a value with every object in key order. -/
def value (r : Revision) : Value := (Document.ofRevision r).value.sorted

def compact (r : Revision) : String := (Document.ofRevision r).value.compact

def pretty (r : Revision) : String := (Document.ofRevision r).value.pretty

end Revision

end RevisionGraph
