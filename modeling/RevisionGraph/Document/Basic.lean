import RevisionGraph.Json.Decoder
import RevisionGraph.Json.Writer
import RevisionGraph.Scope

/-!
# The interchange document

A `Document` is a revision as it is exchanged, before anything in it is checked: names, ids and URIs
are texts, and every field may be missing. `Document.decoder` reads a document from a tree and
`Document.value` is the value that it is written as.
-/

namespace RevisionGraph

open Json

namespace Document

structure MethodEntry where
  uri : Option String
  metadata : Option Metadata

structure TypeEntry where
  sourceFile : Option String
  methods : Option (SortedMap String MethodEntry)
  superClasses : Option (List String)
  superInterfaces : Option (List String)
  access : Option String
  isFinal : Option Bool

structure Types where
  internal : Option (SortedMap String TypeEntry)
  external : Option (SortedMap String TypeEntry)
  resolved : Option (SortedMap String TypeEntry)

structure CallEntry where
  caller : String
  callee : String
  sites : SortedMap String Metadata

structure Calls where
  internal : Option (List CallEntry)
  external : Option (List CallEntry)
  resolved : Option (List CallEntry)

end Document

structure Document where
  forge : Option String
  product : Option String
  version : Option String
  generator : Option String
  timestamp : Option Value
  types : Option Document.Types
  calls : Option Document.Calls
  nodes : Option UInt64

namespace Document

/-! ### Reading -/

def MethodEntry.decoder : Decoder MethodEntry := fun depth tree => do
  let fields ← Fields.read? ["uri", "metadata"] 2 depth tree
  return {
    uri := ← fields.optional "uri" Decoder.text
    metadata := ← fields.optional "metadata" Decoder.metadata }

def TypeEntry.fieldNames : List String :=
  ["sourceFile", "methods", "superClasses", "superInterfaces", "access", "final"]

def TypeEntry.decoder : Decoder TypeEntry := fun depth tree => do
  let fields ← Fields.read? TypeEntry.fieldNames 6 depth tree
  return {
    sourceFile := ← fields.optional "sourceFile" Decoder.text
    methods := ← fields.optional "methods" (Decoder.map MethodEntry.decoder)
    superClasses := ← fields.optional "superClasses" (Decoder.list Decoder.text)
    superInterfaces := ← fields.optional "superInterfaces" (Decoder.list Decoder.text)
    access := ← fields.optional "access" Decoder.text
    isFinal := ← fields.optional "final" Decoder.bool }

def Types.decoder : Decoder Types := fun depth tree => do
  let fields ← Fields.read? (Scope.all.map Scope.name) 3 depth tree
  let types (scope : Scope) := fields.optional scope.name (Decoder.map TypeEntry.decoder)
  return {
    internal := ← types .internal
    external := ← types .external
    resolved := ← types .resolved }

/-- Reads `[caller, callee, sites]`. -/
def CallEntry.decoder : Decoder CallEntry
  | depth + 1, .array [caller, callee, sites] => do
    return {
      caller := ← Decoder.text depth caller
      callee := ← Decoder.text depth callee
      sites := ← Decoder.map Decoder.metadata depth sites }
  | _, _ => none

def Calls.decoder : Decoder Calls := fun depth tree => do
  let fields ← Fields.read? (Relation.all.map Relation.name) 3 depth tree
  let calls (relation : Relation) :=
    fields.optional relation.name (Decoder.list CallEntry.decoder)
  return {
    internal := ← calls .internal
    external := ← calls .external
    resolved := ← calls .resolved }

def fieldNames : List String :=
  ["forge", "product", "version", "generator", "timestamp", "cha", "graph", "nodes"]

def decoder : Decoder Document := fun depth tree => do
  let fields ← Fields.read? fieldNames 8 depth tree
  return {
    forge := ← fields.optional "forge" Decoder.text
    product := ← fields.optional "product" Decoder.text
    version := ← fields.optional "version" Decoder.text
    generator := ← fields.optional "generator" Decoder.text
    timestamp := ← fields.optional "timestamp" Decoder.value
    types := ← fields.optional "cha" Types.decoder
    calls := ← fields.optional "graph" Calls.decoder
    nodes := ← fields.optional "nodes" Decoder.natural }

/-- Reads the text of a document. -/
def parse (runes : List Rune) : Option Document :=
  (Tree.parse runes).bind (decoder Tree.nestingLimit)

/-- Reads a document from a value. -/
def ofValue? (value : Value) : Option Document := decoder Tree.nestingLimit value.tree

/-! ### Writing -/

/-- A missing field is written as `null`. -/
def orNull {α : Type} (write : α → Value) : Option α → Value
  | some a => write a
  | none => .null

def mapValue {α : Type} (write : α → Value) (m : SortedMap String α) : Value :=
  .object (m.toList.map fun entry => (entry.1, write entry.2))

def metadataValue (m : Metadata) : Value := .object m.toList

def textsValue (texts : List String) : Value := .array (texts.map Value.text)

def MethodEntry.value (e : MethodEntry) : Value :=
  .object [("uri", orNull Value.text e.uri), ("metadata", orNull metadataValue e.metadata)]

def TypeEntry.value (e : TypeEntry) : Value :=
  .object [
    ("sourceFile", orNull Value.text e.sourceFile),
    ("methods", orNull (mapValue MethodEntry.value) e.methods),
    ("superClasses", orNull textsValue e.superClasses),
    ("superInterfaces", orNull textsValue e.superInterfaces),
    ("access", orNull Value.text e.access),
    ("final", orNull Value.bool e.isFinal)]

def Types.value (t : Types) : Value :=
  .object [
    (Scope.internal.name, orNull (mapValue TypeEntry.value) t.internal),
    (Scope.external.name, orNull (mapValue TypeEntry.value) t.external),
    (Scope.resolved.name, orNull (mapValue TypeEntry.value) t.resolved)]

def CallEntry.value (e : CallEntry) : Value :=
  .array [.text e.caller, .text e.callee, mapValue metadataValue e.sites]

def callsValue (calls : List CallEntry) : Value := .array (calls.map CallEntry.value)

def Calls.value (c : Calls) : Value :=
  .object [
    (Relation.internal.name, orNull callsValue c.internal),
    (Relation.external.name, orNull callsValue c.external),
    (Relation.resolved.name, orNull callsValue c.resolved)]

/-- The document with its fields in their order; an unknown time is left out. -/
def value (d : Document) : Value :=
  .object <|
    [("forge", orNull Value.text d.forge),
      ("product", orNull Value.text d.product),
      ("version", orNull Value.text d.version),
      ("generator", orNull Value.text d.generator)] ++
    (d.timestamp.map fun value => ("timestamp", value)).toList ++
    [("cha", orNull Types.value d.types),
      ("graph", orNull Calls.value d.calls),
      ("nodes", orNull Value.natural d.nodes)]

end Document

end RevisionGraph
