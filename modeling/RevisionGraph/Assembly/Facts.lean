import RevisionGraph.Json.Decoder
import RevisionGraph.Json.Writer

/-!
# Facts about an artifact

What an analyzer reports about one revision of an artifact: its types, its methods and the calls in
them. Names are texts and are not checked here.
-/

namespace RevisionGraph

open Json

structure TypeFact where
  uri : String
  sourceFile : String
  superClasses : List String
  superInterfaces : List String
  access : String
  isFinal : Bool

structure MethodFact where
  uri : String
  metadata : Metadata

/-- The method `caller` calls `callee` at `site`, dispatched as `kind` says. -/
structure CallFact where
  caller : String
  callee : String
  site : Int64
  kind : String
  metadata : Metadata

inductive Fact where
  | type (fact : TypeFact)
  | method (fact : MethodFact)
  | call (fact : CallFact)

structure Facts where
  forge : String
  product : String
  version : String
  generator : String
  timestamp : Option Int64
  types : List TypeFact
  methods : List MethodFact
  calls : List CallFact

/-! ### Reading -/

def TypeFact.fieldNames : List String :=
  ["uri", "sourceFile", "superClasses", "superInterfaces", "access", "final"]

def TypeFact.decoder : Decoder TypeFact := fun depth tree => do
  let fields ← Fields.read? TypeFact.fieldNames 1 depth tree
  return {
    uri := ← fields.required "uri" Decoder.text
    sourceFile := ← fields.withDefault "sourceFile" Decoder.text ""
    superClasses := ← fields.withDefault "superClasses" (Decoder.list Decoder.text) []
    superInterfaces := ← fields.withDefault "superInterfaces" (Decoder.list Decoder.text) []
    access := ← fields.withDefault "access" Decoder.text ""
    isFinal := ← fields.withDefault "final" Decoder.bool false }

def MethodFact.decoder : Decoder MethodFact := fun depth tree => do
  let fields ← Fields.read? ["uri", "metadata"] 1 depth tree
  return {
    uri := ← fields.required "uri" Decoder.text
    metadata := ← fields.withDefault "metadata" Decoder.metadata ∅ }

def CallFact.fieldNames : List String := ["caller", "callee", "callSite", "kind", "metadata"]

def CallFact.decoder : Decoder CallFact := fun depth tree => do
  let fields ← Fields.read? CallFact.fieldNames 4 depth tree
  return {
    caller := ← fields.required "caller" Decoder.text
    callee := ← fields.required "callee" Decoder.text
    site := ← fields.required "callSite" Decoder.int64
    kind := ← fields.required "kind" Decoder.text
    metadata := ← fields.withDefault "metadata" Decoder.metadata ∅ }

namespace Facts

def fieldNames : List String :=
  ["forge", "product", "version", "generator", "timestamp", "types", "methods", "calls"]

def decoder : Decoder Facts := fun depth tree => do
  let fields ← Fields.read? fieldNames 4 depth tree
  return {
    forge := ← fields.required "forge" Decoder.text
    product := ← fields.required "product" Decoder.text
    version := ← fields.required "version" Decoder.text
    generator := ← fields.required "generator" Decoder.text
    timestamp := ← fields.optional "timestamp" Decoder.int64
    types := ← fields.withDefault "types" (Decoder.list TypeFact.decoder) []
    methods := ← fields.withDefault "methods" (Decoder.list MethodFact.decoder) []
    calls := ← fields.withDefault "calls" (Decoder.list CallFact.decoder) [] }

/-- Reads the text of a facts document. -/
def parse (runes : List Rune) : Option Facts :=
  (Tree.parse runes).bind (decoder Tree.nestingLimit)

/-- The facts in the order in which they are used. -/
def toList (f : Facts) : List Fact :=
  f.types.map .type ++ f.methods.map .method ++ f.calls.map .call

end Facts

/-! ### Writing -/

def textValues (texts : List String) : Value := .array (texts.map Value.text)

def TypeFact.value (f : TypeFact) : Value :=
  .object [
    ("uri", .text f.uri),
    ("sourceFile", .text f.sourceFile),
    ("superClasses", textValues f.superClasses),
    ("superInterfaces", textValues f.superInterfaces),
    ("access", .text f.access),
    ("final", .bool f.isFinal)]

def MethodFact.value (f : MethodFact) : Value :=
  .object [("uri", .text f.uri), ("metadata", .object f.metadata.toList)]

def CallFact.value (f : CallFact) : Value :=
  .object [
    ("caller", .text f.caller),
    ("callee", .text f.callee),
    ("callSite", .int f.site),
    ("kind", .text f.kind),
    ("metadata", .object f.metadata.toList)]

def Facts.value (f : Facts) : Value :=
  .object [
    ("forge", .text f.forge),
    ("product", .text f.product),
    ("version", .text f.version),
    ("generator", .text f.generator),
    ("timestamp", (f.timestamp.map Value.int).getD .null),
    ("types", .array (f.types.map TypeFact.value)),
    ("methods", .array (f.methods.map MethodFact.value)),
    ("calls", .array (f.calls.map CallFact.value))]

end RevisionGraph
