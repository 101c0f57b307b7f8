import RevisionGraph.Assembly.Facts
import RevisionGraph.Failure
import RevisionGraph.Revision

/-!
# Assembling a revision from facts

An `Assembler` takes in one fact after the other and numbers the methods as they are first met. A
type that is met as the target of a call is external until it is declared, or a method of it is;
then it becomes internal together with the calls into it. A step that fails leaves its failure and
its state, so that a run can go on.
-/

namespace RevisionGraph

open Json

structure Assembler where
  /-- The id of the next new method. -/
  nextId : Int64
  hierarchy : Hierarchy
  calls : CallGraph
  deriving Inhabited

/-- A step of an assembler, which may fail and keeps the state that it has reached then. -/
abbrev Assembly := ExceptT Failure (StateM Assembler)

namespace Assembler

def empty : Assembler := ⟨0, ∅, ∅⟩

def check {α : Type} (result : Except Error α) : Assembly α := ExceptT.mk (pure (checked result))

def parseUris (task : String) (texts : List String) : Assembly (List Uri) :=
  ExceptT.mk (pure (during task (checked (texts.mapM Uri.parse))))

/-- Makes calls internal whose callee is one of `ids`. -/
def internalize (calls : CallGraph) (ids : List Int64) : CallGraph :=
  (calls.external.keys.filter fun pair => ids.contains pair.callee).foldl
    (fun calls pair => (calls.moveCall? pair .external .internal).getD calls) calls

/-- Makes a type internal, and the calls into it, if the type is known and not internal. -/
def promote (uri : Uri) : Assembly Unit := do
  match (← get).hierarchy.scopeOf? uri with
  | none | some .internal => return
  | some scope =>
    let hierarchy ← check ((← get).hierarchy.move uri scope .internal)
    let ids := ((hierarchy.type? .internal uri).map fun type => type.methods.ids).getD []
    modify fun a => { a with hierarchy, calls := internalize a.calls ids }

/-- Adds a method to its type in `scope`, and gives its id. -/
def register (scope : Scope) (method : Method) : Assembly Int64 := do
  let uri ← check method.typeUri
  match (← get).hierarchy.scopeOf? uri with
  | none =>
    modify fun a => { a with hierarchy := (a.hierarchy.insert scope uri .placeholder).2 }
  | some held =>
    if held ≠ scope ∧ scope = .internal then promote uri
  let a ← get
  match a.hierarchy.addMethod? scope uri method a.nextId with
  | none => throw (.plain ("Type " ++ uri.text ++ " is not in " ++ scope.name))
  | some (id, hierarchy) =>
    set { a with hierarchy, nextId := if id = a.nextId then a.nextId + 1 else a.nextId }
    return id

/-- The id of a method of a type in `scope`. -/
def find? (scope : Scope) (uri : Uri) : Assembly (Option Int64) := do
  let typeUri ← check (Method.plain uri).typeUri
  return ((← get).hierarchy.type? scope typeUri).bind fun type => type.methods.idOf? uri

/-- Declares an internal type. A second declaration replaces the first, but for its methods. -/
def addType (fact : TypeFact) : Assembly Unit := do
  let uri ← check (Uri.parse fact.uri)
  let superClasses ← parseUris ("Bad super class of " ++ fact.uri) fact.superClasses
  let superInterfaces ← parseUris ("Bad super interface of " ++ fact.uri) fact.superInterfaces
  let access ← check (Access.ofName fact.access)
  promote uri
  let hierarchy := (← get).hierarchy
  let methods := ((hierarchy.type? .internal uri).map TypeDecl.methods).getD ∅
  let type : TypeDecl :=
    ⟨fact.sourceFile, methods, superClasses, superInterfaces, access, fact.isFinal⟩
  modify fun a =>
    { a with hierarchy := ((hierarchy.remove .internal uri).insert .internal uri type).2 }

/-- Declares an internal method, and gives its id. A method that is known keeps what is noted about
it. -/
def addMethod (fact : MethodFact) : Assembly Int64 := do
  let uri ← check (Uri.parse fact.uri)
  register .internal ⟨uri, fact.metadata⟩

/-- Adds a call of an internal method. The call is internal if the type of the callee is. -/
def addCall (fact : CallFact) : Assembly Unit := do
  let callerUri ← check (Uri.parse fact.caller)
  let some caller ← find? .internal callerUri
    | throw (.plain ("Caller is not an internal method: " ++ fact.caller))
  let callee := Method.plain (← check (Uri.parse fact.callee))
  let calleeType ← check callee.typeUri
  let isInternal := (← get).hierarchy.scopeOf? calleeType = some .internal
  let scope : Scope := if isInternal then .internal else .external
  let relation : Relation := if isInternal then .internal else .external
  let calleeId ← register scope callee
  let metadata := fact.metadata.insert "type" (.text fact.kind)
  modify fun a => { a with calls := a.calls.addCall relation ⟨caller, calleeId⟩ fact.site metadata }

/-- Takes in one fact, and gives the id if the fact declares a method. -/
def step : Fact → Assembly (Option Int64)
  | .type fact => do addType fact; return none
  | .method fact => return some (← addMethod fact)
  | .call fact => do addCall fact; return none

/-- The state after all facts, those that failed included. -/
def run (a : Assembler) (facts : List Fact) : Assembler :=
  facts.foldl (fun a fact => ((step fact).run.run a).2) a

/-- The number of ids that are given out. -/
def nodeCount (a : Assembler) : UInt64 := a.nextId.toUInt64

/-- The revision with these coordinates and what is assembled. -/
def finish (a : Assembler) (forge product version generator : String) (timestamp : Option Int64) :
    Except Failure Revision :=
  during "Failed to build revision call graph" <| checked <|
    (Revision.Draft.mk forge product version generator timestamp a.nodeCount a.hierarchy
      a.calls).build

end Assembler

/-- The revision that the facts describe; the first fact that fails is the failure of all. -/
def Facts.assemble (f : Facts) : Except Failure Revision := do
  let (result, a) := ((f.toList.forM fun fact => discard (Assembler.step fact)).run).run .empty
  let () ← result
  a.finish f.forge f.product f.version f.generator f.timestamp

end RevisionGraph
