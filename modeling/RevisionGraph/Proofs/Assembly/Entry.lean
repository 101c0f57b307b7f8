import RevisionGraph.Assembly.Assembler
import RevisionGraph.Proofs.Method.Home

/-!
# Entries

An `Entry` is what a fact says once its texts are read, and `Assembler.enter?` the state after an
entry is taken in, without the failures of the steps that lead there.
-/

namespace RevisionGraph

structure Call where
  caller : Uri
  callee : Uri
  site : Int64
  metadata : Json.Metadata

/-- What a fact says, once its texts are read. A type stands without its methods. -/
inductive Entry where
  | type (uri : Uri) (header : TypeDecl)
  | method (method : Method)
  | call (call : Call)

def TypeFact.header? (f : TypeFact) : Option (Uri × TypeDecl) := do
  let uri ← (Uri.parse f.uri).toOption
  let superClasses ← (f.superClasses.mapM Uri.parse).toOption
  let superInterfaces ← (f.superInterfaces.mapM Uri.parse).toOption
  let access ← (Access.ofName f.access).toOption
  return (uri, ⟨f.sourceFile, ∅, superClasses, superInterfaces, access, f.isFinal⟩)

def MethodFact.method? (f : MethodFact) : Option Method :=
  (Uri.parse f.uri).toOption.map fun uri => ⟨uri, f.metadata⟩

def CallFact.call? (f : CallFact) : Option Call := do
  let caller ← (Uri.parse f.caller).toOption
  let callee ← (Uri.parse f.callee).toOption
  return ⟨caller, callee, f.site, f.metadata.insert "type" (.text f.kind)⟩

def Fact.entry? : Fact → Option Entry
  | .type f => f.header?.map fun (uri, header) => .type uri header
  | .method f => f.method?.map .method
  | .call f => f.call?.map .call

/-! ### What an entry does -/

namespace Assembler

def promoted (a : Assembler) (uri : Uri) : Assembler :=
  match a.hierarchy.scopeOf? uri with
  | none | some .internal => a
  | some scope =>
    match a.hierarchy.type? scope uri with
    | none => a
    | some type =>
      { a with
        hierarchy := (a.hierarchy.remove scope uri).put .internal uri type
        calls := internalize a.calls type.methods.ids }

theorem promoted_of_outside {a : Assembler} {uri : Uri} {scope : Scope} {type : TypeDecl}
    (found : a.hierarchy.scopeOf? uri = some scope) (outside : scope ≠ .internal)
    (held : a.hierarchy.type? scope uri = some type) :
    a.promoted uri =
      { a with
        hierarchy := (a.hierarchy.remove scope uri).put .internal uri type
        calls := internalize a.calls type.methods.ids } := by
  unfold promoted
  rw [found]
  cases scope with
  | internal => exact absurd rfl outside
  | external | resolved => simp only [held]

theorem promoted_of_inside {a : Assembler} {uri : Uri}
    (inside : ∀ scope, a.hierarchy.scopeOf? uri = some scope → scope = .internal) :
    a.promoted uri = a := by
  unfold promoted
  cases found : a.hierarchy.scopeOf? uri with
  | none => rfl
  | some scope =>
    rw [inside scope found]

/-- Puts a type with its methods in place of what was declared before. -/
def declared (a : Assembler) (uri : Uri) (header : TypeDecl) : Assembler :=
  let methods := ((a.hierarchy.type? .internal uri).map TypeDecl.methods).getD ∅
  { a with
    hierarchy :=
      ((a.hierarchy.remove .internal uri).insert .internal uri { header with methods }).2 }

/-- The state in which a type is ready for a method of `scope`. -/
def admitted (a : Assembler) (scope : Scope) (home : Uri) : Assembler :=
  match a.hierarchy.scopeOf? home with
  | none => { a with hierarchy := (a.hierarchy.insert scope home .placeholder).2 }
  | some held => if held ≠ scope ∧ scope = .internal then a.promoted home else a

def added? (a : Assembler) (scope : Scope) (home : Uri) (method : Method) :
    Option (Int64 × Assembler) :=
  (a.hierarchy.addMethod? scope home method a.nextId).map fun (id, hierarchy) =>
    (id, { a with hierarchy, nextId := if id = a.nextId then a.nextId + 1 else a.nextId })

theorem added?_of_held {a : Assembler} {scope : Scope} {home : Uri} {type : TypeDecl}
    (held : a.hierarchy.type? scope home = some type) (method : Method) :
    a.added? scope home method =
      some ((type.addMethod method a.nextId).1,
        { a with
          hierarchy := a.hierarchy.put scope home (type.addMethod method a.nextId).2
          nextId :=
            if (type.addMethod method a.nextId).1 = a.nextId then a.nextId + 1
            else a.nextId }) := by
  unfold added? Hierarchy.addMethod?
  rw [held]
  rfl

/-- The id under which `scope` holds a method. -/
def idOf? (a : Assembler) (scope : Scope) (uri : Uri) : Option Int64 := do
  let home ← uri.home?
  let type ← a.hierarchy.type? scope home
  type.methods.idOf? uri

def enterType (a : Assembler) (uri : Uri) (header : TypeDecl) : Assembler :=
  (a.promoted uri).declared uri header

def enterMethod? (a : Assembler) (method : Method) : Option (Int64 × Assembler) := do
  let home ← method.uri.home?
  (a.admitted .internal home).added? .internal home method

def calleeScope (a : Assembler) (home : Uri) : Scope :=
  if a.hierarchy.scopeOf? home = some .internal then .internal else .external

def calleeRelation (a : Assembler) (home : Uri) : Relation :=
  if a.hierarchy.scopeOf? home = some .internal then .internal else .external

def enterCall? (a : Assembler) (call : Call) : Option Assembler := do
  let caller ← a.idOf? .internal call.caller
  let home ← call.callee.home?
  let scope := a.calleeScope home
  let (callee, next) ← (a.admitted scope home).added? scope home (.plain call.callee)
  return { next with
    calls := next.calls.addCall (a.calleeRelation home) ⟨caller, callee⟩ call.site call.metadata }

/-- The state with what an entry says, and the id of the method if the entry declares one. -/
def enter? (a : Assembler) : Entry → Option (Option Int64 × Assembler)
  | .type uri header => some (none, a.enterType uri header)
  | .method method => (a.enterMethod? method).map fun (id, next) => (some id, next)
  | .call call => (a.enterCall? call).map fun next => (none, next)

end Assembler

end RevisionGraph
