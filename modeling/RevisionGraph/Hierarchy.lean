import RevisionGraph.TypeDecl

/-!
# Class hierarchies

A hierarchy holds the types of a revision by scope. `Hierarchy.Partitioned` says that no type is in
two scopes: `Hierarchy.ofScopes` checks it and every other operation keeps it.
-/

namespace RevisionGraph

abbrev TypeMap := SortedMap Uri TypeDecl

structure Hierarchy where
  internal : TypeMap
  external : TypeMap
  resolved : TypeMap
  deriving BEq, Inhabited

namespace Hierarchy

def empty : Hierarchy := ⟨∅, ∅, ∅⟩

instance : EmptyCollection Hierarchy := ⟨empty⟩

def get (h : Hierarchy) : Scope → TypeMap
  | .internal => h.internal
  | .external => h.external
  | .resolved => h.resolved

def set (h : Hierarchy) (scope : Scope) (types : TypeMap) : Hierarchy :=
  match scope with
  | .internal => { h with internal := types }
  | .external => { h with external := types }
  | .resolved => { h with resolved := types }

@[simp] theorem get_set (h : Hierarchy) (scope : Scope) (types : TypeMap) :
    (h.set scope types).get scope = types := by
  cases scope <;> rfl

theorem get_set_of_ne (h : Hierarchy) {scope other : Scope} (types : TypeMap)
    (ne : other ≠ scope) : (h.set scope types).get other = h.get other := by
  cases scope <;> cases other <;> simp_all [get, set]

/-- No type is in two scopes. -/
def Partitioned (h : Hierarchy) : Prop :=
  ∀ scope other uri, (h.get scope).contains uri → (h.get other).contains uri → scope = other

/-- Every type that is in a scope and in a later one, with both scopes, in the order in which scopes
and types are walked. -/
def conflicts (h : Hierarchy) : List (Scope × Uri × Scope) :=
  Scope.all.flatMap fun first =>
    (h.get first).keys.flatMap fun uri =>
      (first.later.filter fun second => (h.get second).contains uri).map (first, uri, ·)

/-- The hierarchy of three maps, if they share no type. -/
def ofScopes (internal external resolved : TypeMap) : Except Error Hierarchy :=
  let h : Hierarchy := ⟨internal, external, resolved⟩
  match h.conflicts with
  | [] => .ok h
  | (first, uri, second) :: _ => .error (.scopeConflict uri.text first second)

def type? (h : Hierarchy) (scope : Scope) (uri : Uri) : Option TypeDecl := (h.get scope).get? uri

/-- The first scope that holds the type. -/
def scopeOf? (h : Hierarchy) (uri : Uri) : Option Scope :=
  Scope.all.find? fun scope => (h.get scope).contains uri

def remove (h : Hierarchy) (scope : Scope) (uri : Uri) : Hierarchy :=
  h.set scope ((h.get scope).erase uri)

def put (h : Hierarchy) (scope : Scope) (uri : Uri) (type : TypeDecl) : Hierarchy :=
  h.set scope ((h.get scope).insert uri type)

/-- The first scope, other than `scope`, that holds the type. -/
def rival? (h : Hierarchy) (scope : Scope) (uri : Uri) : Option Scope :=
  (Scope.all.filter fun other => decide (other ≠ scope)).find? fun other =>
    (h.get other).contains uri

/-- Puts a type into `scope` and takes it out of the scope that held it before. Also gives the type
that was held. -/
def insert (h : Hierarchy) (scope : Scope) (uri : Uri) (type : TypeDecl) :
    Option TypeDecl × Hierarchy :=
  match h.rival? scope uri with
  | some rival =>
    ((h.type? scope uri).or (h.type? rival uri), (h.remove rival uri).put scope uri type)
  | none => (h.type? scope uri, h.put scope uri type)

def move (h : Hierarchy) (uri : Uri) (source target : Scope) : Except Error Hierarchy :=
  match h.type? source uri with
  | some type => .ok ((h.remove source uri).put target uri type)
  | none => .error (.typeNotFound uri.text source)

/-- Adds a method to a type, if `scope` holds the type. Also gives the id of the method. -/
def addMethod? (h : Hierarchy) (scope : Scope) (uri : Uri) (method : Method) (candidate : Int64) :
    Option (Int64 × Hierarchy) :=
  (h.type? scope uri).map fun type =>
    let (id, type) := type.addMethod method candidate
    (id, h.put scope uri type)

def typeCount (h : Hierarchy) : Nat :=
  (Scope.all.map fun scope => (h.get scope).size).foldr (· + ·) 0

/-- The types of a scope in order of their URIs. -/
def types (h : Hierarchy) (scope : Scope) : List TypeDecl := (h.get scope).values

/-- The methods of a scope, type by type. -/
def methods (h : Hierarchy) (scope : Scope) : List (Int64 × Method) :=
  (h.types scope).flatMap fun type => type.methods.toList

/-- The ids of the methods of a scope. -/
def ids (h : Hierarchy) (scope : Scope) : List Int64 := (h.methods scope).map Prod.fst

def methodCount (h : Hierarchy) : Nat :=
  (Scope.all.map fun scope => (h.methods scope).length).foldr (· + ·) 0

end Hierarchy

end RevisionGraph
