import RevisionGraph.Method

/-!
# Method tables

A table holds methods by id and ids by method URI. `MethodTable.insert` keeps the two in step: a URI
that is bound keeps its id, and an id that is taken over loses its former URI.
-/

namespace RevisionGraph

structure MethodTable where
  byId : SortedMap Int64 Method
  byUri : SortedMap Uri Int64
  deriving Inhabited

namespace MethodTable

def empty : MethodTable := ⟨∅, ∅⟩

instance : EmptyCollection MethodTable := ⟨empty⟩

/-- Two tables are the same if they hold the same methods under the same ids. -/
instance : BEq MethodTable := ⟨fun s t => s.byId == t.byId⟩

def get? (t : MethodTable) (id : Int64) : Option Method := t.byId.get? id

def idOf? (t : MethodTable) (uri : Uri) : Option Int64 := t.byUri.get? uri

def containsId (t : MethodTable) (id : Int64) : Bool := t.byId.contains id

def containsUri (t : MethodTable) (uri : Uri) : Bool := t.byUri.contains uri

/-- The methods in ascending order of their ids. -/
def toList (t : MethodTable) : List (Int64 × Method) := t.byId.toList

def ids (t : MethodTable) : List Int64 := t.byId.keys

def size (t : MethodTable) : Nat := t.byId.size

def isEmpty (t : MethodTable) : Bool := t.byId.isEmpty

/-- Frees `id`, and the URI that is bound to it. -/
def release (t : MethodTable) (id : Int64) : MethodTable :=
  match t.byId.get? id with
  | some method => ⟨t.byId.erase id, t.byUri.erase method.uri⟩
  | none => t

def bind (t : MethodTable) (id : Int64) (method : Method) : MethodTable :=
  ⟨t.byId.insert id method, t.byUri.insert method.uri id⟩

/-- Adds `method` under `candidate`, unless its URI is bound already. Also gives the id that the URI
is then bound to. -/
def insert (t : MethodTable) (method : Method) (candidate : Int64) : Int64 × MethodTable :=
  match t.idOf? method.uri with
  | some id => (id, t)
  | none => (candidate, (t.release candidate).bind candidate method)

def ofList (rows : List (Int64 × Method)) : MethodTable :=
  rows.foldl (fun t row => (t.insert row.2 row.1).2) ∅

/-- Ids and URIs are bound to each other in pairs. -/
def InStep (t : MethodTable) : Prop :=
  ∀ uri id, t.idOf? uri = some id ↔ ∃ method, t.get? id = some method ∧ method.uri = uri

end MethodTable

end RevisionGraph
