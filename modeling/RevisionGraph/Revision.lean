import RevisionGraph.CallGraph
import RevisionGraph.Hierarchy

/-!
# Revisions

A revision of an artifact has coordinates, from which its two URIs follow, a class hierarchy and a
call graph. `Revision.new` checks the coordinates, `Revision.validate` the ends of the calls.
-/

namespace RevisionGraph

/-- The name of a revision: the forge it is published on, the product and the version. -/
structure Coordinates where
  forge : String
  product : String
  version : String
  uri : Uri
  forgelessUri : Uri
  uri_eq : Uri.revision forge product version = .ok uri
  forgelessUri_eq : Uri.forgeless product version = .ok forgelessUri

namespace Coordinates

def of (forge product version : String) : Except Error Coordinates :=
  match h : Uri.revision forge product version with
  | .error error => .error error
  | .ok uri =>
    match h' : Uri.forgeless product version with
    | .error error => .error error
    | .ok forgelessUri => .ok ⟨forge, product, version, uri, forgelessUri, h, h'⟩

theorem ext {c d : Coordinates} (forge : c.forge = d.forge) (product : c.product = d.product)
    (version : c.version = d.version) : c = d := by
  obtain ⟨_, _, _, _, _, uri, forgelessUri⟩ := c
  obtain ⟨_, _, _, _, _, uri', forgelessUri'⟩ := d
  cases forge; cases product; cases version
  cases uri.symm.trans uri'
  cases forgelessUri.symm.trans forgelessUri'
  rfl

instance : DecidableEq Coordinates := fun c d =>
  decidable_of_iff (c.forge = d.forge ∧ c.product = d.product ∧ c.version = d.version)
    ⟨fun h => ext h.1 h.2.1 h.2.2, fun h => h ▸ ⟨rfl, rfl, rfl⟩⟩

end Coordinates

/-- Seconds since the epoch, or `-1` where the time is not known. -/
structure Timestamp where
  seconds : Int64
  valid : seconds = -1 ∨ 0 ≤ seconds
  deriving DecidableEq

namespace Timestamp

def unknown : Timestamp := ⟨-1, .inl rfl⟩

/-- Every negative number stands for an unknown time. -/
def ofInt64 (seconds : Int64) : Timestamp :=
  if h : 0 ≤ seconds then ⟨seconds, .inr h⟩ else unknown

def known? (t : Timestamp) : Option Int64 := if 0 ≤ t.seconds then some t.seconds else none

end Timestamp

structure Revision where
  coordinates : Coordinates
  timestamp : Timestamp
  generator : String
  generator_ne_empty : generator ≠ ""
  nodeCount : UInt64
  hierarchy : Hierarchy
  calls : CallGraph

/-- A method of a scope. -/
structure ScopedId where
  scope : Scope
  id : Int64
  deriving DecidableEq, Repr

namespace ScopedId

/-- The place of a scope in the order in which scopes are walked. -/
def rank (key : ScopedId) : Nat :=
  match key.scope with
  | .internal => 0
  | .external => 1
  | .resolved => 2

instance : Ord ScopedId := ⟨compareLex (compareOn rank) (compareOn id)⟩

instance : Std.TransOrd ScopedId :=
  inferInstanceAs (Std.TransCmp (compareLex (compareOn rank) (compareOn id)))

instance : Std.LawfulEqOrd ScopedId where
  eq_of_compare {key other} h := by
    obtain ⟨scope, id⟩ := key
    obtain ⟨scope', id'⟩ := other
    have both : compare (rank ⟨scope, id⟩) (rank ⟨scope', id'⟩) = .eq ∧ compare id id' = .eq :=
      Ordering.then_eq_eq.1 h
    have ranks := Std.LawfulEqOrd.eq_of_compare both.1
    have same : scope = scope' := by
      cases scope <;> cases scope' <;> first | rfl | cases ranks
    rw [same, Std.LawfulEqOrd.eq_of_compare both.2]

end ScopedId

namespace Revision

instance : BEq Revision := ⟨fun r s =>
  decide (r.coordinates = s.coordinates) && decide (r.timestamp = s.timestamp) &&
    r.generator == s.generator && r.nodeCount == s.nodeCount && r.hierarchy == s.hierarchy &&
    r.calls == s.calls⟩

def new (forge product version : String) (timestamp : Int64) (nodeCount : UInt64)
    (generator : String) (hierarchy : Hierarchy) (calls : CallGraph) : Except Error Revision :=
  if forge = "" then .error (.missingField (.root "forge"))
  else if product = "" then .error (.missingField (.root "product"))
  else if version = "" then .error (.missingField (.root "version"))
  else if h : generator = "" then .error (.missingField (.root "generator"))
  else do
    let coordinates ← Coordinates.of forge product version
    return ⟨coordinates, .ofInt64 timestamp, generator, h, nodeCount, hierarchy, calls⟩

/-- A revision field by field, before it is checked. -/
structure Draft where
  forge : String
  product : String
  version : String
  generator : String
  timestamp : Option Int64
  nodeCount : UInt64
  hierarchy : Hierarchy
  calls : CallGraph

def Draft.build (d : Draft) : Except Error Revision :=
  new d.forge d.product d.version (d.timestamp.getD Timestamp.unknown.seconds) d.nodeCount
    d.generator d.hierarchy d.calls

def uri (r : Revision) : Uri := r.coordinates.uri

def forgelessUri (r : Revision) : Uri := r.coordinates.forgelessUri

/-- The methods of all scopes by id. Of several methods with one id the last counts, where scopes
are walked in their order and types in the order of their URIs. -/
def methodsById (r : Revision) : SortedMap Int64 Method :=
  Scope.all.foldl (fun methods scope => methods.insertMany (r.hierarchy.methods scope)) ∅

/-- The methods of all scopes by scope and id. -/
def methodsByScope (r : Revision) : SortedMap ScopedId Method :=
  Scope.all.foldl
    (fun methods scope =>
      methods.insertMany ((r.hierarchy.methods scope).map fun row => (⟨scope, row.1⟩, row.2)))
    ∅

/-- Whether a call may join these two: the caller is internal, and so is the callee of an internal
call; the callee of a resolved call belongs to a resolved type; any callee may be external. -/
def endsDeclared (r : Revision) (relation : Relation) (pair : CallPair) : Bool :=
  (r.hierarchy.ids .internal).contains pair.caller &&
    match relation with
    | .internal => (r.hierarchy.ids .internal).contains pair.callee
    | .external => true
    | .resolved => (r.hierarchy.ids .resolved).contains pair.callee

/-- The calls with an end that is not declared, relation by relation and pair by pair. -/
def danglingCalls (r : Revision) : List (Relation × CallPair) :=
  Relation.all.flatMap fun relation =>
    ((r.calls.get relation).keys.filter fun pair => !r.endsDeclared relation pair).map (relation, ·)

def validate (r : Revision) : Except Error Unit :=
  match r.danglingCalls with
  | [] => .ok ()
  | (relation, pair) :: _ => .error (.danglingEdge relation pair.caller pair.callee)

end Revision

end RevisionGraph
