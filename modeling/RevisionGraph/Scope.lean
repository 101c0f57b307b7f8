/-!
# Scopes of types and of calls
-/

namespace RevisionGraph

/-- Where a type of a revision is defined. -/
inductive Scope where
  /-- By the artifact itself. -/
  | internal
  /-- By a dependency that is not resolved yet. -/
  | external
  /-- By a dependency, and matched to its definition there. -/
  | resolved
  deriving DecidableEq, Repr

namespace Scope

/-- The order in which scopes are walked. -/
def all : List Scope := [.internal, .external, .resolved]

def name : Scope → String
  | .internal => "internalTypes"
  | .external => "externalTypes"
  | .resolved => "resolvedTypes"

def ofName? (name : String) : Option Scope := all.find? fun scope => scope.name == name

/-- The scopes walked after a scope. -/
def later : Scope → List Scope
  | .internal => [.external, .resolved]
  | .external => [.resolved]
  | .resolved => []

theorem mem_all (scope : Scope) : scope ∈ all := by cases scope <;> decide

theorem mem_later_or {first second : Scope} (apart : first ≠ second) :
    second ∈ first.later ∨ first ∈ second.later := by
  cases first <;> cases second <;> simp_all [later]

theorem not_mem_later (scope : Scope) : scope ∉ scope.later := by cases scope <;> decide

theorem ofName?_name (scope : Scope) : ofName? scope.name = some scope := by
  cases scope <;> decide

end Scope

/-- The relation that a call edge belongs to. -/
inductive Relation where
  /-- Caller and callee are defined by the artifact. -/
  | internal
  /-- The callee is in a dependency that is not resolved yet. -/
  | external
  /-- The callee is a method of a resolved type. -/
  | resolved
  deriving DecidableEq, Repr

namespace Relation

def all : List Relation := [.internal, .external, .resolved]

def name : Relation → String
  | .internal => "internalCalls"
  | .external => "externalCalls"
  | .resolved => "resolvedCalls"

theorem mem_all (relation : Relation) : relation ∈ all := by cases relation <;> decide

end Relation

end RevisionGraph
