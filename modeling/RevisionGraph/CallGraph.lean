import RevisionGraph.Json.Value
import RevisionGraph.Scope

/-!
# Call graphs

A call graph holds three relations between method ids. A pair of caller and callee has call sites,
and each call site has metadata; what is added to a pair, a site or a key that is there already is
merged with it, and of two values under one key the later counts.
-/

namespace RevisionGraph

open Json (Metadata)

structure CallPair where
  caller : Int64
  callee : Int64
  deriving DecidableEq, Repr

namespace CallPair

/-- Pairs are ordered by caller and then by callee. -/
instance : Ord CallPair := ⟨compareLex (compareOn caller) (compareOn callee)⟩

instance : Std.TransOrd CallPair :=
  inferInstanceAs (Std.TransCmp (compareLex (compareOn caller) (compareOn callee)))

instance : Std.LawfulEqOrd CallPair where
  eq_of_compare {p q} h := by
    obtain ⟨caller, callee⟩ := p
    obtain ⟨caller', callee'⟩ := q
    have both : compare caller caller' = .eq ∧ compare callee callee' = .eq :=
      Ordering.then_eq_eq.1 h
    rw [Std.LawfulEqOrd.eq_of_compare both.1, Std.LawfulEqOrd.eq_of_compare both.2]

end CallPair

abbrev CallSites := SortedMap Int64 Metadata

abbrev CallMap := SortedMap CallPair CallSites

/-- Adds metadata to a call site. -/
def CallSites.mergeSite (sites : CallSites) (site : Int64) (metadata : Metadata) : CallSites :=
  sites.insert site (((sites.get? site).getD ∅).union metadata)

def CallSites.merge (sites added : CallSites) : CallSites :=
  added.toList.foldl (fun sites entry => CallSites.mergeSite sites entry.1 entry.2) sites

/-- Adds call sites to a pair. -/
def CallMap.merge (calls : CallMap) (pair : CallPair) (added : CallSites) : CallMap :=
  calls.insert pair (CallSites.merge ((calls.get? pair).getD ∅) added)

structure CallGraph where
  internal : CallMap
  external : CallMap
  resolved : CallMap
  deriving BEq, Inhabited

namespace CallGraph

def empty : CallGraph := ⟨∅, ∅, ∅⟩

instance : EmptyCollection CallGraph := ⟨empty⟩

def get (g : CallGraph) : Relation → CallMap
  | .internal => g.internal
  | .external => g.external
  | .resolved => g.resolved

def set (g : CallGraph) (relation : Relation) (calls : CallMap) : CallGraph :=
  match relation with
  | .internal => { g with internal := calls }
  | .external => { g with external := calls }
  | .resolved => { g with resolved := calls }

@[simp] theorem get_set (g : CallGraph) (relation : Relation) (calls : CallMap) :
    (g.set relation calls).get relation = calls := by
  cases relation <;> rfl

theorem get_set_of_ne (g : CallGraph) {relation other : Relation} (calls : CallMap)
    (ne : other ≠ relation) : (g.set relation calls).get other = g.get other := by
  cases relation <;> cases other <;> simp_all [get, set]

/-- Adds call sites to a pair of a relation. -/
def addSites (g : CallGraph) (relation : Relation) (pair : CallPair) (sites : CallSites) :
    CallGraph :=
  g.set relation (CallMap.merge (g.get relation) pair sites)

def addCall (g : CallGraph) (relation : Relation) (pair : CallPair) (site : Int64)
    (metadata : Metadata) : CallGraph :=
  g.addSites relation pair (SortedMap.empty.insert site metadata)

def sites? (g : CallGraph) (relation : Relation) (pair : CallPair) : Option CallSites :=
  (g.get relation).get? pair

def removeCall (g : CallGraph) (relation : Relation) (pair : CallPair) : CallGraph :=
  g.set relation ((g.get relation).erase pair)

/-- Removes a pair of a relation and gives the call sites that it had, if it was there. -/
def takeCall (g : CallGraph) (relation : Relation) (pair : CallPair) :
    Option CallSites × CallGraph :=
  (g.sites? relation pair, g.removeCall relation pair)

/-- Moves a pair to another relation, if `source` holds it. -/
def moveCall? (g : CallGraph) (pair : CallPair) (source target : Relation) : Option CallGraph :=
  (g.sites? source pair).map ((g.removeCall source pair).addSites target pair)

/-- Moves a pair to another relation, and says whether `source` held it. -/
def moveCall (g : CallGraph) (pair : CallPair) (source target : Relation) : Bool × CallGraph :=
  match g.takeCall source pair with
  | (some sites, rest) => (true, rest.addSites target pair sites)
  | (none, rest) => (false, rest)

/-- Adds every call of a map. -/
def mergeAll (calls added : CallMap) : CallMap :=
  added.toList.foldl (fun calls entry => CallMap.merge calls entry.1 entry.2) calls

/-- Adds the internal and external calls of another graph. Resolved calls belong to one pair of
artifacts and stay where they are. -/
def append (g other : CallGraph) : CallGraph :=
  { g with
    internal := mergeAll g.internal other.internal
    external := mergeAll g.external other.external }

/-- The number of internal and external pairs. -/
def size (g : CallGraph) : Nat := g.internal.size + g.external.size

def pairCount (g : CallGraph) : Nat := g.size + g.resolved.size

def siteCount (g : CallGraph) (relation : Relation) : Nat :=
  ((g.get relation).values.map SortedMap.size).foldr (· + ·) 0

def isEmpty (g : CallGraph) : Bool :=
  g.internal.isEmpty && g.external.isEmpty && g.resolved.isEmpty

end CallGraph

end RevisionGraph
