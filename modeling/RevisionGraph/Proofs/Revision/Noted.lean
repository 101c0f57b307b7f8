import RevisionGraph.Proofs.CallGraph.Moves
import RevisionGraph.Proofs.Hierarchy.Lookup
import RevisionGraph.Proofs.Ordered.Values
import RevisionGraph.Revision

/-!
# What is noted

Values are noted about methods and about call sites. A property of all of them is kept by the
operations that put in only values with that property.
-/

namespace RevisionGraph

open Json (Metadata Value)

variable {P : Value → Prop}

/-! ### Methods -/

def MethodTable.Noted (P : Value → Prop) (t : MethodTable) : Prop :=
  t.byId.AllValues fun method => method.metadata.AllValues P

theorem MethodTable.noted_empty : (∅ : MethodTable).Noted P := SortedMap.allValues_empty

theorem MethodTable.Noted.insert {t : MethodTable} (noted : t.Noted P) {method : Method}
    (added : method.metadata.AllValues P) (candidate : Int64) :
    (t.insert method candidate).2.Noted P := by
  unfold MethodTable.insert
  split
  · exact noted
  · have released : (t.release candidate).Noted P := by
      unfold release
      split
      · exact SortedMap.AllValues.erase noted candidate
      · exact noted
    exact SortedMap.AllValues.insert released candidate added

namespace Hierarchy

/-- Every value that is noted about a method has the property. -/
def Noted (P : Value → Prop) (h : Hierarchy) : Prop :=
  h.AllTypes fun type => type.methods.Noted P

variable {h : Hierarchy}

theorem Noted.methods (noted : h.Noted P) (scope : Scope) (uri : Uri) :
    (((h.type? scope uri).map TypeDecl.methods).getD ∅).Noted P := by
  cases held : h.type? scope uri with
  | none => exact MethodTable.noted_empty
  | some type => exact noted scope uri type held

theorem Noted.addMethod? (noted : h.Noted P) {scope : Scope} {uri : Uri} {method : Method}
    {candidate id : Int64} {added : Hierarchy} (notes : method.metadata.AllValues P)
    (ok : h.addMethod? scope uri method candidate = some (id, added)) : added.Noted P := by
  obtain ⟨type, held, made⟩ := Option.map_eq_some_iff.1 ok
  cases made
  exact AllTypes.put noted scope uri ((noted scope uri type held).insert notes candidate)

end Hierarchy

/-! ### Call sites -/

def CallSites.Noted (P : Value → Prop) (sites : CallSites) : Prop :=
  sites.AllValues fun metadata => metadata.AllValues P

theorem CallSites.Noted.merge {sites added : CallSites} (noted : sites.Noted P)
    (new : added.Noted P) : (sites.merge added).Noted P := by
  unfold CallSites.Noted
  rw [SortedMap.allValues_iff]
  intro site metadata held
  rw [get?_merge] at held
  have before := SortedMap.allValues_iff.1 noted site
  cases also : added.get? site with
  | none => exact before metadata (by rwa [also] at held)
  | some more =>
    rw [also] at held
    cases held
    have notes : ((sites.get? site).getD ∅).AllValues P := by
      cases here : sites.get? site with
      | none => exact SortedMap.allValues_empty
      | some metadata => exact before metadata here
    exact notes.union (SortedMap.allValues_iff.1 new site more also)

namespace CallGraph

/-- Every value that is noted about a call site has the property. -/
def Noted (P : Value → Prop) (g : CallGraph) : Prop :=
  ∀ relation pair sites, g.sites? relation pair = some sites → sites.Noted P

variable {g : CallGraph}

theorem noted_empty : (∅ : CallGraph).Noted P := by
  intro relation pair sites held
  cases relation <;> cases held

theorem noted_merged {held added : Option CallSites} (noted : ∀ sites ∈ held, sites.Noted P)
    (new : ∀ sites ∈ added, sites.Noted P) : ∀ sites ∈ merged held added, sites.Noted P := by
  intro sites mem
  cases added with
  | none => exact noted sites mem
  | some added =>
    cases mem
    cases held with
    | none => exact CallSites.Noted.merge SortedMap.allValues_empty (new added rfl)
    | some held => exact (noted held rfl).merge (new added rfl)

theorem Noted.addSites (noted : g.Noted P) (relation : Relation) (pair : CallPair)
    {added : CallSites} (new : added.Noted P) : (g.addSites relation pair added).Noted P := by
  intro relation' pair' sites held
  rw [sites?_addSites] at held
  split at held
  · have kept : ∀ sites ∈ merged (g.sites? relation pair) (some added), sites.Noted P :=
      noted_merged (noted relation pair) (by rintro _ ⟨⟩; exact new)
    exact kept sites held
  · exact noted relation' pair' sites held

theorem Noted.addCall (noted : g.Noted P) (relation : Relation) (pair : CallPair) (site : Int64)
    {metadata : Metadata} (new : metadata.AllValues P) :
    (g.addCall relation pair site metadata).Noted P :=
  noted.addSites relation pair (SortedMap.allValues_empty.insert site new)

theorem Noted.internalize (noted : g.Noted P) (ids : List Int64) :
    (Assembler.internalize g ids).Noted P := by
  intro relation pair sites held
  rw [Assembler.sites?_internalize] at held
  split at held
  · cases relation with
    | internal => exact noted_merged (noted .internal pair) (noted .external pair) sites held
    | external => cases held
    | resolved => exact noted .resolved pair sites held
  · exact noted relation pair sites held

end CallGraph

/-! ### Revisions -/

namespace Revision

/-- The values that are noted about methods and about call sites have these properties. -/
def Noted (methods sites : Value → Prop) (r : Revision) : Prop :=
  r.hierarchy.Noted methods ∧ r.calls.Noted sites

theorem Noted.imp {methods methods' sites sites' : Value → Prop} {r : Revision}
    (noted : r.Noted methods sites) (each : ∀ v, methods v → methods' v)
    (eachToo : ∀ v, sites v → sites' v) : r.Noted methods' sites' := by
  constructor
  · intro scope uri type held
    exact (noted.1 scope uri type held).imp fun method notes => notes.imp each
  · intro relation pair sites held
    exact (noted.2 relation pair sites held).imp fun metadata notes => notes.imp eachToo

end Revision

end RevisionGraph
