import RevisionGraph.Proofs.Assembly.Kept
import RevisionGraph.Proofs.Document.Built
import RevisionGraph.Proofs.Revision.Checks

/-!
# Reachable revisions

A revision comes of its checked fields, of a document or of facts, and then of edits of its types
and calls. Its coordinates stay as they were checked, and its hierarchy stays built.
-/

namespace RevisionGraph

open Json (Metadata)

inductive CallGraph.Edit where
  | addCall (relation : Relation) (pair : CallPair) (site : Int64) (metadata : Metadata)
  | addSites (relation : Relation) (pair : CallPair) (sites : CallSites)
  | removeCall (relation : Relation) (pair : CallPair)
  | moveCall (pair : CallPair) (source target : Relation)
  | append (other : CallGraph)

/-- The graph after an edit; moving a pair that is not there changes nothing. -/
def CallGraph.edit (g : CallGraph) : Edit → CallGraph
  | .addCall relation pair site metadata => g.addCall relation pair site metadata
  | .addSites relation pair sites => g.addSites relation pair sites
  | .removeCall relation pair => g.removeCall relation pair
  | .moveCall pair source target => (g.moveCall? pair source target).getD g
  | .append other => g.append other

namespace Revision

inductive Reachable : Revision → Prop where
  | new {forge product version generator : String} {timestamp : Int64} {nodeCount : UInt64}
      {hierarchy : Hierarchy} {calls : CallGraph} {r : Revision} (built : hierarchy.Built)
      (ok : Revision.new forge product version timestamp nodeCount generator hierarchy calls =
        .ok r) : Reachable r
  | draft {d : Draft} {r : Revision} (built : d.hierarchy.Built) (ok : d.build = .ok r) :
      Reachable r
  | decoded {d : Document} {decoded : Decoded} (ok : d.decode = .ok decoded) :
      Reachable decoded.revision
  | assembled {f : Facts} {r : Revision} (ok : f.assemble = .ok r) : Reachable r
  | editTypes {r : Revision} {e : Hierarchy.Edit} (reachable : Reachable r) (proper : e.Proper) :
      Reachable { r with hierarchy := r.hierarchy.edit e }
  | editCalls {r : Revision} (e : CallGraph.Edit) (reachable : Reachable r) :
      Reachable { r with calls := r.calls.edit e }

structure Sound (r : Revision) : Prop where
  forge : r.coordinates.forge ≠ ""
  product : r.coordinates.product ≠ ""
  version : r.coordinates.version ≠ ""
  built : r.hierarchy.Built

theorem sound_of_new {forge product version generator : String} {timestamp : Int64}
    {nodeCount : UInt64} {hierarchy : Hierarchy} {calls : CallGraph} {r : Revision}
    (built : hierarchy.Built)
    (ok : new forge product version timestamp nodeCount generator hierarchy calls = .ok r) :
    r.Sound := by
  obtain ⟨forgeNamed, productNamed, versionNamed, _, coordinates, made, rfl⟩ := new_eq_ok_iff.1 ok
  obtain ⟨rfl, rfl, rfl⟩ := Coordinates.of_eq_ok_iff.1 made
  exact ⟨forgeNamed, productNamed, versionNamed, built⟩

theorem sound_of_decode {d : Document} {decoded : Decoded} (ok : d.decode = .ok decoded) :
    decoded.revision.Sound := by
  unfold Document.decode at ok
  obtain ⟨forge, _, ok⟩ := bind_eq_ok_iff.1 ok
  obtain ⟨product, _, ok⟩ := bind_eq_ok_iff.1 ok
  obtain ⟨version, _, ok⟩ := bind_eq_ok_iff.1 ok
  obtain ⟨generator, _, ok⟩ := bind_eq_ok_iff.1 ok
  obtain ⟨types, _, ok⟩ := bind_eq_ok_iff.1 ok
  obtain ⟨hierarchy, hierarchyOk, ok⟩ := bind_eq_ok_iff.1 ok
  obtain ⟨entries, _, ok⟩ := bind_eq_ok_iff.1 ok
  obtain ⟨calls, _, ok⟩ := bind_eq_ok_iff.1 ok
  obtain ⟨nodes, _, ok⟩ := bind_eq_ok_iff.1 ok
  obtain ⟨r, made, ok⟩ := bind_eq_ok_iff.1 ok
  cases ok
  exact sound_of_new (Document.decodeHierarchy_built hierarchyOk) made

theorem sound_of_finish {a : Assembler} (kept : a.Kept) {forge product version generator : String}
    {timestamp : Option Int64} {r : Revision}
    (ok : a.finish forge product version generator timestamp = .ok r) : r.Sound :=
  sound_of_new kept.built (checked_eq_ok_iff.1 (during_eq_ok_iff.1 ok))

theorem sound_of_assemble {f : Facts} {r : Revision} (ok : f.assemble = .ok r) : r.Sound := by
  unfold Facts.assemble at ok
  obtain ⟨_, _, ok⟩ := bind_eq_ok_iff.1 ok
  exact sound_of_finish (Assembler.kept_empty.walk f.toList) ok

theorem Reachable.sound {r : Revision} (reachable : r.Reachable) : r.Sound := by
  induction reachable with
  | new built ok => exact sound_of_new built ok
  | draft built ok => exact sound_of_new built ok
  | decoded ok => exact sound_of_decode ok
  | assembled ok => exact sound_of_assemble ok
  | editTypes _ proper ih => exact ⟨ih.forge, ih.product, ih.version, ih.built.edit proper⟩
  | editCalls _ _ ih => exact ⟨ih.forge, ih.product, ih.version, ih.built⟩

end Revision

end RevisionGraph
