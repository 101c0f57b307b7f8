import RevisionGraph.Revision

/-!
# Summaries

The coordinates and counts of a revision, and their text on one line.
-/

namespace RevisionGraph

structure Summary where
  uri : String
  forge : String
  product : String
  version : String
  timestamp : Int64
  generator : String
  nodeCount : UInt64
  internalTypes : UInt64
  externalTypes : UInt64
  resolvedTypes : UInt64
  internalCalls : UInt64
  externalCalls : UInt64
  resolvedCalls : UInt64
  deriving DecidableEq

namespace Summary

def ofRevision (r : Revision) : Summary where
  uri := r.uri.text
  forge := r.coordinates.forge
  product := r.coordinates.product
  version := r.coordinates.version
  timestamp := r.timestamp.seconds
  generator := r.generator
  nodeCount := r.nodeCount
  internalTypes := .ofNat r.hierarchy.internal.size
  externalTypes := .ofNat r.hierarchy.external.size
  resolvedTypes := .ofNat r.hierarchy.resolved.size
  internalCalls := .ofNat r.calls.internal.size
  externalCalls := .ofNat r.calls.external.size
  resolvedCalls := .ofNat r.calls.resolved.size

/-- A summary names its revision. -/
theorem uri_ofRevision (r : Revision) : (ofRevision r).uri = r.uri.text := rfl

def countText (n : UInt64) : String := integerText n.toNat

/-- `uri (generator) nodes=n types=i/e/r calls=i/e/r` -/
def text (s : Summary) : String :=
  s.uri ++ " (" ++ s.generator ++ ") nodes=" ++ countText s.nodeCount ++
    " types=" ++ countText s.internalTypes ++ "/" ++ countText s.externalTypes ++ "/" ++
    countText s.resolvedTypes ++
    " calls=" ++ countText s.internalCalls ++ "/" ++ countText s.externalCalls ++ "/" ++
    countText s.resolvedCalls

end Summary

end RevisionGraph
