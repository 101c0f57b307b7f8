import RevisionGraph.Document.Encode
import RevisionGraph.Document.Text
import RevisionGraph.Summary

/-!
# Stores of revisions

A store keeps the texts of revisions under the texts of their URIs, and beside each text a summary.
-/

namespace RevisionGraph

class RevisionStore (σ : Type) where
  /-- Stores a revision in place of one with the same URI, and gives the key. -/
  put : σ → Revision → Except Failure String × σ
  get? : σ → String → Except Failure (Option Revision)
  /-- The summaries of all revisions in the order of their URIs. -/
  list : σ → Except Failure (List Summary)
  /-- Also tells whether there was something to remove. -/
  remove : σ → String → Bool × σ

namespace RevisionStore

def storeKey (r : Revision) : String := r.uri.text

def readStored (key text : String) : Except Failure Revision :=
  during ("Stored revision is corrupt: " ++ key) do
    return (← Decoded.parse (Runes.ofString text)).revision

end RevisionStore

end RevisionGraph
