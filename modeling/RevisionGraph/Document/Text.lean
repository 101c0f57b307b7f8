import RevisionGraph.Assembly.Facts
import RevisionGraph.Document.Decode
import RevisionGraph.Failure

/-!
# Reading documents from text
-/

namespace RevisionGraph

/-- Reads a revision from the text of its document. -/
def Decoded.parse (runes : List Rune) : Except Failure Decoded :=
  match Document.parse runes with
  | some document => checked document.decode
  | none => .error ⟨[], .json⟩

/-- Reads a revision from a document that is first read as a value. -/
def Decoded.ofValueText (runes : List Rune) : Except Failure Decoded :=
  match (Json.Value.parse runes).bind Document.ofValue? with
  | some document => checked document.decode
  | none => .error ⟨[], .json⟩

def Facts.ofText (runes : List Rune) : Except Failure Facts :=
  match Facts.parse runes with
  | some facts => .ok facts
  | none => .error ⟨[], .json⟩

end RevisionGraph
