import RevisionGraph.Files.Change
import RevisionGraph.Store.Basic
import RevisionGraph.Store.Codec

/-!
# A store on disk

The texts of revisions and the bytes of their summaries, in two maps that are kept in one file of a
folder. `DiskStore.read?` reads what `DiskStore.text` writes.
-/

namespace RevisionGraph

open Json

/-- The bytes of a summary are those of `codec`. -/
structure DiskStore (codec : Codec Summary := Summary.codec) where
  texts : SortedMap String String
  summaries : SortedMap String (List UInt8)

namespace DiskStore

variable {codec : Codec Summary}

def empty : DiskStore codec := ⟨∅, ∅⟩

instance : EmptyCollection (DiskStore codec) := ⟨empty⟩

variable (codec) in
def readSummary (entry : String × List UInt8) : Except Failure Summary :=
  match codec.decode? entry.2 with
  | some summary => .ok summary
  | none => .error ⟨["Corrupt summary for " ++ entry.1], .store "not a summary"⟩

instance : RevisionStore (DiskStore codec) where
  put s r :=
    let key := RevisionStore.storeKey r
    (.ok key,
      { texts := s.texts.insert key r.compact
        summaries := s.summaries.insert key (codec.encode (.ofRevision r)) })
  get? s key :=
    match s.texts.get? key with
    | some text => (RevisionStore.readStored key text).map some
    | none => .ok none
  list s := s.summaries.toList.mapM (readSummary codec)
  remove s key :=
    (s.texts.contains key,
      { texts := s.texts.erase key, summaries := s.summaries.erase key })

/-! ### The file -/

def byteValue (byte : UInt8) : Value := .natural byte.toUInt64

def bytesValue (bytes : List UInt8) : Value := .array (bytes.map byteValue)

def value (s : DiskStore codec) : Value :=
  .array [Document.mapValue .text s.texts, Document.mapValue bytesValue s.summaries]

def text (s : DiskStore codec) : String := s.value.compact

def byteDecoder : Decoder UInt8 := fun depth tree =>
  (Decoder.natural depth tree).bind fun n => if n < 256 then some n.toUInt8 else none

def decoder : Decoder (DiskStore codec)
  | depth + 1, .array [texts, summaries] => do
    return ⟨← Decoder.map Decoder.text depth texts,
      ← Decoder.map (Decoder.list byteDecoder) depth summaries⟩
  | _, _ => none

def read? (text : String) : Option (DiskStore codec) :=
  (Tree.parse (Runes.ofString text)).bind (decoder Tree.nestingLimit)

def fileName : String := "revisions.json"

/-- The path of the file of a store in the folder at `path`. -/
def filePath (path : String) : String := if path = "" then fileName else path ++ "/" ++ fileName

/-- Opens the store in a folder, which is made if it is not there. -/
def load (path : String) : FileTask (DiskStore codec) := do
  let fail (text : String) : Failure := ⟨["Cannot open revision store at " ++ path], .store text⟩
  ExceptT.adapt (fun fault => fail fault.message) (Files.makeParents (filePath path))
  match (← get).fetch (filePath path) with
  | .error .notFound => return ∅
  | .error fault => throw (fail fault.message)
  | .ok bytes =>
    match (String.fromUTF8? bytes).bind read? with
    | some store => return store
    | none => throw (fail "not a store")

def save (path : String) (s : DiskStore codec) : FileTask Unit :=
  FileTask.during "Failed to flush revision store" (Files.write (filePath path) s.text)

end DiskStore

end RevisionGraph
