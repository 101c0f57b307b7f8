import RevisionGraph.Store.Basic

/-!
# A store in memory

The texts and the summaries are two maps. A map changes by one action at a time, and `put` and
`remove` take one action on each: the actions of several tasks may come in any order. The maps may
be walked in any order too, so a list of summaries is sorted.
-/

namespace RevisionGraph

structure MemoryStore where
  texts : SortedMap String String
  summaries : SortedMap String Summary

namespace MemoryStore

def empty : MemoryStore := ⟨∅, ∅⟩

instance : EmptyCollection MemoryStore := ⟨empty⟩

/-- A change that is made at once. -/
inductive Action where
  | setText (key text : String)
  | setSummary (key : String) (summary : Summary)
  | dropText (key : String)
  | dropSummary (key : String)

def act (s : MemoryStore) : Action → MemoryStore
  | .setText key text => { s with texts := s.texts.insert key text }
  | .setSummary key summary => { s with summaries := s.summaries.insert key summary }
  | .dropText key => { s with texts := s.texts.erase key }
  | .dropSummary key => { s with summaries := s.summaries.erase key }

def putActions (r : Revision) : List Action :=
  [.setText (RevisionStore.storeKey r) r.compact,
    .setSummary (RevisionStore.storeKey r) (.ofRevision r)]

def removeActions (key : String) : List Action := [.dropSummary key, .dropText key]

/-- The summaries of a walk in the order of their URIs. -/
def inOrder (walk : List Summary) : List Summary :=
  walk.mergeSort fun a b => (compare a.uri b.uri).isLE

def size (s : MemoryStore) : Nat := s.texts.size

def isEmpty (s : MemoryStore) : Bool := s.texts.isEmpty

instance : RevisionStore MemoryStore where
  put s r := (.ok (RevisionStore.storeKey r), (putActions r).foldl act s)
  get? s key :=
    match s.texts.get? key with
    | some text => (RevisionStore.readStored key text).map some
    | none => .ok none
  list s := .ok (inOrder s.summaries.values)
  remove s key := (s.texts.contains key, (removeActions key).foldl act s)

end MemoryStore

end RevisionGraph
