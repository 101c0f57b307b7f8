import RevisionGraph.Json.Number
import RevisionGraph.Ordered.Map

/-!
# Values of a document

The members of an object stand in the order in which they are written. `Value.sorted` puts them in
key order at every level, and `Value.IsSorted` says that they stand so already, as they do in every
value that is read.
-/

namespace RevisionGraph.Json

inductive Value where
  | null
  | bool (b : Bool)
  | number (n : Number)
  | text (s : String)
  | array (items : List Value)
  | object (members : List (String × Value))
  deriving Inhabited

namespace Value

def whole (n : Whole) : Value := .number (.whole n)

def int (i : Int64) : Value := whole (.ofInt64 i)

def natural (n : UInt64) : Value := whole (.ofUInt64 n)

mutual

def beq : Value → Value → Bool
  | .null, .null => true
  | .bool a, .bool b => a == b
  | .number a, .number b => a == b
  | .text a, .text b => a == b
  | .array a, .array b => beqItems a b
  | .object a, .object b => beqMembers a b
  | _, _ => false

def beqItems : List Value → List Value → Bool
  | [], [] => true
  | a :: as, b :: bs => beq a b && beqItems as bs
  | _, _ => false

def beqMembers : List (String × Value) → List (String × Value) → Bool
  | [], [] => true
  | (k, a) :: as, (l, b) :: bs => k == l && beq a b && beqMembers as bs
  | _, _ => false

end

instance : BEq Value := ⟨beq⟩

/-- The members in key order; of two with one key the later stays. -/
def object' (members : List (String × Value)) : Value := .object (SortedMap.ofList members).toList

mutual

/-- Every object with its members in key order. -/
def sorted : Value → Value
  | .array items => .array (sortedItems items)
  | .object members => object' (sortedMembers members)
  | value => value

def sortedItems : List Value → List Value
  | [] => []
  | item :: rest => sorted item :: sortedItems rest

def sortedMembers : List (String × Value) → List (String × Value)
  | [] => []
  | (key, value) :: rest => (key, sorted value) :: sortedMembers rest

end

mutual

/-- The keys of every object increase strictly. -/
inductive IsSorted : Value → Prop where
  | null : IsSorted .null
  | bool (b : Bool) : IsSorted (.bool b)
  | number (n : Number) : IsSorted (.number n)
  | text (s : String) : IsSorted (.text s)
  | array {items : List Value} : AllSorted items → IsSorted (.array items)
  | object {members : List (String × Value)} :
      Ascending members → AllSorted (members.map Prod.snd) → IsSorted (.object members)

inductive AllSorted : List Value → Prop where
  | nil : AllSorted []
  | cons {value : Value} {rest : List Value} :
      IsSorted value → AllSorted rest → AllSorted (value :: rest)

end

end Value

/-- What a tool notes about a method or a call site, kept as it is. -/
abbrev Metadata := SortedMap String Value

end RevisionGraph.Json
