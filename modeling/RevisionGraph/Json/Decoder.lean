import RevisionGraph.Json.Tree

/-!
# Reading typed data from a tree

A `Decoder` reads one shape of tree. A record is an object with known keys, each at most once, where
other keys are passed over whatever they hold, or an array of its fields in order.
-/

namespace RevisionGraph.Json

/-- Reads a tree that may be nested `depth` deep. -/
abbrev Decoder (α : Type) := (depth : Nat) → Tree → Option α

namespace Decoder

variable {α : Type}

def text : Decoder String
  | _, .text s => some s
  | _, _ => none

def bool : Decoder Bool
  | _, .bool b => some b
  | _, _ => none

def int64 : Decoder Int64
  | _, .number (.whole n) => n.toInt64?
  | _, _ => none

def natural : Decoder UInt64
  | _, .number (.whole n) => n.toUInt64?
  | _, _ => none

def value : Decoder Value := Tree.value?

def metadata : Decoder Metadata
  | depth + 1, .object members => (Tree.memberValues? depth members).map SortedMap.ofList
  | _, _ => none

/-- Reads `null` as the absence of a value. -/
def optional (decode : Decoder α) : Decoder (Option α)
  | _, .null => some none
  | depth, tree => (decode depth tree).map some

def list (decode : Decoder α) : Decoder (List α)
  | depth + 1, .array items => items.mapM (decode depth)
  | _, _ => none

def member (decode : Decoder α) (depth : Nat) (entry : Option String × Tree) :
    Option (String × α) := do
  return (← entry.1, ← decode depth entry.2)

/-- Reads an object with free keys; of two members with one key the later counts. -/
def map (decode : Decoder α) : Decoder (SortedMap String α)
  | depth + 1, .object members => (members.mapM (member decode depth)).map SortedMap.ofList
  | _, _ => none

end Decoder

/-- The fields of a record that are present, each with its name. -/
structure Fields where
  depth : Nat
  present : List (String × Tree)

namespace Fields

variable {α : Type}

/-- The fields of a record whose fields are called `names`, of which an array holds at least the
first `least`. -/
def read? (names : List String) (least : Nat) : Decoder Fields
  | depth + 1, .object members => do
    let members ← members.mapM fun member => member.1.map (·, member.2)
    let known := members.filter fun member => names.contains member.1
    if (known.map Prod.fst).Nodup then return ⟨depth, known⟩ else none
  | depth + 1, .array items =>
    if least ≤ items.length ∧ items.length ≤ names.length then some ⟨depth, names.zip items⟩
    else none
  | _, _ => none

def get? (fields : Fields) (name : String) : Option Tree := fields.present.lookup name

/-- A field that may be absent or `null`. -/
def optional (fields : Fields) (name : String) (decode : Decoder α) : Option (Option α) :=
  match fields.get? name with
  | some tree => Decoder.optional decode fields.depth tree
  | none => some none

def required (fields : Fields) (name : String) (decode : Decoder α) : Option α :=
  (fields.get? name).bind (decode fields.depth)

/-- A field that stands for `default` where it is absent. -/
def withDefault (fields : Fields) (name : String) (decode : Decoder α) (default : α) : Option α :=
  match fields.get? name with
  | some tree => decode fields.depth tree
  | none => some default

end Fields

end RevisionGraph.Json
