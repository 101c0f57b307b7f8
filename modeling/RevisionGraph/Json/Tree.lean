import RevisionGraph.Json.Token
import RevisionGraph.Json.Value

/-!
# Documents as trees

A `Tree` is a document as it is written: members in written order, repeated keys kept, and literals
without a value in their places. `Tree.parse` is a machine that takes one token after the other and
keeps the containers that are still open on a stack. `Tree.value?` is the value of a tree, if it has
one; `Value.tree` is the tree that a value is written as.
-/

namespace RevisionGraph.Json

inductive Tree where
  | null
  | bool (b : Bool)
  | number (n : Number)
  | text (s : String)
  /-- A literal that has no value. -/
  | valueless
  | array (items : List Tree)
  | object (members : List (Option String × Tree))
  deriving Inhabited

namespace Tree

/-- An open container, with what it holds so far, the last first. -/
inductive Frame where
  | array (items : List Tree)
  | object (members : List (Option String × Tree)) (key : Option String)

/-- What is read so far, and so what may follow. -/
inductive State where
  /-- A value follows. -/
  | value (stack : List Frame)
  /-- An array is open: its first item or its end follows. -/
  | item (stack : List Frame)
  /-- An object is open: its first key or its end follows. -/
  | member (stack : List Frame)
  /-- A further key follows. -/
  | key (members : List (Option String × Tree)) (stack : List Frame)
  /-- The colon behind a key follows. -/
  | colon (members : List (Option String × Tree)) (key : Option String) (stack : List Frame)
  /-- A value is complete. -/
  | done (tree : Tree) (stack : List Frame)

/-- Starts a value. -/
def start (stack : List Frame) : Token → Option State
  | .null => some (.done .null stack)
  | .bool b => some (.done (.bool b) stack)
  | .number (some n) => some (.done (.number n) stack)
  | .number none => some (.done .valueless stack)
  | .text (some s) => some (.done (.text s) stack)
  | .text none => some (.done .valueless stack)
  | .openArray => some (.item stack)
  | .openObject => some (.member stack)
  | _ => none

/-- Goes on behind a complete value, inside the innermost open container. -/
def close (tree : Tree) : List Frame → Token → Option State
  | .array items :: stack, .comma => some (.value (.array (tree :: items) :: stack))
  | .array items :: stack, .closeArray => some (.done (.array (tree :: items).reverse) stack)
  | .object members key :: stack, .comma => some (.key ((key, tree) :: members) stack)
  | .object members key :: stack, .closeObject =>
    some (.done (.object ((key, tree) :: members).reverse) stack)
  | _, _ => none

def step : State → Token → Option State
  | .value stack, token => start stack token
  | .item stack, .closeArray => some (.done (.array []) stack)
  | .item stack, token => start (.array [] :: stack) token
  | .member stack, .closeObject => some (.done (.object []) stack)
  | .member stack, .text key => some (.colon [] key stack)
  | .member _, _ => none
  | .key members stack, .text key => some (.colon members key stack)
  | .key _ _, _ => none
  | .colon members key stack, .colon => some (.value (.object members key :: stack))
  | .colon _ _ _, _ => none
  | .done tree stack, token => close tree stack token

def result? : State → Option Tree
  | .done tree [] => some tree
  | _ => none

def ofTokens? (tokens : List Token) : Option Tree :=
  (tokens.foldlM step (.value [])).bind result?

/-- Reads the text of a document. -/
def parse (runes : List Rune) : Option Tree := (Token.lex runes).bind ofTokens?

mutual

/-- The value of a tree that is nested at most `depth` deep. Of two members with one key the later
counts. -/
def value? (depth : Nat) : Tree → Option Value
  | .null => some .null
  | .bool b => some (.bool b)
  | .number n => some (.number n)
  | .text s => some (.text s)
  | .valueless => none
  | .array items =>
    match depth with
    | 0 => none
    | depth + 1 => (itemValues? depth items).map .array
  | .object members =>
    match depth with
    | 0 => none
    | depth + 1 => (memberValues? depth members).map .object'

def itemValues? (depth : Nat) : List Tree → Option (List Value)
  | [] => some []
  | item :: rest => do return (← value? depth item) :: (← itemValues? depth rest)

def memberValues? (depth : Nat) : List (Option String × Tree) → Option (List (String × Value))
  | [] => some []
  | (key, tree) :: rest => do
    return (← key, ← value? depth tree) :: (← memberValues? depth rest)

end

/-- How deep arrays and objects may be nested. -/
def nestingLimit : Nat := 127

end Tree

mutual

/-- The tree that a value is written as. -/
def Value.tree : Value → Tree
  | .null => .null
  | .bool b => .bool b
  | .number n => .number n
  | .text s => .text s
  | .array items => .array (Value.itemTrees items)
  | .object members => .object (Value.memberTrees members)

def Value.itemTrees : List Value → List Tree
  | [] => []
  | item :: rest => item.tree :: Value.itemTrees rest

def Value.memberTrees : List (String × Value) → List (Option String × Tree)
  | [] => []
  | (key, value) :: rest => (some key, value.tree) :: Value.memberTrees rest

end

/-- Reads a text as a value. -/
def Value.parse (runes : List Rune) : Option Value :=
  (Tree.parse runes).bind (Tree.value? Tree.nestingLimit)

end RevisionGraph.Json
