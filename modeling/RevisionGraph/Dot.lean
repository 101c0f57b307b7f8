import RevisionGraph.Revision

/-!
# Drawing a call graph

`Dot.nodes` and `Dot.edges` list the statements of a drawing, `Dot.text` writes them in the DOT
language. Labels are quoted: `Dot.unescape?` reads back what `Dot.escape` writes.
-/

namespace RevisionGraph.Dot

/-- Puts a backslash before each backslash and each quote. -/
def escape : List Char → List Char
  | [] => []
  | c :: rest => if c = '\\' ∨ c = '"' then '\\' :: c :: escape rest else c :: escape rest

/-- Reads the body of a quoted string up to its closing quote, where a backslash stands before a
character that counts as itself. Also gives what follows the quote. -/
def unescape? : List Char → Option (List Char × List Char)
  | [] => none
  | '"' :: rest => some ([], rest)
  | '\\' :: c :: rest => (unescape? rest).map fun (body, after) => (c :: body, after)
  | c :: rest => (unescape? rest).map fun (body, after) => (c :: body, after)

inductive Fill where
  | internal
  | other
  deriving DecidableEq, Repr

def Fill.color : Fill → String
  | .internal => "#89b4fa"
  | .other => "#6c7086"

def Fill.ofScope : Scope → Fill
  | .internal => .internal
  | .external | .resolved => .other

def styleName : Relation → String
  | .internal => "solid"
  | .external => "dashed"
  | .resolved => "dotted"

inductive Statement where
  | node (id : Int64) (label : String) (fill : Fill)
  | edge (pair : CallPair) (relation : Relation) (sites : Nat)
  deriving DecidableEq, Repr

def quoted (text : String) : String := "\"" ++ String.ofList (escape text.toList) ++ "\""

def Statement.text : Statement → String
  | .node id label fill =>
    "    " ++ quoted (idText id) ++ " [label=" ++ quoted label ++ ", fillcolor=" ++
      quoted fill.color ++ "];"
  | .edge pair relation sites =>
    "    " ++ quoted (idText pair.caller) ++ " -> " ++ quoted (idText pair.callee) ++
      " [style=" ++ styleName relation ++ ", label=" ++ quoted (integerText sites) ++ "];"

/-- The declared methods by id, with the scope that declares each last. -/
def declared (r : Revision) : SortedMap Int64 (Scope × Method) :=
  Scope.all.foldl
    (fun nodes scope =>
      nodes.insertMany ((r.hierarchy.methods scope).map fun row => (row.1, scope, row.2)))
    ∅

def declaredNodes (r : Revision) : List Statement :=
  (declared r).toList.map fun (id, scope, method) => .node id method.entity (.ofScope scope)

/-- The ends of all calls, each once, in ascending order. -/
def ends (r : Revision) : SortedMap Int64 Unit :=
  .ofList <| Relation.all.flatMap fun relation =>
    (r.calls.get relation).keys.flatMap fun pair => [(pair.caller, ()), (pair.callee, ())]

def undeclaredNodes (r : Revision) : List Statement :=
  ((ends r).keys.filter fun id => !(declared r).contains id).map fun id =>
    .node id ("#" ++ idText id) .other

def edges (r : Revision) : List Statement :=
  Relation.all.flatMap fun relation =>
    (r.calls.get relation).toList.map fun (pair, sites) => .edge pair relation sites.size

def nodes (r : Revision) : List Statement := declaredNodes r ++ undeclaredNodes r

/-- The lines before the statements. -/
def heading (r : Revision) : List String :=
  ["digraph CallGraph \x7b", "    rankdir=LR;", "    label=" ++ quoted r.uri.text ++ ";",
    "    node [fontname=\"Helvetica\", fontsize=11, shape=box, style=filled];", ""]

def lines (r : Revision) : List String :=
  heading r ++ (nodes r).map Statement.text ++ [""] ++ (edges r).map Statement.text ++ ["\x7d"]

def text (r : Revision) : String := "\n".intercalate (lines r)

end RevisionGraph.Dot
