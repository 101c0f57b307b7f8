import RevisionGraph.Json.Value
import RevisionGraph.Uri.Basic

/-!
# Methods

A method is named by a URI whose entity is `Class.name(arguments)result`. `Method.typeUri` is the
URI of its class, `Method.rename` the URI with another class and name.
-/

namespace RevisionGraph

open Json (Metadata)

structure Method where
  uri : Uri
  metadata : Metadata

namespace Method

instance : BEq Method := ⟨fun m n => decide (m.uri = n.uri) && m.metadata == n.metadata⟩

/-- A method about which nothing is noted. -/
def plain (uri : Uri) : Method := ⟨uri, ∅⟩

def entityChars (m : Method) : List Char := (m.uri.parts.path?.bind Uri.Path.entity).getD []

/-- The entity before its first point. -/
def classChars (m : Method) : List Char := (cut '.' m.entityChars).1

/-- The entity between its first point and the next parenthesis; empty if one of them is missing. -/
def nameChars (m : Method) : List Char :=
  match cut '.' m.entityChars with
  | (_, none) => []
  | (_, some rest) =>
    match cut '(' rest with
    | (_, none) => []
    | (name, some _) => name

def entity (m : Method) : String := String.ofList m.entityChars

def className (m : Method) : String := String.ofList m.classChars

def name (m : Method) : String := String.ofList m.nameChars

/-- The URI of the type that declares the method. -/
def typeUri (m : Method) : Except Error Uri :=
  match m.uri.parts.path? with
  | none => .error (.malformedUri m.uri.text .noPackage)
  | some path =>
    if m.classChars.isEmpty then .error (.malformedUri m.uri.text .noClass)
    else
      Uri.parse (String.ofList (m.uri.parts.base ++ '/' :: path.package ++ '/' :: m.classChars))

/-- The URI with `/Class.` replaced where it first occurs, and then `.name(` where that first
occurs. -/
def rename (m : Method) (className name : String) : Except Error Uri :=
  let withClass := replaceFirst ('/' :: m.classChars ++ ['.']) ('/' :: className.toList ++ ['.'])
    m.uri.text.toList
  let withName := replaceFirst ('.' :: m.nameChars ++ ['(']) ('.' :: name.toList ++ ['(']) withClass
  Uri.parse (String.ofList withName)

end Method

end RevisionGraph
