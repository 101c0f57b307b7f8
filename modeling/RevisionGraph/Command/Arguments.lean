import RevisionGraph.Text.Search

/-!
# Arguments of a command line

A `Switch` is given by its long name, as in `--output file` or `--output=file`, or by a letter, as
in `-o file`, `-ofile` or `-o=file`. What is no switch is positional, and so is everything after
`--`. `Arguments.read` reads from the left, and the first argument that is wrong or asks for help
decides.
-/

namespace RevisionGraph

/-- What a value may be. -/
inductive ValueKind where
  | text
  /-- A path, which is not empty. -/
  | path
  | oneOf (names : List String)
  deriving DecidableEq, Repr

def ValueKind.accepts : ValueKind → String → Bool
  | .text, _ => true
  | .path, value => value ≠ ""
  | .oneOf names, value => names.contains value

structure Switch where
  name : String
  letter : Option Char
  /-- What its value may be, if it takes one. -/
  value : Option ValueKind
  deriving DecidableEq, Repr

/-- The positional arguments that a command takes. -/
structure Positional where
  kind : ValueKind
  /-- Whether there may be more than one. -/
  isRepeated : Bool
  deriving DecidableEq, Repr

/-- The arguments that a command takes, or the names of the commands of which one follows. -/
structure Form where
  switches : List Switch
  positional : Option Positional
  commands : List String
  deriving Repr

/-- Why the arguments are not the arguments of a command. -/
inductive Stop where
  | usage
  | help
  | version
  deriving DecidableEq, Repr

structure Arguments where
  /-- The switches that are given, each with its value. -/
  given : List (String × String)
  positional : List String
  /-- The last switch, while the value in the argument behind it is not yet checked. -/
  pending : Option (Switch × String)
  deriving Repr

namespace Arguments

def empty : Arguments := ⟨[], [], none⟩

instance : EmptyCollection Arguments := ⟨empty⟩

def value? (a : Arguments) (name : String) : Option String := a.given.lookup name

def has (a : Arguments) (name : String) : Bool := (a.value? name).isSome

/-- Adds a switch that is given for the first time. -/
def add (a : Arguments) (s : Switch) (value : String) : Except Stop Arguments :=
  if a.has s.name ∨ s.value.any (!·.accepts value) then .error .usage
  else .ok { a with given := a.given ++ [(s.name, value)], pending := none }

/-- Checks the value that is pending. -/
def settle (a : Arguments) : Except Stop Arguments :=
  match a.pending with
  | some (s, value) => a.add s value
  | none => .ok a

def addPositional (form : Form) (a : Arguments) (text : String) : Except Stop Arguments := do
  let a ← a.settle
  match form.positional with
  | none => throw .usage
  | some p =>
    if (!p.isRepeated ∧ !a.positional.isEmpty) ∨ !p.kind.accepts text then throw .usage
    return { a with positional := a.positional ++ [text] }

/-- Whether an argument cannot be the value of a switch in front of it. -/
def looksLikeSwitch (text : String) : Bool :=
  match text.toList with
  | '-' :: _ :: _ => true
  | _ => false

/-- An argument as a switch, and the value that is written in the same argument. -/
def readSwitch? (switches : List Switch) (text : List Char) :
    Option (Switch × Option (List Char)) :=
  match text with
  | '-' :: '-' :: long =>
    let (name, value) := cut '=' long
    (switches.find? fun s => s.name.toList == name).map (·, value)
  | '-' :: letter :: rest =>
    (switches.find? fun s => s.letter == some letter).map fun s =>
      match rest with
      | [] => (s, none)
      | '=' :: value => (s, some value)
      | value => (s, some value)
  | _ => none

/-- A switch that takes no value. A letter may have more letters behind it; only the long name
cannot have anything. -/
def addPlain (a : Arguments) (s : Switch) (isBare isLong : Bool) : Except Stop Arguments :=
  if isLong ∧ !isBare then .error .usage
  else if s.name = "help" then .error .help
  else if s.name = "version" then .error .version
  else if !isBare then .error .usage
  else a.add s ""

/-- Reads arguments to their end, or up to the name of a command. Gives what is read and what is
left. A value in an argument of its own is checked when the next argument is added, so that a
command behind it is read first. -/
def read (form : Form) (a : Arguments) : List String → Except Stop (Arguments × List String)
  | [] => .ok (a, [])
  | text :: rest =>
    if form.commands.contains text then .ok (a, text :: rest)
    else if text = "--" then do return (← rest.foldlM (addPositional form) a, [])
    else if looksLikeSwitch text then
      match readSwitch? form.switches text.toList with
      | none => .error .usage
      | some (s, written) => do
        let a ← a.settle
        match s.value, written, rest with
        | none, written, rest =>
          read form (← a.addPlain s written.isNone (text.startsWith "--")) rest
        | some _, some value, rest => read form (← a.add s (String.ofList value)) rest
        | some _, none, [] => throw .usage
        | some _, none, value :: rest =>
          if looksLikeSwitch value then throw .usage
          else read form { a with pending := some (s, value) } rest
    else do read form (← addPositional form a text) rest

end Arguments

end RevisionGraph
