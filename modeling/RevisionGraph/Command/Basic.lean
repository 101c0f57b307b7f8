import RevisionGraph.Command.Arguments

/-!
# Commands

`Invocation.parse` reads a command line as a command and the switches that hold for all commands.
-/

namespace RevisionGraph

/-- What is done with the store. -/
inductive StoreCommand where
  | put (files : List String)
  | get (uri output : String) (pretty : Bool)
  | list
  | remove (uri : String)
  deriving Repr

inductive Command where
  | inspect (files : List String)
  | validate (files : List String)
  | convert (input output : String) (dot pretty : Bool)
  | assemble (facts output : String) (pretty : Bool)
  | store (folder : Option String) (command : StoreCommand)
  deriving Repr

structure Invocation where
  config : Option String
  logLevel : Option String
  command : Command
  deriving Repr

namespace Invocation

/-! ### Forms -/

def configSwitch : Switch := ⟨"config", none, some .path⟩

def logLevelSwitch : Switch := ⟨"log-level", none, some .text⟩

/-- The switches of every command. -/
def common : List Switch := [configSwitch, logLevelSwitch, ⟨"help", some 'h', none⟩]

def storeSwitch : Switch := ⟨"store", none, some .path⟩

def outputSwitch : Switch := ⟨"output", some 'o', some .text⟩

def formatSwitch : Switch := ⟨"format", some 'f', some (.oneOf ["json", "dot"])⟩

def prettySwitch : Switch := ⟨"pretty", none, none⟩

def topForm : Form :=
  ⟨⟨"version", some 'V', none⟩ :: common, none,
    ["inspect", "validate", "convert", "assemble", "store", "help"]⟩

def storeForm : Form := ⟨storeSwitch :: common, none, ["put", "get", "list", "remove", "help"]⟩

/-- One positional argument or none, or any number of paths. -/
def leafForm (switches : List Switch) (positional : Option Positional) : Form :=
  ⟨switches ++ common, positional, []⟩

def pathsForm : Form := leafForm [] (some ⟨.path, true⟩)

def formOf? : String → Option Form
  | "inspect" | "validate" => some pathsForm
  | "convert" => some (leafForm [outputSwitch, formatSwitch, prettySwitch] (some ⟨.path, false⟩))
  | "assemble" => some (leafForm [outputSwitch, prettySwitch] (some ⟨.path, false⟩))
  | _ => none

def storeFormOf? : String → Option Form
  | "put" => some pathsForm
  | "get" => some (leafForm [outputSwitch, prettySwitch] (some ⟨.text, false⟩))
  | "list" => some (leafForm [] none)
  | "remove" => some (leafForm [] (some ⟨.text, false⟩))
  | _ => none

/-! ### Commands from arguments -/

/-- At least one positional argument. -/
def several (a : Arguments) : Except Stop (List String) :=
  if a.positional.isEmpty then .error .usage else .ok a.positional

def single (a : Arguments) : Except Stop String :=
  match a.positional with
  | [text] => .ok text
  | _ => .error .usage

def output (a : Arguments) : Except Stop String :=
  match a.value? outputSwitch.name with
  | some path => .ok path
  | none => .error .usage

def isPretty (a : Arguments) : Bool := a.has prettySwitch.name

def isDot (a : Arguments) : Bool := a.value? formatSwitch.name == some "dot"

def commandOf (name : String) (a : Arguments) : Except Stop Command :=
  match name with
  | "inspect" => return .inspect (← several a)
  | "validate" => return .validate (← several a)
  | "convert" => return .convert (← single a) (← output a) (isDot a) (isPretty a)
  | "assemble" => return .assemble (← single a) (← output a) (isPretty a)
  | _ => throw .usage

def storeCommandOf (name : String) (a : Arguments) : Except Stop StoreCommand :=
  match name with
  | "put" => return .put (← several a)
  | "get" => return .get (← single a) (← output a) (isPretty a)
  | "list" => return .list
  | "remove" => return .remove (← single a)
  | _ => throw .usage

/-! ### Reading -/

/-- Whether the names lead from the top to a command that help can be given on. -/
def isTopic : List String → Bool
  | [] => true
  | [name] => topForm.commands.contains name
  | ["store", name] => storeForm.commands.contains name
  | _ => false

/-- What a request for help on the command of these names ends with. -/
def helpOn (names : List String) : Stop := if isTopic names then .help else .usage

/-- The arguments of a command that no command follows. -/
def readLeaf (form : Option Form) (texts : List String) : Except Stop Arguments :=
  match form with
  | none => .error .usage
  | some form => do (← Arguments.read form ∅ texts).1.settle

def parseStore (texts : List String) : Except Stop (Command × List Arguments) := do
  let (outer, rest) ← Arguments.read storeForm ∅ texts
  match rest with
  | [] => throw .usage
  | "help" :: names => throw (helpOn ("store" :: names))
  | name :: rest =>
    let inner ← readLeaf (storeFormOf? name) rest
    let command ← storeCommandOf name inner
    let outer ← outer.settle
    return (.store (outer.value? storeSwitch.name) command, [inner, outer])

/-- A command with its arguments and those of the levels above, the innermost first. -/
def parseCommand : List String → Except Stop (Command × List Arguments)
  | [] => .error .usage
  | "help" :: names => .error (helpOn names)
  | "store" :: rest => parseStore rest
  | name :: rest => do
    let a ← readLeaf (formOf? name) rest
    return (← commandOf name a, [a])

/-- The value that is given at the innermost level. -/
def innermost (levels : List Arguments) (s : Switch) : Option String :=
  levels.findSome? fun a => a.value? s.name

def parse (texts : List String) : Except Stop Invocation := do
  let (top, rest) ← Arguments.read topForm ∅ texts
  let (command, levels) ← parseCommand rest
  let levels := levels ++ [← top.settle]
  return ⟨innermost levels configSwitch, innermost levels logLevelSwitch, command⟩

end Invocation

end RevisionGraph
