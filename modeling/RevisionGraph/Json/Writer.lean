import RevisionGraph.Json.Value

/-!
# Writing values

`Value.compact` writes a value without blanks, `Value.pretty` with one item or member a line and two
blanks for each level.
-/

namespace RevisionGraph.Json

def hexChar (n : Nat) : Char := Nat.digitChar n

/-- A character inside quotes. -/
def escapeChar (c : Char) : List Char :=
  if c = '"' then ['\\', '"']
  else if c = '\\' then ['\\', '\\']
  else if c = '\x08' then ['\\', 'b']
  else if c = '\x0c' then ['\\', 'f']
  else if c = '\n' then ['\\', 'n']
  else if c = '\r' then ['\\', 'r']
  else if c = '\t' then ['\\', 't']
  else if c.toNat < 0x20 then ['\\', 'u', '0', '0', hexChar (c.toNat / 16), hexChar (c.toNat % 16)]
  else [c]

def quote (text : String) : List Char := '"' :: text.toList.flatMap escapeChar ++ ['"']

/-- Puts `separator` between the parts. -/
def separated (separator : List Char) : List (List Char) → List Char
  | [] => []
  | [part] => part
  | part :: rest => part ++ separator ++ separated separator rest

def newline (indent : Nat) : List Char := '\n' :: List.replicate indent ' '

namespace Value

mutual

def compactChars : Value → List Char
  | .null => ['n', 'u', 'l', 'l']
  | .bool true => ['t', 'r', 'u', 'e']
  | .bool false => ['f', 'a', 'l', 's', 'e']
  | .number n => n.chars
  | .text s => quote s
  | .array items => '[' :: separated [','] (compactItems items) ++ [']']
  | .object members => '{' :: separated [','] (compactMembers members) ++ ['}']

def compactItems : List Value → List (List Char)
  | [] => []
  | item :: rest => compactChars item :: compactItems rest

def compactMembers : List (String × Value) → List (List Char)
  | [] => []
  | (key, value) :: rest => (quote key ++ ':' :: compactChars value) :: compactMembers rest

end

mutual

def prettyChars (indent : Nat) : Value → List Char
  | .array (item :: rest) =>
    '[' :: newline (indent + 2) ++
      separated (',' :: newline (indent + 2)) (prettyItems (indent + 2) (item :: rest)) ++
      newline indent ++ [']']
  | .object (member :: rest) =>
    '{' :: newline (indent + 2) ++
      separated (',' :: newline (indent + 2)) (prettyMembers (indent + 2) (member :: rest)) ++
      newline indent ++ ['}']
  | value => compactChars value

def prettyItems (indent : Nat) : List Value → List (List Char)
  | [] => []
  | item :: rest => prettyChars indent item :: prettyItems indent rest

def prettyMembers (indent : Nat) : List (String × Value) → List (List Char)
  | [] => []
  | (key, value) :: rest =>
    (quote key ++ ':' :: ' ' :: prettyChars indent value) :: prettyMembers indent rest

end

def compact (v : Value) : String := String.ofList v.compactChars

def pretty (v : Value) : String := String.ofList (v.prettyChars 0)

end Value

end RevisionGraph.Json
