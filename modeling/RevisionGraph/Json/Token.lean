import RevisionGraph.Json.Number
import RevisionGraph.Text.Runes

/-!
# Tokens of a document

`Token.lex` reads the text of a document as a list of tokens. A literal that is well formed but has
no value, such as a number too large for a double or a string with half a surrogate pair, is a
token without a value: whether it may stand where it stands is decided later.
-/

namespace RevisionGraph.Json

inductive Token where
  | openArray
  | closeArray
  | openObject
  | closeObject
  | colon
  | comma
  | null
  | bool (b : Bool)
  | number (value : Option Number)
  | text (value : Option String)

namespace Token

def isSpace (c : Char) : Bool := c = ' ' || c = '\t' || c = '\n' || c = '\r'

def punctuation? : Char → Option Token
  | '[' => some .openArray
  | ']' => some .closeArray
  | '{' => some .openObject
  | '}' => some .closeObject
  | ':' => some .colon
  | ',' => some .comma
  | _ => none

/-- The 16-bit unit of four hexadecimal digits. -/
def unit? (a b c d : Rune) : Option Nat := do
  let a ← hexDigit? (← a)
  let b ← hexDigit? (← b)
  let c ← hexDigit? (← c)
  let d ← hexDigit? (← d)
  return ((a * 16 + b) * 16 + c) * 16 + d

def isHighSurrogate (unit : Nat) : Bool := 0xD800 ≤ unit && unit ≤ 0xDBFF

def isLowSurrogate (unit : Nat) : Bool := 0xDC00 ≤ unit && unit ≤ 0xDFFF

/-- The character that two surrogates stand for. -/
def ofSurrogates (high low : Nat) : Char :=
  Char.ofNat (0x10000 + (high - 0xD800) * 0x400 + (low - 0xDC00))

/-- The character after a backslash, where `u` is not meant. -/
def escaped? : Char → Option Char
  | '"' => some '"'
  | '\\' => some '\\'
  | '/' => some '/'
  | 'b' => some '\x08'
  | 'f' => some '\x0c'
  | 'n' => some '\n'
  | 'r' => some '\r'
  | 't' => some '\t'
  | _ => none

/-- An element of a string literal as it is written. -/
inductive Piece where
  | char (c : Char)
  | unit (u : Nat)
  /-- A byte that belongs to no character. -/
  | stray

/-- Reads up to the closing quote; `done` holds the pieces before, the last first. -/
def readPieces (done : List Piece) : List Rune → Option (List Piece × List Rune)
  | [] => none
  | none :: rest => readPieces (.stray :: done) rest
  | some '"' :: rest => some (done.reverse, rest)
  | some '\\' :: some 'u' :: a :: b :: c :: d :: rest =>
    match unit? a b c d with
    | some u => readPieces (.unit u :: done) rest
    | none => none
  | some '\\' :: some mark :: rest =>
    match escaped? mark with
    | some c => readPieces (.char c :: done) rest
    | none => none
  | some '\\' :: _ => none
  | some c :: rest => if c.toNat < 0x20 then none else readPieces (.char c :: done) rest

theorem length_readPieces {done pieces : List Piece} {runes rest : List Rune}
    (h : readPieces done runes = some (pieces, rest)) : rest.length < runes.length := by
  fun_induction readPieces done runes <;> simp_all <;> omega

/-- The text of the pieces, if each is a character or half of a surrogate pair. -/
def joinPieces (done : List Char) : List Piece → Option String
  | [] => some (String.ofList done.reverse)
  | .char c :: rest => joinPieces (c :: done) rest
  | .stray :: _ => none
  | .unit u :: rest =>
    if isHighSurrogate u then
      match rest with
      | .unit low :: rest =>
        if isLowSurrogate low then joinPieces (ofSurrogates u low :: done) rest else none
      | _ => none
    else if isLowSurrogate u then none
    else joinPieces (Char.ofNat u :: done) rest

def isWordChar (c : Char) : Bool := !isSpace c && (punctuation? c).isNone && c ≠ '"'

/-- The token of a word: a name or a number. -/
def ofWord? (word : List Char) : Option Token :=
  if word = "null".toList then some .null
  else if word = "true".toList then some (.bool true)
  else if word = "false".toList then some (.bool false)
  else (Numeral.read? word).map fun n => .number n.value?

/-- Splits off the word that a list of runes starts with. -/
def readWord (done : List Char) : List Rune → List Char × List Rune
  | some c :: rest =>
    if isWordChar c then readWord (c :: done) rest else (done.reverse, some c :: rest)
  | rest => (done.reverse, rest)

theorem length_readWord (done : List Char) (runes : List Rune) :
    (readWord done runes).2.length ≤ runes.length := by
  fun_induction readWord done runes <;> grind

/-- Reads a whole text; `done` holds the tokens before, the last first. -/
def lexAfter (done : List Token) (runes : List Rune) : Option (List Token) :=
  match runes with
  | [] => some done.reverse
  | none :: _ => none
  | some c :: rest =>
    if isSpace c then lexAfter done rest
    else
      match punctuation? c with
      | some token => lexAfter (token :: done) rest
      | none =>
        if c = '"' then
          match h : readPieces [] rest with
          | some (pieces, after) =>
            have := length_readPieces h
            lexAfter (.text (joinPieces [] pieces) :: done) after
          | none => none
        else
          have := length_readWord [c] rest
          match ofWord? (readWord [c] rest).1 with
          | some token => lexAfter (token :: done) (readWord [c] rest).2
          | none => none
termination_by runes.length

def lex (runes : List Rune) : Option (List Token) := lexAfter [] runes

end Token

end RevisionGraph.Json
