import RevisionGraph.Text.Integer

/-!
# Plain TOML documents

The part of TOML that settings are written in: lines `key = value`, where a key is one name, bare or
quoted, and a value is a text, an integer or a truth value. Documents with tables, arrays, dotted
keys, floats or dates are not read.
-/

namespace RevisionGraph.Toml

inductive Scalar where
  | text (s : String)
  | integer (i : Int)
  | bool (b : Bool)
  deriving DecidableEq, Repr

def isGap (c : Char) : Bool := c = ' ' || c = '\t'

def skipGap (text : List Char) : List Char := text.dropWhile isGap

/-- Whether a character may stand in a text or a comment on one line. -/
def isInline (c : Char) : Bool := c = '\t' || (0x20 ≤ c.toNat && c.toNat ≠ 0x7F)

/-- What follows a line end, if there is one. -/
def afterNewline? : List Char → Option (List Char)
  | '\n' :: rest => some rest
  | '\r' :: '\n' :: rest => some rest
  | _ => none

def hexValue? (digits : List Char) : Option Nat :=
  digits.foldlM (fun value c => do return value * 16 + (← hexDigit? c)) 0

/-- The character with a hexadecimal number. -/
def hexChar? (digits : List Char) : Option Char := do
  let n ← hexValue? digits
  if n < 0xD800 ∨ (0xDFFF < n ∧ n < 0x110000) then return Char.ofNat n else none

/-- The character after a backslash. -/
def escaped? : Char → Option Char
  | '"' => some '"'
  | '\\' => some '\\'
  | 'b' => some '\x08'
  | 'f' => some '\x0c'
  | 'n' => some '\n'
  | 'r' => some '\r'
  | 't' => some '\t'
  | _ => none

/-- Reads a text in double quotes up to its closing quote; `done` holds the characters before, the
last first. -/
def readBasic (done : List Char) : List Char → Option (String × List Char)
  | [] => none
  | '"' :: rest => some (String.ofList done.reverse, rest)
  | '\\' :: 'u' :: a :: b :: c :: d :: rest =>
    match hexChar? [a, b, c, d] with
    | some char => readBasic (char :: done) rest
    | none => none
  | '\\' :: 'U' :: a :: b :: c :: d :: e :: f :: g :: h :: rest =>
    match hexChar? [a, b, c, d, e, f, g, h] with
    | some char => readBasic (char :: done) rest
    | none => none
  | '\\' :: mark :: rest =>
    match escaped? mark with
    | some char => readBasic (char :: done) rest
    | none => none
  | c :: rest => if isInline c ∧ c ≠ '\\' then readBasic (c :: done) rest else none

/-- Reads a text in single quotes, where no character is special. -/
def readLiteral (done : List Char) : List Char → Option (String × List Char)
  | [] => none
  | '\'' :: rest => some (String.ofList done.reverse, rest)
  | c :: rest => if isInline c then readLiteral (c :: done) rest else none

/-- Reads a text of several lines up to its three closing quotes, before which there may be one or
two quotes of the text itself. While `joining` is set, blanks and line ends are passed over, as they
are after a backslash at the end of a line. -/
def readBasicLines (joining : Bool) (done : List Char) :
    List Char → Option (String × List Char)
  | [] => none
  | '"' :: '"' :: '"' :: '"' :: '"' :: '"' :: _ => none
  | '"' :: '"' :: '"' :: '"' :: '"' :: rest =>
    some (String.ofList ('"' :: '"' :: done).reverse, rest)
  | '"' :: '"' :: '"' :: '"' :: rest => some (String.ofList ('"' :: done).reverse, rest)
  | '"' :: '"' :: '"' :: rest => some (String.ofList done.reverse, rest)
  | '\\' :: 'u' :: a :: b :: c :: d :: rest =>
    match hexChar? [a, b, c, d] with
    | some char => readBasicLines false (char :: done) rest
    | none => none
  | '\\' :: 'U' :: a :: b :: c :: d :: e :: f :: g :: h :: rest =>
    match hexChar? [a, b, c, d, e, f, g, h] with
    | some char => readBasicLines false (char :: done) rest
    | none => none
  | '\\' :: mark :: rest =>
    match escaped? mark with
    | some char => readBasicLines false (char :: done) rest
    | none =>
      if (afterNewline? (skipGap (mark :: rest))).isSome then
        readBasicLines true done (mark :: rest)
      else none
  | '\r' :: '\n' :: rest => readBasicLines joining (if joining then done else '\n' :: done) rest
  | '\n' :: rest => readBasicLines joining (if joining then done else '\n' :: done) rest
  | c :: rest =>
    if joining ∧ isGap c then readBasicLines true done rest
    else if isInline c ∧ c ≠ '\\' then readBasicLines false (c :: done) rest
    else none

def readLiteralLines (done : List Char) : List Char → Option (String × List Char)
  | [] => none
  | '\'' :: '\'' :: '\'' :: '\'' :: '\'' :: '\'' :: _ => none
  | '\'' :: '\'' :: '\'' :: '\'' :: '\'' :: rest =>
    some (String.ofList ('\'' :: '\'' :: done).reverse, rest)
  | '\'' :: '\'' :: '\'' :: '\'' :: rest => some (String.ofList ('\'' :: done).reverse, rest)
  | '\'' :: '\'' :: '\'' :: rest => some (String.ofList done.reverse, rest)
  | '\r' :: '\n' :: rest => readLiteralLines ('\n' :: done) rest
  | '\n' :: rest => readLiteralLines ('\n' :: done) rest
  | c :: rest => if isInline c then readLiteralLines (c :: done) rest else none

/-- Drops single underscores that stand between two digits. -/
def dropUnderscores? (isDigit : Char → Bool) : List Char → Option (List Char)
  | [] => none
  | [c] => if isDigit c then some [c] else none
  | c :: '_' :: rest =>
    if isDigit c then (dropUnderscores? isDigit rest).map (c :: ·) else none
  | c :: rest => if isDigit c then (dropUnderscores? isDigit rest).map (c :: ·) else none

def digitsIn? (base : Nat) (text : List Char) : Option Int := do
  let digits ← dropUnderscores? (fun c => (hexDigit? c).any (· < base)) text
  return digits.foldl (fun value c => value * base + ((hexDigit? c).getD 0 : Nat)) 0

/-- Decimal digits, without a zero in front of others. -/
def decimal? : List Char → Option Int
  | ['0'] => some 0
  | '0' :: _ => none
  | digits => digitsIn? 10 digits

def integer? : List Char → Option Int
  | '0' :: 'x' :: digits => digitsIn? 16 digits
  | '0' :: 'o' :: digits => digitsIn? 8 digits
  | '0' :: 'b' :: digits => digitsIn? 2 digits
  | '+' :: digits => decimal? digits
  | '-' :: digits => (decimal? digits).map Int.neg
  | digits => decimal? digits

/-- A value without quotes. Integers have 64 bits. -/
def word? (word : List Char) : Option Scalar :=
  if word = "true".toList then some (.bool true)
  else if word = "false".toList then some (.bool false)
  else do
    let i ← integer? word
    if Int64.minValue.toInt ≤ i ∧ i ≤ Int64.maxValue.toInt then return .integer i else none

def isWordChar (c : Char) : Bool := !isGap c && c ≠ '#' && c ≠ '\n' && c ≠ '\r'

def readScalar : List Char → Option (Scalar × List Char)
  | '"' :: '"' :: '"' :: rest =>
    (readBasicLines false [] ((afterNewline? rest).getD rest)).map
      fun (s, after) => (.text s, after)
  | '\'' :: '\'' :: '\'' :: rest =>
    (readLiteralLines [] ((afterNewline? rest).getD rest)).map
      fun (s, after) => (.text s, after)
  | '"' :: rest => (readBasic [] rest).map fun (s, after) => (.text s, after)
  | '\'' :: rest => (readLiteral [] rest).map fun (s, after) => (.text s, after)
  | text => (word? (text.takeWhile isWordChar)).map (·, text.dropWhile isWordChar)

def isBareKeyChar (c : Char) : Bool := c.isAlphanum || c = '_' || c = '-'

def readKey : List Char → Option (String × List Char)
  | '"' :: rest => readBasic [] rest
  | '\'' :: rest => readLiteral [] rest
  | text =>
    let key := text.takeWhile isBareKeyChar
    if key.isEmpty then none else some (String.ofList key, text.dropWhile isBareKeyChar)

def readEntry (text : List Char) : Option ((String × Scalar) × List Char) := do
  let (key, rest) ← readKey text
  match skipGap rest with
  | '=' :: rest =>
    let (value, rest) ← readScalar (skipGap rest)
    return ((key, value), rest)
  | _ => none

def skipComment : List Char → List Char
  | '#' :: rest => rest.dropWhile isInline
  | text => text

/-- Whether a line ends here, but for a comment. -/
def atLineEnd : List Char → Bool
  | [] => true
  | c :: _ => c = '#' || c = '\n' || c = '\r'

/-- Reads lines to the end of the text; `done` holds the entries before, the last first. -/
def readLines (done : List (String × Scalar)) (text : List Char) :
    Option (List (String × Scalar)) :=
  let start := skipGap text
  let entry? := if atLineEnd start then some (done, start) else
    (readEntry start).map fun (entry, rest) => (entry :: done, rest)
  match entry? with
  | none => none
  | some (done, rest) =>
    match skipComment (skipGap rest) with
    | [] => some done.reverse
    | rest =>
      match afterNewline? rest with
      | none => none
      | some next => if next.length < text.length then readLines done next else none
termination_by text.length

/-- The entries of a document, which may start with a byte order mark. -/
def read? (text : String) : Option (List (String × Scalar)) :=
  match text.toList with
  | '\uFEFF' :: rest => readLines [] rest
  | text => readLines [] text

end RevisionGraph.Toml
