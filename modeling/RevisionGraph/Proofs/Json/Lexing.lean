import Mathlib.Data.List.Forall2
import RevisionGraph.Json.Tree
import RevisionGraph.Proofs.Json.Literals

/-!
# Tokens of written values

However a value is laid out, its text is read as the tokens of the value: `Value.lex_compact` and
`Value.lex_pretty`. Doubles are left out, as one need not be read as the double that was written.
-/

namespace RevisionGraph.Json

namespace Token

/-! ### Texts and their tokens -/

/-- A word ends where these runes begin. -/
def Stops : List Rune → Prop
  | some c :: _ => isWordChar c = false
  | _ => True

/-- A text is read as these tokens wherever a word that it ends with may end. -/
def Lexes (chars : List Char) (tokens : List Token) : Prop :=
  ∀ done rest, Stops rest →
    lexAfter done (chars.map some ++ rest) = lexAfter (tokens.reverse ++ done) rest

theorem lexes_nil : Lexes [] [] := fun _ _ _ => rfl

theorem Lexes.lex {chars : List Char} {tokens : List Token} (lexes : Lexes chars tokens) :
    Token.lex (chars.map some) = some tokens := by
  have read := lexes [] [] trivial
  rw [List.append_nil, List.append_nil, lexAfter] at read
  rw [Token.lex, read, List.reverse_reverse]

theorem lexAfter_space {c : Char} (space : isSpace c = true) (done : List Token)
    (rest : List Rune) : lexAfter done (some c :: rest) = lexAfter done rest := by
  rw [lexAfter, if_pos space]

theorem lexAfter_mark {c : Char} {token : Token} (mark : punctuation? c = some token)
    (done : List Token) (rest : List Rune) :
    lexAfter done (some c :: rest) = lexAfter (token :: done) rest := by
  have noSpace : isSpace c = false := by
    unfold punctuation? at mark
    split at mark <;> first | rfl | cases mark
  rw [lexAfter, if_neg (by simp [noSpace])]
  simp only [mark]

theorem Lexes.space {c : Char} (space : isSpace c = true) {chars : List Char}
    {tokens : List Token} (lexes : Lexes chars tokens) : Lexes (c :: chars) tokens := by
  intro done rest stops
  rw [List.map_cons, List.cons_append, lexAfter_space space]
  exact lexes done rest stops

def Blanks (gap : List Char) : Prop := ∀ c ∈ gap, isSpace c = true

theorem blanks_nil : Blanks [] := by simp [Blanks]

theorem blanks_space : Blanks [' '] := by simp [Blanks, isSpace]

theorem blanks_newline (indent : Nat) : Blanks (newline indent) := by
  intro c mem
  rcases List.mem_cons.1 mem with rfl | mem
  · rfl
  · rw [List.eq_of_mem_replicate mem]
    rfl

theorem Lexes.spaces {gap : List Char} (spaces : Blanks gap) {chars : List Char}
    {tokens : List Token} (lexes : Lexes chars tokens) : Lexes (gap ++ chars) tokens := by
  induction gap with
  | nil => exact lexes
  | cons c gap ih =>
    obtain ⟨first, others⟩ := List.forall_mem_cons.1 spaces
    exact (ih others).space first

theorem Lexes.mark {c : Char} {token : Token} (mark : punctuation? c = some token)
    {chars : List Char} {tokens : List Token} (lexes : Lexes chars tokens) :
    Lexes (c :: chars) (token :: tokens) := by
  intro done rest stops
  rw [List.map_cons, List.cons_append, lexAfter_mark mark, lexes _ rest stops, List.reverse_cons,
    List.append_assoc]
  rfl

/-- What follows a text may be read on its own if it ends a word. -/
theorem Lexes.append {first second : List Char} {c : Char} {tokens tokens' : List Token}
    (lexes : Lexes first tokens) (ends : isWordChar c = false)
    (also : Lexes (c :: second) tokens') : Lexes (first ++ c :: second) (tokens ++ tokens') := by
  intro done rest stops
  have here : Stops ((c :: second).map some ++ rest) := ends
  rw [List.map_append, List.append_assoc, lexes done _ here, also _ rest stops,
    List.reverse_append, List.append_assoc]

theorem lexes_mark {c : Char} {token : Token} (mark : punctuation? c = some token) :
    Lexes [c] [token] := lexes_nil.mark mark

/-! ### Literals -/

theorem readWord_word {word : List Char} (all : ∀ c ∈ word, isWordChar c = true)
    (done : List Char) {rest : List Rune} (stops : Stops rest) :
    readWord done (word.map some ++ rest) = (done.reverse ++ word, rest) := by
  induction word generalizing done with
  | nil =>
    rw [List.map_nil, List.nil_append, List.append_nil]
    match rest, stops with
    | some c :: rest, stops =>
      have ends : isWordChar c = false := stops
      rw [readWord, if_neg (by simp [ends])]
    | none :: rest, _ => rfl
    | [], _ => rfl
  | cons c word ih =>
    obtain ⟨first, others⟩ := List.forall_mem_cons.1 all
    rw [List.map_cons, List.cons_append, readWord, if_pos first, ih others]
    simp

theorem isWordChar_eq_true {c : Char} (word : isWordChar c = true) :
    isSpace c = false ∧ punctuation? c = none ∧ c ≠ '"' := by
  simpa [isWordChar, and_assoc] using word

theorem lexes_word {word : List Char} {token : Token} (some_char : word ≠ [])
    (all : ∀ c ∈ word, isWordChar c = true) (read : ofWord? word = some token) :
    Lexes word [token] := by
  intro done rest stops
  cases word with
  | nil => exact absurd rfl some_char
  | cons c word =>
    obtain ⟨first, others⟩ := List.forall_mem_cons.1 all
    obtain ⟨space, mark, quotes⟩ := isWordChar_eq_true first
    have split_off := readWord_word others [c] stops
    rw [List.map_cons, List.cons_append, lexAfter, if_neg (by simp [space])]
    simp only [mark, if_neg quotes, split_off, List.reverse_cons, List.reverse_nil, List.nil_append,
      List.singleton_append, read]

theorem lexes_quote (text : String) : Lexes (quote text) [.text (some text)] := by
  intro done rest _
  have pieces := readPieces_quoted text.toList [] rest
  have joined := joinPieces_pieces text.toList []
  rw [List.reverse_nil, List.nil_append] at pieces joined
  rw [String.ofList_toList] at joined
  show lexAfter done (some '"' :: ((text.toList.flatMap escapeChar ++ ['"']).map some ++ rest)) = _
  have noMark : punctuation? '"' = none := rfl
  rw [lexAfter, if_neg (by decide)]
  simp only [noMark, if_true]
  split <;> rename_i read
  · cases pieces.symm.trans read
    rw [joined]
    rfl
  · cases pieces.symm.trans read

/-! ### Lists -/

/-- Parts that are set apart by commas and blanks. -/
theorem lexes_separated {gap : List Char} (spaces : Blanks gap)
    {parts : List (List Char)} {tokens : List (List Token)}
    (each : List.Forall₂ Lexes parts tokens) :
    Lexes (separated (',' :: gap) parts) ([.comma].intercalate tokens) := by
  induction each with
  | nil => exact lexes_nil
  | cons first rest ih =>
    cases rest with
    | nil =>
      rw [List.intercalate_singleton]
      exact first
    | cons second others =>
      rw [List.intercalate_cons_cons, List.append_assoc, separated, List.append_assoc]
      · exact first.append rfl ((ih.spaces spaces).mark rfl)
      · simp

/-- A list ends with a bracket, perhaps behind blanks. -/
theorem Lexes.closed {chars : List Char} {tokens : List Token} (lexes : Lexes chars tokens)
    {c : Char} {last : Token} (closes : punctuation? c = some last) {gap : List Char}
    (spaces : Blanks gap) :
    Lexes (chars ++ (gap ++ [c])) (tokens ++ [last]) := by
  have ending : Lexes (gap ++ [c]) [last] := (lexes_mark closes).spaces spaces
  cases gap with
  | nil => exact lexes.append (by simp [isWordChar, closes]) ending
  | cons first gap =>
    have space := spaces first List.mem_cons_self
    exact lexes.append (by simp [isWordChar, space]) ending

section Bracketed

variable {gap gap' : List Char} (spaces : Blanks gap) (spaces' : Blanks gap')
  {parts : List (List Char)} {tokens : List (List Token)}

include spaces spaces'

theorem lexes_array (each : List.Forall₂ Lexes parts tokens) :
    Lexes ('[' :: (gap ++ (separated (',' :: gap) parts ++ (gap' ++ [']']))))
      (.openArray :: ([.comma].intercalate tokens ++ [.closeArray])) :=
  (((lexes_separated spaces each).closed rfl spaces').spaces spaces).mark rfl

theorem lexes_object (each : List.Forall₂ Lexes parts tokens) :
    Lexes ('{' :: (gap ++ (separated (',' :: gap) parts ++ (gap' ++ ['}']))))
      (.openObject :: ([.comma].intercalate tokens ++ [.closeObject])) :=
  (((lexes_separated spaces each).closed rfl spaces').spaces spaces).mark rfl

end Bracketed

end Token

/-! ### Values -/

namespace Value

mutual

/-- The value holds no double. -/
def floatless : Value → Bool
  | .number (.float _) => false
  | .array items => floatlessItems items
  | .object members => floatlessMembers members
  | _ => true

def floatlessItems : List Value → Bool
  | [] => true
  | item :: rest => item.floatless && floatlessItems rest

def floatlessMembers : List (String × Value) → Bool
  | [] => true
  | (_, value) :: rest => value.floatless && floatlessMembers rest

end

mutual

/-- The tokens that a value is written as. -/
def tokens : Value → List Token
  | .null => [.null]
  | .bool b => [.bool b]
  | .number n => [.number (some n)]
  | .text s => [.text (some s)]
  | .array items => .openArray :: ([.comma].intercalate (itemTokens items) ++ [.closeArray])
  | .object members =>
    .openObject :: ([.comma].intercalate (memberTokens members) ++ [.closeObject])

def itemTokens : List Value → List (List Token)
  | [] => []
  | item :: rest => item.tokens :: itemTokens rest

def memberTokens : List (String × Value) → List (List Token)
  | [] => []
  | (key, value) :: rest => (.text (some key) :: .colon :: value.tokens) :: memberTokens rest

end

open Token

theorem lexes_number {n : Number} (floatless : (Value.number n).floatless = true) :
    Lexes n.chars [.number (some n)] := by
  cases n with
  | whole n =>
    exact lexes_word (integerChars_ne_nil _) (fun _ => isWordChar_of_mem_integerChars)
      (ofWord?_integerChars n)
  | float => cases floatless

theorem lexes_member (key : String) {gap chars : List Char} {tokens : List Token}
    (spaces : Blanks gap) (lexes : Lexes chars tokens) :
    Lexes (quote key ++ ':' :: (gap ++ chars)) (.text (some key) :: .colon :: tokens) :=
  (lexes_quote key).append rfl ((lexes.spaces spaces).mark rfl)

mutual

theorem lexes_compact {v : Value} (floatless : v.floatless = true) :
    Lexes v.compactChars v.tokens := by
  match v with
  | .null | .bool true | .bool false =>
    exact lexes_word (by decide) (List.all_eq_true.1 (by decide)) rfl
  | .number n => exact lexes_number floatless
  | .text s => exact lexes_quote s
  | .array items =>
    exact lexes_array blanks_nil blanks_nil (lexes_compactItems floatless)
  | .object members =>
    exact lexes_object blanks_nil blanks_nil (lexes_compactMembers floatless)

theorem lexes_compactItems {items : List Value} (floatless : floatlessItems items = true) :
    List.Forall₂ Lexes (compactItems items) (itemTokens items) := by
  match items with
  | [] => exact .nil
  | item :: rest =>
    obtain ⟨first, others⟩ := (Bool.and_eq_true _ _).mp floatless
    exact .cons (lexes_compact first) (lexes_compactItems others)

theorem lexes_compactMembers {members : List (String × Value)}
    (floatless : floatlessMembers members = true) :
    List.Forall₂ Lexes (compactMembers members) (memberTokens members) := by
  match members with
  | [] => exact .nil
  | (key, value) :: rest =>
    obtain ⟨first, others⟩ := (Bool.and_eq_true _ _).mp floatless
    exact .cons (lexes_member key blanks_nil (lexes_compact first)) (lexes_compactMembers others)

end

mutual

theorem lexes_pretty {v : Value} (floatless : v.floatless = true) (indent : Nat) :
    Lexes (v.prettyChars indent) v.tokens := by
  match v with
  | .null | .bool _ | .number _ | .text _ | .array [] | .object [] => exact lexes_compact floatless
  | .array (item :: rest) =>
    have each : List.Forall₂ Lexes (prettyItems (indent + 2) (item :: rest))
        (itemTokens (item :: rest)) := lexes_prettyItems floatless _
    have lexes := lexes_array (blanks_newline (indent + 2)) (blanks_newline indent) each
    simpa only [prettyChars, tokens, List.cons_append, List.append_assoc] using lexes
  | .object (member :: rest) =>
    have each : List.Forall₂ Lexes (prettyMembers (indent + 2) (member :: rest))
        (memberTokens (member :: rest)) := lexes_prettyMembers floatless _
    have lexes := lexes_object (blanks_newline (indent + 2)) (blanks_newline indent) each
    simpa only [prettyChars, tokens, List.cons_append, List.append_assoc] using lexes

theorem lexes_prettyItems {items : List Value} (floatless : floatlessItems items = true)
    (indent : Nat) : List.Forall₂ Lexes (prettyItems indent items) (itemTokens items) := by
  match items with
  | [] => exact .nil
  | item :: rest =>
    obtain ⟨first, others⟩ := (Bool.and_eq_true _ _).mp floatless
    exact .cons (lexes_pretty first indent) (lexes_prettyItems others indent)

theorem lexes_prettyMembers {members : List (String × Value)}
    (floatless : floatlessMembers members = true) (indent : Nat) :
    List.Forall₂ Lexes (prettyMembers indent members) (memberTokens members) := by
  match members with
  | [] => exact .nil
  | (key, value) :: rest =>
    obtain ⟨first, others⟩ := (Bool.and_eq_true _ _).mp floatless
    exact .cons (lexes_member key blanks_space (lexes_pretty first indent))
      (lexes_prettyMembers others indent)

end

theorem lex_compact {v : Value} (floatless : v.floatless = true) :
    Token.lex (Runes.ofString v.compact) = some v.tokens := by
  unfold Runes.ofString compact
  rw [String.toList_ofList]
  exact (lexes_compact floatless).lex

theorem lex_pretty {v : Value} (floatless : v.floatless = true) :
    Token.lex (Runes.ofString v.pretty) = some v.tokens := by
  unfold Runes.ofString pretty
  rw [String.toList_ofList]
  exact (lexes_pretty floatless 0).lex

end Value

end RevisionGraph.Json
