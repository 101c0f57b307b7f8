import RevisionGraph.Dot

/-!
# Escaped texts

A text is escaped by two replacements, of backslashes and then of quotes: `Dot.escape` makes them in
one pass. Whatever marks are in a text, it reads back up to the quote that closes it:
`Dot.unescape?_escape`.
-/

namespace RevisionGraph.Dot

/-- The text with every `mark` replaced. -/
def replaceEach (mark : Char) (replacement text : List Char) : List Char :=
  text.flatMap fun c => if c = mark then replacement else [c]

theorem replaceEach_append (mark : Char) (replacement first second : List Char) :
    replaceEach mark replacement (first ++ second) =
      replaceEach mark replacement first ++ replaceEach mark replacement second :=
  List.flatMap_append

/-- Backslashes first: those that the quotes get are not doubled again. -/
theorem escape_eq_replaceEach (text : List Char) :
    escape text = replaceEach '"' ['\\', '"'] (replaceEach '\\' ['\\', '\\'] text) := by
  induction text with
  | nil => rfl
  | cons c rest ih =>
    have split : replaceEach '\\' ['\\', '\\'] (c :: rest) =
        (if c = '\\' then ['\\', '\\'] else [c]) ++ replaceEach '\\' ['\\', '\\'] rest :=
      List.flatMap_cons
    rw [split, replaceEach_append, ← ih, escape]
    by_cases backslash : c = '\\'
    · simp [backslash, replaceEach]
    · by_cases quote : c = '"'
      · simp [quote, replaceEach]
      · simp [backslash, quote, replaceEach]

theorem unescape?_escape (text rest : List Char) :
    unescape? (escape text ++ '"' :: rest) = some (text, rest) := by
  induction text with
  | nil => rfl
  | cons c text ih =>
    rw [escape]
    split <;> rename_i marked
    · rw [List.cons_append, List.cons_append, unescape?, ih]
      rfl
    · obtain ⟨notBackslash, notQuote⟩ := not_or.1 marked
      rw [List.cons_append, unescape?, ih]
      · rfl
      · exact notQuote
      · exact fun _ _ backslash _ => notBackslash backslash

theorem escape_injective {text other : List Char} (same : escape text = escape other) :
    text = other := by
  have read := unescape?_escape text []
  rw [same, unescape?_escape other []] at read
  exact (congrArg Prod.fst (Option.some.inj read)).symm

theorem toList_quoted (text : String) :
    (quoted text).toList = '"' :: (escape text.toList ++ ['"']) := by
  simp [quoted]

theorem quoted_inj {text other : String} : quoted text = quoted other ↔ text = other := by
  refine ⟨fun same => ?_, congrArg quoted⟩
  have bodies := congrArg String.toList same
  rw [toList_quoted, toList_quoted, List.cons.injEq, List.append_left_inj] at bodies
  exact String.toList_injective (escape_injective bodies.2)

/-- The text with its backslashes and then its quotes escaped. -/
def escaped (text : String) : String :=
  .ofList (replaceEach '"' ['\\', '"'] (replaceEach '\\' ['\\', '\\'] text.toList))

theorem quoted_eq (text : String) : quoted text = "\"" ++ escaped text ++ "\"" := by
  rw [quoted, escape_eq_replaceEach, escaped]

/-! ### Texts without marks -/

theorem escape_eq_self {text : List Char} (plain : ∀ c ∈ text, ¬ (c = '\\' ∨ c = '"')) :
    escape text = text := by
  induction text with
  | nil => rfl
  | cons c rest ih =>
    obtain ⟨first, others⟩ := List.forall_mem_cons.1 plain
    rw [escape, if_neg first, ih others]

theorem escaped_eq_self {text : String} (plain : ∀ c ∈ text.toList, ¬ (c = '\\' ∨ c = '"')) :
    escaped text = text := by
  rw [escaped, ← escape_eq_replaceEach, escape_eq_self plain, String.ofList_toList]

theorem plain_integerText (i : Int) : ∀ c ∈ (integerText i).toList, ¬ (c = '\\' ∨ c = '"') := by
  intro c mem
  rw [integerText, String.toList_ofList] at mem
  rcases minus_or_isDigit_of_mem_integerChars mem with rfl | digit
  · decide
  · rintro (rfl | rfl) <;> cases digit

end RevisionGraph.Dot
