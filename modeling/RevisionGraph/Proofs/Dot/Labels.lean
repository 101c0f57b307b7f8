import Mathlib.Data.List.Forall2
import RevisionGraph.Proofs.Dot.Escaping
import RevisionGraph.Proofs.Method.TypeUri

/-!
# Labels of a drawing

No label has a line break in it, so a drawing has a line for each statement, and what that line
holds in quotes is what the statement says: `Dot.labels_read_back`.
-/

namespace RevisionGraph

/-! ### Texts within a line -/

/-- No control character, and so no line break. -/
def OneLine (text : List Char) : Prop := ∀ c ∈ text, isControl c = false

-- The list is walked, where an instance that is searched for may try every character there is.
instance (text : List Char) : Decidable (OneLine text) :=
  List.decidableBAll (fun c => isControl c = false) text

theorem oneLine_append {first second : List Char} :
    OneLine (first ++ second) ↔ OneLine first ∧ OneLine second := List.forall_mem_append

theorem OneLine.newline_not_mem {text : List Char} (within : OneLine text) : '\n' ∉ text :=
  fun mem => absurd (within '\n' mem) (by decide)

theorem isControl_of_isDigit {c : Char} (digit : c.isDigit = true) : isControl c = false := by
  have bounds : 48 ≤ c.toNat ∧ c.toNat ≤ 57 := by
    simpa [Char.isDigit, UInt32.le_iff_toNat_le] using digit
  simp only [isControl, Bool.or_eq_false_iff, Bool.and_eq_false_iff, decide_eq_false_iff_not]
  omega

theorem oneLine_integerText (i : Int) : OneLine (integerText i).toList := by
  intro c mem
  rw [integerText, String.toList_ofList] at mem
  rcases minus_or_isDigit_of_mem_integerChars mem with rfl | digit
  · rfl
  · exact isControl_of_isDigit digit

theorem Uri.oneLine_text (u : Uri) : OneLine u.text.toList :=
  fun c mem => ((Parts.of_read u.parts_eq).1 c mem).2

theorem Method.mem_text_of_mem_entity {m : Method} {c : Char} (mem : c ∈ m.entity.toList) :
    c ∈ m.uri.text.toList := by
  obtain ⟨_, _, rendered⟩ := Uri.Parts.of_read m.uri.parts_eq
  rw [entity, String.toList_ofList, entityChars] at mem
  cases held : m.uri.parts.path? with
  | none => simp [held] at mem
  | some path =>
    cases told : path.entity with
    | none => simp [held, told] at mem
    | some entity =>
      simp only [held, Option.bind_some, told, Option.getD_some] at mem
      rw [← rendered, Uri.Parts.render_of_entity held told]
      exact List.mem_append_right _ (List.mem_cons_of_mem _ mem)

theorem Method.oneLine_entity (m : Method) : OneLine m.entity.toList :=
  fun c mem => m.uri.oneLine_text c (mem_text_of_mem_entity mem)

namespace Dot

/-! ### Quotes -/

theorem oneLine_escape {text : List Char} (within : OneLine text) : OneLine (escape text) := by
  induction text with
  | nil => exact within
  | cons c rest ih =>
    obtain ⟨first, others⟩ := List.forall_mem_cons.1 within
    rw [escape]
    split
    · exact List.forall_mem_cons.2 ⟨by decide, List.forall_mem_cons.2 ⟨first, ih others⟩⟩
    · exact List.forall_mem_cons.2 ⟨first, ih others⟩

theorem oneLine_quoted {text : String} (within : OneLine text.toList) :
    OneLine (quoted text).toList := by
  rw [toList_quoted]
  exact List.forall_mem_cons.2
    ⟨by decide, oneLine_append.2 ⟨oneLine_escape within, by decide⟩⟩

/-! ### Lines -/

/-- What a line holds in quotes, from the left to the right. -/
inductive Quotes : List Char → List String → Prop where
  | nil : Quotes [] []
  | outside {c : Char} {rest : List Char} {texts : List String} :
      c ≠ '"' → Quotes rest texts → Quotes (c :: rest) texts
  | inside {body read rest : List Char} {texts : List String} :
      unescape? body = some (read, rest) → Quotes rest texts →
      Quotes ('"' :: body) (String.ofList read :: texts)

theorem Quotes.unique {line : List Char} {texts others : List String} (left : Quotes line texts)
    (right : Quotes line others) : texts = others := by
  induction left generalizing others with
  | nil =>
    cases right
    rfl
  | outside plain _ ih =>
    cases right with
    | outside _ rest => exact ih rest
    | inside => exact absurd rfl plain
  | inside read _ ih =>
    cases right with
    | outside plain => exact absurd rfl plain
    | inside again rest =>
      cases read.symm.trans again
      rw [ih rest]

theorem Quotes.append {front rest : List Char} {texts : List String} (plain : '"' ∉ front)
    (quotes : Quotes rest texts) : Quotes (front ++ rest) texts := by
  induction front with
  | nil => exact quotes
  | cons c front ih =>
    obtain ⟨notQuote, others⟩ := not_or.1 (List.mem_cons.not.1 plain)
    exact .outside (Ne.symm notQuote) (ih others)

theorem Quotes.quoted {rest : List Char} {texts : List String} (text : String)
    (quotes : Quotes rest texts) : Quotes ((quoted text).toList ++ rest) (text :: texts) := by
  have read : unescape? (escape text.toList ++ ['"'] ++ rest) = some (text.toList, rest) := by
    rw [List.append_assoc]
    exact unescape?_escape text.toList rest
  have held := Quotes.inside read quotes
  rwa [String.ofList_toList, ← List.cons_append, ← toList_quoted] at held

/-- A line that holds these texts in quotes and no others, and that does not break. -/
structure IsLine (line : List Char) (texts : List String) : Prop where
  within : OneLine line
  quotes : ∀ found, Quotes line found ↔ found = texts

theorem isLine_of_quotes {line : List Char} {texts : List String} (within : OneLine line)
    (quotes : Quotes line texts) : IsLine line texts :=
  ⟨within, fun _ => ⟨fun found => found.unique quotes, fun same => same ▸ quotes⟩⟩

theorem isLine_nil : IsLine [] [] := isLine_of_quotes (by decide) .nil

theorem IsLine.append {front rest : List Char} {texts : List String}
    (bare : OneLine front ∧ '"' ∉ front) (line : IsLine rest texts) :
    IsLine (front ++ rest) texts :=
  isLine_of_quotes (oneLine_append.2 ⟨bare.1, line.within⟩) (.append bare.2 ((line.quotes _).2 rfl))

theorem IsLine.quoted {text : String} {rest : List Char} {texts : List String}
    (within : OneLine text.toList) (line : IsLine rest texts) :
    IsLine ((quoted text).toList ++ rest) (text :: texts) :=
  isLine_of_quotes (oneLine_append.2 ⟨oneLine_quoted within, line.within⟩)
    (.quoted text ((line.quotes _).2 rfl))

theorem isLine_bare {line : List Char} (bare : OneLine line ∧ '"' ∉ line) : IsLine line [] := by
  rw [← List.append_nil line]
  exact isLine_nil.append bare

/-- What a statement puts in quotes. -/
def Statement.texts : Statement → List String
  | .node id label fill => [idText id, label, fill.color]
  | .edge pair _ sites => [idText pair.caller, idText pair.callee, integerText sites]

theorem isLine_node (id : Int64) {label : String} (within : OneLine label.toList) (fill : Fill) :
    IsLine (Statement.node id label fill).text.toList (Statement.node id label fill).texts := by
  have color : OneLine fill.color.toList := by
    cases fill <;> decide
  unfold Statement.text Statement.texts
  simp only [String.toList_append, List.append_assoc]
  refine IsLine.append (by decide) (.quoted (oneLine_integerText _) ?_)
  refine IsLine.append (by decide) (.quoted within ?_)
  exact IsLine.append (by decide) (.quoted color (isLine_bare (by decide)))

theorem isLine_edge (pair : CallPair) (relation : Relation) (sites : Nat) :
    IsLine (Statement.edge pair relation sites).text.toList
      (Statement.edge pair relation sites).texts := by
  have style : OneLine (styleName relation).toList ∧ '"' ∉ (styleName relation).toList := by
    cases relation <;> decide
  unfold Statement.text Statement.texts
  simp only [String.toList_append, List.append_assoc]
  refine IsLine.append (by decide) (.quoted (oneLine_integerText _) ?_)
  refine IsLine.append (by decide) (.quoted (oneLine_integerText _) ?_)
  refine IsLine.append (by decide) (IsLine.append style ?_)
  exact IsLine.append (by decide) (.quoted (oneLine_integerText _) (isLine_bare (by decide)))

variable (r : Revision)

theorem isLine_of_mem_nodes {statement : Statement} (mem : statement ∈ nodes r) :
    IsLine statement.text.toList statement.texts := by
  rcases List.mem_append.1 mem with declared | undeclared
  · obtain ⟨⟨id, scope, method⟩, _, rfl⟩ := List.mem_map.1 declared
    exact isLine_node id method.oneLine_entity (.ofScope scope)
  · obtain ⟨id, _, rfl⟩ := List.mem_map.1 undeclared
    apply isLine_node
    rw [String.toList_append]
    exact oneLine_append.2 ⟨by decide, oneLine_integerText _⟩

theorem isLine_of_mem_edges {statement : Statement} (mem : statement ∈ edges r) :
    IsLine statement.text.toList statement.texts := by
  obtain ⟨relation, _, drawn⟩ := List.mem_flatMap.1 mem
  obtain ⟨⟨pair, sites⟩, _, rfl⟩ := List.mem_map.1 drawn
  exact isLine_edge pair relation sites.size

theorem forall₂_isLine {statements : List Statement}
    (each : ∀ statement ∈ statements, IsLine statement.text.toList statement.texts) :
    List.Forall₂ IsLine ((statements.map Statement.text).map String.toList)
      (statements.map Statement.texts) := by
  rw [List.map_map, List.forall₂_map_left_iff, List.forall₂_map_right_iff, List.forall₂_same]
  exact each

/-- What the lines of a drawing hold in quotes. -/
def lineTexts : List (List String) :=
  [[], [], [r.uri.text], ["Helvetica"], []] ++ (nodes r).map Statement.texts ++ [[]] ++
    (edges r).map Statement.texts ++ [[]]

theorem forall₂_isLine_heading :
    List.Forall₂ IsLine ((heading r).map String.toList)
      [[], [], [r.uri.text], ["Helvetica"], []] := by
  have named : IsLine ("    label=" ++ quoted r.uri.text ++ ";").toList [r.uri.text] := by
    rw [String.toList_append, String.toList_append, List.append_assoc]
    exact IsLine.append (by decide) (.quoted r.uri.oneLine_text (isLine_bare (by decide)))
  have font : IsLine ("    node [fontname=".toList ++ ((quoted "Helvetica").toList ++
      ", fontsize=11, shape=box, style=filled];".toList)) ["Helvetica"] :=
    IsLine.append (by decide) (.quoted (by decide) (isLine_bare (by decide)))
  exact .cons (isLine_bare (by decide)) <| .cons (isLine_bare (by decide)) <| .cons named <|
    .cons font <| .cons isLine_nil .nil

theorem forall₂_isLine_lines : List.Forall₂ IsLine ((lines r).map String.toList) (lineTexts r) := by
  simp only [lines, lineTexts, List.map_append]
  have nodes := forall₂_isLine fun _ => isLine_of_mem_nodes r
  have edges := forall₂_isLine fun _ => isLine_of_mem_edges r
  have gap : List.Forall₂ IsLine ([""].map String.toList) [[]] := .cons isLine_nil .nil
  have close : List.Forall₂ IsLine (["\x7d"].map String.toList) [[]] :=
    .cons (isLine_bare (by decide)) .nil
  exact List.rel_append (List.rel_append (List.rel_append
    (List.rel_append (forall₂_isLine_heading r) nodes) gap) edges) close

theorem splitOn_text : (text r).toList.splitOn '\n' = (lines r).map String.toList := by
  have joined : (text r).toList = ['\n'].intercalate ((lines r).map String.toList) :=
    String.toList_intercalate
  have each : List.Forall₂ (fun line texts => OneLine line ∧ IsLine line texts)
      ((lines r).map String.toList) (lineTexts r) :=
    (forall₂_isLine_lines r).imp fun _ _ isLine => ⟨isLine.within, isLine⟩
  obtain ⟨within, _⟩ := (List.forall₂_and_left _ _).1 each
  rw [joined, List.splitOn_intercalate]
  · exact fun line mem => (within line mem).newline_not_mem
  · simp [lines]

/-- A label is written with its backslashes and then its quotes escaped, and reads back up to the
quote that closes it. A drawing falls into a line for each statement, which holds in quotes what the
statement says, and different entities have different labels. -/
theorem labels_read_back :
    (∀ label : List Char,
      escape label = replaceEach '"' ['\\', '"'] (replaceEach '\\' ['\\', '\\'] label) ∧
        ∀ rest, unescape? (escape label ++ '"' :: rest) = some (label, rest)) ∧
    (∀ r : Revision, List.Forall₂ IsLine ((text r).toList.splitOn '\n') (lineTexts r)) ∧
    ∀ m n : Method, quoted m.entity = quoted n.entity ↔ m.entity = n.entity := by
  refine ⟨?_, ?_, ?_⟩
  · intro label
    exact ⟨escape_eq_replaceEach label, unescape?_escape label⟩
  · intro r
    rw [splitOn_text]
    exact forall₂_isLine_lines r
  · intro m n
    exact quoted_inj

end Dot

end RevisionGraph
