import RevisionGraph.Method
import RevisionGraph.Proofs.Text.Replacing
import RevisionGraph.Proofs.Uri.Components

/-!
# Renaming methods

`Method.rename` looks for the class and for the name of a method in the whole text of its URI. It
renames the entity, and nothing else, just if neither of them is found in front of the entity:
`Method.rename_iff_clear`.
-/

namespace RevisionGraph

open Uri (Plain Components)

/-! ### Patterns -/

/-- `/Class.` -/
def classPattern (name : List Char) : List Char := '/' :: name ++ ['.']

/-- `.name(` -/
def namePattern (name : List Char) : List Char := '.' :: name ++ ['(']

section Patterns

variable {front before after rest rest' old new : List Char}

/-- A text stays as it is up to its first point. -/
theorem exists_replaceFirst_namePattern (unpointed : '.' ∉ front) (old new rest : List Char) :
    ∃ rest', replaceFirst (namePattern old) (namePattern new) (front ++ '.' :: rest) =
      front ++ '.' :: rest' := by
  induction front with
  | nil =>
    rw [List.nil_append]
    by_cases here : namePattern old <+: '.' :: rest
    · rw [replaceFirst_cons_of_begins here]
      exact ⟨_, rfl⟩
    · rw [replaceFirst_cons_of_not_begins here]
      exact ⟨_, rfl⟩
  | cons c front ih =>
    rw [List.mem_cons, not_or] at unpointed
    obtain ⟨rest', replaced⟩ := ih unpointed.2
    have notHere : ¬ namePattern old <+: c :: (front ++ '.' :: rest) := fun here =>
      unpointed.1 (List.cons_prefix_cons.1 here).1
    rw [List.cons_append, replaceFirst_cons_of_not_begins notHere, replaced]
    exact ⟨rest', rfl⟩

/-- A name without a slash that stands where a text with a slash begins ends before the slash. -/
theorem exists_of_append_slash (undivided : '/' ∉ new)
    (same : new ++ '(' :: rest = before ++ '/' :: after) :
    ∃ between, before = new ++ '(' :: between := by
  rcases List.append_eq_append_iff.1 same with ⟨between, rfl, cutOff⟩ | ⟨between, rfl, cutOff⟩
  · cases between with
    | nil => cases cutOff
    | cons c between =>
      obtain ⟨rfl, _⟩ := List.cons.inj cutOff
      exact ⟨between, rfl⟩
  · cases between with
    | nil => cases cutOff
    | cons c between =>
      obtain ⟨rfl, _⟩ := List.cons.inj cutOff
      exact absurd (List.mem_append_right before List.mem_cons_self) undivided

/-- Two names that can stand for each other in front of a slash are the same. -/
theorem eq_of_append_slash (whole : '(' ∉ old) (whole' : '(' ∉ new) (undivided : '/' ∉ new)
    {tail : List Char} (first : old ++ '(' :: tail = front ++ '/' :: rest)
    (second : new ++ '(' :: tail = front ++ '/' :: rest') : rest = rest' := by
  obtain ⟨between, rfl⟩ := exists_of_append_slash undivided second
  have unchanged : old = new := by
    rw [List.append_assoc, List.cons_append] at first
    exact (append_cons_inj whole whole' first).1
  subst unchanged
  exact (List.cons.inj (List.append_cancel_left (first.symm.trans second))).2

/-- The replacement of a name leaves a class that stands where another one should. -/
theorem eq_of_replaceFirst_namePattern {stands wanted : List Char} (unpointed : '.' ∉ stands)
    (unpointed' : '.' ∉ wanted) (whole : '(' ∉ old) (whole' : '(' ∉ new) (undivided : '/' ∉ new)
    (same : replaceFirst (namePattern old) (namePattern new)
      (front ++ (classPattern stands ++ rest)) = front ++ (classPattern wanted ++ rest')) :
    stands = wanted := by
  have split (name rest : List Char) :
      classPattern name ++ rest = '/' :: (name ++ '.' :: rest) := by
    simp [classPattern]
  rw [split, split] at same
  induction front with
  | nil =>
    rw [List.nil_append, List.nil_append,
      replaceFirst_cons_of_not_begins (by simp [namePattern])] at same
    obtain ⟨after, replaced⟩ := exists_replaceFirst_namePattern unpointed old new rest
    rw [replaced] at same
    exact (append_cons_inj unpointed unpointed' (List.cons.inj same).2).1
  | cons c front ih =>
    rw [List.cons_append, List.cons_append] at same
    by_cases here : namePattern old <+: c :: (front ++ '/' :: (stands ++ '.' :: rest))
    · obtain ⟨tail, cutOff⟩ := here
      rw [← cutOff, replaceFirst_append_self] at same
      have before : old ++ '(' :: tail = front ++ '/' :: (stands ++ '.' :: rest) := by
        simpa [namePattern] using (List.cons.inj cutOff).2
      have after : new ++ '(' :: tail = front ++ '/' :: (wanted ++ '.' :: rest') := by
        simpa [namePattern] using (List.cons.inj same).2
      have texts := eq_of_append_slash whole whole' undivided before after
      exact (append_cons_inj unpointed unpointed' texts).1
    · rw [replaceFirst_cons_of_not_begins here] at same
      exact ih (List.cons.inj same).2

/-- `Class.name(rest` -/
def entityText (className name rest : List Char) : List Char :=
  className ++ '.' :: (name ++ '(' :: rest)

theorem entityText_eq_class (front className name rest : List Char) :
    front ++ '/' :: entityText className name rest =
      front ++ classPattern className ++ (name ++ '(' :: rest) := by
  simp [entityText, classPattern]

theorem entityText_eq_name (front className name rest : List Char) :
    front ++ '/' :: entityText className name rest =
      (front ++ '/' :: className) ++ namePattern name ++ rest := by
  simp [entityText, namePattern]

variable {oldClass newClass : List Char}

theorem replaceFirst_classPattern_iff (unpointed : '.' ∉ oldClass) (unpointed' : '.' ∉ newClass)
    (front old rest : List Char) :
    replaceFirst (classPattern oldClass) (classPattern newClass)
        (front ++ '/' :: entityText oldClass old rest) =
      front ++ '/' :: entityText newClass old rest ↔
    newClass = oldClass ∨ ¬ occurs (classPattern oldClass) front := by
  have whole {name : List Char} (unpointed : '.' ∉ name) : '.' ∉ '/' :: name := by
    simpa using unpointed
  rw [entityText_eq_class, entityText_eq_class, classPattern, classPattern,
    replaceFirst_append_eq_iff (whole unpointed) (whole unpointed'), List.cons_inj_right]

theorem replaceFirst_namePattern_iff (unopened : '(' ∉ newClass) (whole : '(' ∉ old)
    (whole' : '(' ∉ new) (front rest : List Char) :
    replaceFirst (namePattern old) (namePattern new)
        (front ++ '/' :: entityText newClass old rest) =
      front ++ '/' :: entityText newClass new rest ↔
    new = old ∨ ¬ occurs (namePattern old) front := by
  have whole {name : List Char} (unopened : '(' ∉ name) : '(' ∉ '.' :: name := by
    simpa using unopened
  have notInClass : occurs (namePattern old) (front ++ '/' :: newClass) ↔
      occurs (namePattern old) front := by
    rw [occurs_iff, occurs_iff]
    exact infix_append_iff_of_not_mem (by simpa using unopened)
  rw [← notInClass, entityText_eq_name, entityText_eq_name, namePattern, namePattern,
    replaceFirst_append_eq_iff (whole ‹_›) (whole ‹_›), List.cons_inj_right]

/-- Both replacements hit the entity just if they find nothing in front of it, or change nothing. -/
theorem replaceFirst_both_iff (unpointed : '.' ∉ oldClass) (unpointed' : '.' ∉ newClass)
    (unopened : '(' ∉ newClass) (whole : '(' ∉ old) (whole' : '(' ∉ new) (undivided : '/' ∉ new)
    (front rest : List Char) :
    replaceFirst (namePattern old) (namePattern new)
        (replaceFirst (classPattern oldClass) (classPattern newClass)
          (front ++ '/' :: entityText oldClass old rest)) =
      front ++ '/' :: entityText newClass new rest ↔
    (newClass = oldClass ∨ ¬ occurs (classPattern oldClass) front) ∧
      (new = old ∨ ¬ occurs (namePattern old) front) := by
  have classRight := replaceFirst_classPattern_iff unpointed unpointed' front old rest
  have nameRight := replaceFirst_namePattern_iff unopened whole whole' front rest
  constructor
  · intro same
    have clear : newClass = oldClass ∨ ¬ occurs (classPattern oldClass) front := by
      rw [or_iff_not_imp_right, not_not]
      intro found
      obtain ⟨before, after, rfl, replaced⟩ := exists_replaceFirst found
      rw [replaced] at same
      simp only [List.append_assoc] at same
      exact eq_of_replaceFirst_namePattern unpointed' unpointed whole whole' undivided same
    rw [classRight.2 clear] at same
    exact ⟨clear, nameRight.1 same⟩
  · rintro ⟨clear, clear'⟩
    rw [classRight.2 clear, nameRight.2 clear']

end Patterns

/-! ### Methods -/

namespace Uri

/-- The text before the entity, without the slash between them. -/
def front (u : Uri) : String := u.base ++ "/" ++ u.package?.getD ""

theorem Components.text_of_entity {c : Components} {package entity : String}
    (held : c.package = some package) (told : c.entity = some entity) :
    c.text = c.base ++ "/" ++ package ++ "/" ++ entity := by
  rw [Components.text, Components.path, held, told]
  simp [String.append_assoc]

theorem base_eq_components (u : Uri) : u.base = u.components.base :=
  (Parts.base_components u.parts).symm

theorem grammatical_components (u : Uri) : u.components.Grammatical := by
  obtain ⟨_, wellFormed, _⟩ := Parts.of_read u.parts_eq
  exact Parts.grammatical_components wellFormed

/-- With another entity only the text behind the front changes. -/
theorem text_withEntity {u : Uri} (hasEntity : u.entity? ≠ none) (entity : String) :
    { u.components with entity := some entity }.text = u.front ++ "/" ++ entity := by
  obtain ⟨named, told⟩ := Option.ne_none_iff_exists'.1 hasEntity
  have hasPackage : u.package? ≠ none := (u.grammatical_components.entity named told).1
  obtain ⟨package, held⟩ := Option.ne_none_iff_exists'.1 hasPackage
  rw [Components.text_of_entity held rfl, front, held, base_eq_components]
  rfl

theorem text_of_entity {u : Uri} {entity : String} (told : u.entity? = some entity) :
    u.text = u.front ++ "/" ++ entity := by
  have same : { u.components with entity := some entity } = u.components := by
    rw [← told]
    rfl
  rw [← text_components, ← same, text_withEntity (by simp [told])]

end Uri

namespace Method

/-- A name that can be given to a class or to a method. -/
structure IsName (name : String) : Prop where
  plain : Plain name.toList
  unpointed : '.' ∉ name.toList
  unopened : '(' ∉ name.toList
  undivided : '/' ∉ name.toList

/-- `u` has another class and name in its entity and says the same as the URI of the method
otherwise. -/
structure IsRenamed (m : Method) (className name rest : String) (u : Uri) : Prop where
  base : u.base = m.uri.base
  components : u.components =
    { m.uri.components with entity := some (className ++ "." ++ name ++ "(" ++ rest) }

variable {m : Method} {oldClass oldName rest className name : String}

theorem toList_entity (className name rest : String) :
    (className ++ "." ++ name ++ "(" ++ rest).toList =
      entityText className.toList name.toList rest.toList := by
  simp [entityText]

theorem toList_withFront (front className name rest : String) :
    (front ++ "/" ++ (className ++ "." ++ name ++ "(" ++ rest)).toList =
      front.toList ++ '/' :: entityText className.toList name.toList rest.toList := by
  rw [String.toList_append, toList_entity, String.toList_append]
  simp

theorem entityChars_of_entity {entity : String} (told : m.uri.entity? = some entity) :
    m.entityChars = entity.toList := by
  obtain ⟨chars, held, rfl⟩ := Option.map_eq_some_iff.1 told
  rw [entityChars, held, Option.getD_some, String.toList_ofList]

section Named

variable (told : m.uri.entity? = some (oldClass ++ "." ++ oldName ++ "(" ++ rest))
  (unpointed : '.' ∉ oldClass.toList) (unopened : '(' ∉ oldName.toList)
  (isName : IsName className) (isName' : IsName name)

include told

theorem toList_text : m.uri.text.toList =
    m.uri.front.toList ++ '/' :: entityText oldClass.toList oldName.toList rest.toList := by
  rw [Uri.text_of_entity told, toList_withFront]

theorem toList_text_of_isRenamed {u : Uri} (renamed : m.IsRenamed className name rest u) :
    u.text.toList =
      m.uri.front.toList ++ '/' :: entityText className.toList name.toList rest.toList := by
  rw [← Uri.text_components, renamed.components, Uri.text_withEntity (by simp [told]),
    toList_withFront]

include unpointed in
theorem classChars_eq : m.classChars = oldClass.toList := by
  rw [classChars, entityChars_of_entity told, toList_entity, entityText, cut_append unpointed]

include unpointed unopened in
theorem nameChars_eq : m.nameChars = oldName.toList := by
  rw [nameChars, entityChars_of_entity told, toList_entity, entityText, cut_append unpointed]
  simp only [cut_append unopened]

include isName isName' in
/-- There is a URI with the names that are asked for. -/
theorem exists_isRenamed : ∃ u : Uri, m.IsRenamed className name rest u := by
  let entity := className ++ "." ++ name ++ "(" ++ rest
  let wanted : Components := { m.uri.components with entity := some entity }
  have grammatical : wanted.Grammatical := by
    obtain ⟨somewhere, scheme, forge, product, version, forgeless, package, named⟩ :=
      m.uri.grammatical_components
    refine ⟨somewhere, scheme, forge, product, version, forgeless, package, ?_⟩
    rintro _ ⟨⟩
    refine ⟨(named _ told).1, fun empty => ?_⟩
    have chars := congrArg String.toList empty
    rw [toList_entity] at chars
    simp [entityText] at chars
  have plain : Plain wanted.text.toList := by
    obtain ⟨old, _, _⟩ := Uri.Parts.of_read m.uri.parts_eq
    rw [toList_text told] at old
    rw [Uri.text_withEntity (by simp [told]), toList_withFront]
    unfold Plain entityText at old ⊢
    simp only [List.forall_mem_append, List.forall_mem_cons] at old ⊢
    obtain ⟨front, slash, _, point, _, parenthesis, rest⟩ := old
    exact ⟨front, slash, isName.plain, point, isName'.plain, parenthesis, rest⟩
  obtain ⟨u, _, tells⟩ := Uri.exists_of_grammatical grammatical plain
  refine ⟨u, ?_, tells⟩
  rw [u.base_eq_components, tells, m.uri.base_eq_components]
  rfl

end Named

/-- A method `Class.name(rest` is renamed just if neither `/Class.` nor `.name(` occurs before its
entity, or is replaced by itself: then another class and name stand in the entity, and nothing else
changes. -/
theorem rename_iff_clear (m : Method) {oldClass oldName rest className name : String}
    (told : m.uri.entity? = some (oldClass ++ "." ++ oldName ++ "(" ++ rest))
    (unpointed : '.' ∉ oldClass.toList) (unopened : '(' ∉ oldName.toList)
    (isName : IsName className) (isName' : IsName name) :
    (∃ u, m.rename className name = .ok u ∧ m.IsRenamed className name rest u) ↔
      (className = oldClass ∨ ¬ occurs (classPattern oldClass.toList) m.uri.front.toList) ∧
      (name = oldName ∨ ¬ occurs (namePattern oldName.toList) m.uri.front.toList) := by
  obtain ⟨target, renamed⟩ := exists_isRenamed told isName isName'
  have both := replaceFirst_both_iff unpointed isName.unpointed isName.unopened unopened
    isName'.unopened isName'.undivided m.uri.front.toList rest.toList
  rw [String.toList_inj, String.toList_inj, ← toList_text told,
    ← toList_text_of_isRenamed told renamed] at both
  rw [← both, ← classChars_eq told unpointed, ← nameChars_eq told unpointed unopened]
  constructor
  · rintro ⟨u, ok, same⟩
    rw [toList_text_of_isRenamed told renamed, ← toList_text_of_isRenamed told same,
      Uri.text_of_parse ok, String.toList_ofList]
    rfl
  · intro replaced
    refine ⟨target, ?_, renamed⟩
    rw [← target.parse_text, ← String.ofList_toList (s := target.text), ← replaced]
    rfl

/-- Both patterns occur again among the arguments, and half of the first in the base. -/
theorem rename_iff_clear_arguments :
    ∃ (m : Method) (u : Uri), m.uri.text = "//lib.C$1/C/C.m(/C.m()V)V" ∧
      m.rename "Other" "start" = .ok u ∧ m.IsRenamed "Other" "start" "/C.m()V)V" u ∧
      u.text = "//lib.C$1/C/Other.start(/C.m()V)V" := by
  let uri : Uri := ⟨"//lib.C$1/C/C.m(/C.m()V)V",
    .located none ⟨none, "lib.C".toList, some "1".toList⟩
      (some ⟨"C".toList, some "C.m(/C.m()V)V".toList⟩), by decide⟩
  have told : uri.entity? = some ("C" ++ "." ++ "m" ++ "(" ++ "/C.m()V)V") := by decide
  have isName : IsName "Other" := ⟨by decide, by decide, by decide, by decide⟩
  have isName' : IsName "start" := ⟨by decide, by decide, by decide, by decide⟩
  have renames := rename_iff_clear (.plain uri) told (by decide) (by decide) isName isName'
  obtain ⟨u, ok, renamed⟩ := renames.2 ⟨.inr (by decide), .inr (by decide)⟩
  refine ⟨.plain uri, u, rfl, ok, renamed, String.toList_inj.1 ?_⟩
  rw [toList_text_of_isRenamed told renamed]
  decide

/-- A package that begins with the class is renamed in place of the class. -/
theorem not_rename_package :
    ¬∀ (m : Method) (oldClass oldName rest className name : String),
      m.uri.entity? = some (oldClass ++ "." ++ oldName ++ "(" ++ rest) →
      oldClass ≠ "" → '.' ∉ oldClass.toList → '(' ∉ oldName.toList →
      className ≠ "" → IsName className → IsName name →
      ∃ u, m.rename className name = .ok u ∧ m.IsRenamed className name rest u := by
  intro all
  let uri : Uri := ⟨"/Lib.core/Lib.run(I)V",
    .local ⟨"Lib.core".toList, some "Lib.run(I)V".toList⟩, by decide⟩
  have told : uri.entity? = some ("Lib" ++ "." ++ "run" ++ "(" ++ "I)V") := by decide
  obtain ⟨u, ok, renamed⟩ := all (.plain uri) "Lib" "run" "I)V" "Other" "start" told (by decide)
    (by decide) (by decide) (by decide) ⟨by decide, by decide, by decide, by decide⟩
    ⟨by decide, by decide, by decide, by decide⟩
  have answer : ((Method.plain uri).rename "Other" "start").toOption.map Uri.text =
      some "/Other.core/Lib.start(I)V" := by decide +kernel
  rw [ok] at answer
  have text := toList_text_of_isRenamed told renamed
  rw [Option.some.inj answer] at text
  exact absurd text (by decide)

end Method

end RevisionGraph
