import RevisionGraph.Proofs.Method.Home
import RevisionGraph.Proofs.Uri.Grammar

/-!
# Type URIs

The type URI of a method is written from the base, the package and the class of the method and then
read again. It is read at the same places for every form of a URI, so that it differs from the URI
of the method in the entity alone: `Method.typeUri_iff_hasClass`.
-/

namespace RevisionGraph

theorem cut_eq_nil_iff {mark : Char} {text : List Char} :
    (cut mark text).1 = [] ↔ text = [] ∨ text.head? = some mark := by
  cases text with
  | nil => simp [cut]
  | cons c rest =>
    by_cases same : c = mark
    · simp [cut, same]
    · simp [cut, same]

/-- A text is cut before its first mark, or not at all if it has none. -/
theorem exists_cut (mark : Char) (text : List Char) :
    ∃ rest, text = (cut mark text).1 ++ rest ∧ (rest = [] ∨ rest.head? = some mark) ∧
      mark ∉ (cut mark text).1 := by
  rcases halves : cut mark text with ⟨before, _ | after⟩
  · obtain ⟨rfl, unmarked⟩ := cut_eq_none_iff.1 halves
    exact ⟨[], (List.append_nil _).symm, .inl rfl, unmarked⟩
  · obtain ⟨rfl, unmarked⟩ := cut_eq_some_iff.1 halves
    exact ⟨mark :: after, rfl, .inr rfl, unmarked⟩

namespace Uri

/-- The URI has an entity that begins with the name of a class. -/
def HasClass (u : Uri) : Prop :=
  ∃ entity, u.entity? = some entity ∧ entity.toList.head? ≠ some '.'

/-! ### Another entity -/

namespace Parts

/-- The parts with another entity; a URI without a path stays without one. -/
def withEntity (p : Parts) (entity : List Char) : Parts :=
  match p with
  | .local path => .local { path with entity := some entity }
  | .located scheme authority path =>
    .located scheme authority (path.map fun path => { path with entity := some entity })

variable (p : Parts) (entity : List Char)

@[simp] theorem base_withEntity : (p.withEntity entity).base = p.base := by
  cases p with
  | «local» path => rfl
  | located scheme authority path => cases scheme <;> rfl

@[simp] theorem scheme?_withEntity : (p.withEntity entity).scheme? = p.scheme? := by
  cases p <;> rfl

@[simp] theorem authority?_withEntity : (p.withEntity entity).authority? = p.authority? := by
  cases p <;> rfl

@[simp] theorem path?_withEntity :
    (p.withEntity entity).path? = p.path?.map fun path => { path with entity := some entity } := by
  cases p <;> rfl

variable {p} {entity}

theorem WellFormed.withEntity (wellFormed : p.WellFormed) (named : entity ≠ []) :
    (p.withEntity entity).WellFormed := by
  constructor
  · rw [scheme?_withEntity]
    exact wellFormed.scheme
  · rw [authority?_withEntity]
    exact wellFormed.authority
  · intro path held
    rw [path?_withEntity] at held
    obtain ⟨path, told, rfl⟩ := Option.map_eq_some_iff.1 held
    refine ⟨(wellFormed.path path told).package, ?_⟩
    rintro _ ⟨⟩
    exact named

theorem render_of_entity {path : Path} (held : p.path? = some path)
    (told : path.entity = some entity) :
    p.render = p.base ++ '/' :: path.package ++ '/' :: entity := by
  rw [render, held]
  simp [Path.render, told]

theorem render_withEntity {path : Path} (held : p.path? = some path) :
    (p.withEntity entity).render = p.base ++ '/' :: path.package ++ '/' :: entity := by
  have replaced : (p.withEntity entity).path? = some { path with entity := some entity } := by
    rw [path?_withEntity, held, Option.map_some]
  rw [render_of_entity replaced rfl, base_withEntity]

end Parts

/-- Parts that are well formed belong to a URI if their text is plain. -/
theorem exists_of_wellFormed {p : Parts} (wellFormed : p.WellFormed) (plain : Plain p.render) :
    ∃ u : Uri, u.text = String.ofList p.render ∧ u.parts = p := by
  have read : Parts.read (String.ofList p.render).toList = .ok p := by
    rw [String.toList_ofList]
    exact Parts.read_render wellFormed plain
  exact ⟨⟨_, p, read⟩, rfl, rfl⟩

end Uri

/-! ### The URI of the class -/

namespace Method

open Uri

variable {m : Method}

/-- A method has a class just if its URI says so. -/
theorem classChars_ne_nil_iff : m.classChars ≠ [] ↔ m.uri.HasClass := by
  rw [classChars, Ne, cut_eq_nil_iff, HasClass, entity?, entityChars]
  cases told : m.uri.parts.path?.bind Path.entity with
  | none => simp
  | some entity =>
    obtain ⟨path, held, told⟩ := Option.bind_eq_some_iff.1 told
    obtain ⟨_, wellFormed, _⟩ := Parts.of_read m.uri.parts_eq
    have named : entity ≠ [] := (wellFormed.path path held).entity entity told
    simp [named]

theorem exists_entity_of_hasClass (hasClass : m.uri.HasClass) :
    ∃ path, m.uri.parts.path? = some path ∧ path.entity = some m.entityChars := by
  obtain ⟨_, told, _⟩ := hasClass
  obtain ⟨entity, told, _⟩ := Option.map_eq_some_iff.1 told
  obtain ⟨path, held, inPath⟩ := Option.bind_eq_some_iff.1 told
  refine ⟨path, held, ?_⟩
  rw [inPath, entityChars, told, Option.getD_some]

/-- The text of the URI goes on behind the class with a point or not at all. -/
theorem exists_rest (hasClass : m.uri.HasClass) :
    ∃ rest, m.uri.text.toList = (m.uri.parts.withEntity m.classChars).render ++ rest ∧
      (rest = [] ∨ rest.head? = some '.') := by
  obtain ⟨path, held, told⟩ := exists_entity_of_hasClass hasClass
  obtain ⟨_, _, rendered⟩ := Parts.of_read m.uri.parts_eq
  obtain ⟨rest, cutOff, behind, _⟩ := exists_cut '.' m.entityChars
  refine ⟨rest, ?_, behind⟩
  have whole : m.entityChars = m.classChars ++ rest := cutOff
  rw [← rendered, Parts.render_of_entity held told, Parts.render_withEntity held, whole]
  simp

theorem typeUri_of_hasClass (hasClass : m.uri.HasClass) :
    m.typeUri = Uri.parse (String.ofList (m.uri.parts.withEntity m.classChars).render) := by
  obtain ⟨path, held, _⟩ := exists_entity_of_hasClass hasClass
  rw [typeUri, held, Parts.render_withEntity held]
  exact if_neg (by simpa using classChars_ne_nil_iff.2 hasClass)

/-- The type URI has the class for its entity and says the same as the URI of the method
otherwise. -/
theorem exists_typeUri (hasClass : m.uri.HasClass) :
    ∃ home : Uri, m.typeUri = .ok home ∧ home.parts = m.uri.parts.withEntity m.classChars := by
  obtain ⟨plain, wellFormed, _⟩ := Parts.of_read m.uri.parts_eq
  obtain ⟨rest, whole, _⟩ := exists_rest hasClass
  have shorter : Plain (m.uri.parts.withEntity m.classChars).render := fun c mem =>
    plain c (whole ▸ List.mem_append_left rest mem)
  obtain ⟨home, text, parts⟩ :=
    exists_of_wellFormed (wellFormed.withEntity (classChars_ne_nil_iff.2 hasClass)) shorter
  refine ⟨home, ?_, parts⟩
  rw [typeUri_of_hasClass hasClass, ← text, Uri.parse_text]

theorem hasClass_of_typeUri {home : Uri} (ok : m.typeUri = .ok home) : m.uri.HasClass := by
  rw [← classChars_ne_nil_iff]
  unfold typeUri at ok
  split at ok
  · cases ok
  · split at ok <;> rename_i named
    · cases ok
    · simpa using named

/-- A URI whose entity is no longer than the class is its own type URI. -/
theorem typeUri_eq_self (hasClass : m.uri.HasClass) (whole : m.classChars = m.entityChars) :
    m.typeUri = .ok m.uri := by
  obtain ⟨path, held, told⟩ := exists_entity_of_hasClass hasClass
  obtain ⟨_, _, rendered⟩ := Parts.of_read m.uri.parts_eq
  rw [typeUri_of_hasClass hasClass, Parts.render_withEntity held, whole,
    ← Parts.render_of_entity held told, rendered, String.ofList_toList, Uri.parse_text]

/-- `home` is the URI of a method up to the end of its class. -/
structure IsTypeUri (m : Method) (home : Uri) : Prop where
  base : home.base = m.uri.base
  scheme : home.scheme? = m.uri.scheme?
  forge : home.forge? = m.uri.forge?
  product : home.product? = m.uri.product?
  version : home.version? = m.uri.version?
  package : home.package? = m.uri.package?
  entity : home.entity? = some m.className
  text : ∃ rest, m.uri.text = home.text ++ rest ∧ (rest = "" ∨ rest.toList.head? = some '.')
  again : ∀ n : Method, n.uri = home → n.typeUri = .ok home

theorem isTypeUri_of_typeUri {home : Uri} (ok : m.typeUri = .ok home) : m.IsTypeUri home := by
  have hasClass := hasClass_of_typeUri ok
  obtain ⟨home', made, parts⟩ := exists_typeUri hasClass
  cases ok.symm.trans made
  obtain ⟨path, held, told⟩ := exists_entity_of_hasClass hasClass
  obtain ⟨_, _, rendered⟩ := Parts.of_read home.parts_eq
  obtain ⟨rest, whole, behind⟩ := exists_rest hasClass
  obtain ⟨_, _, _, unmarked⟩ := exists_cut '.' m.entityChars
  constructor
  · rw [Uri.base, Uri.base, parts, Parts.base_withEntity]
  · rw [Uri.scheme?, Uri.scheme?, parts, Parts.scheme?_withEntity]
  · rw [Uri.forge?, Uri.forge?, parts, Parts.authority?_withEntity]
  · rw [Uri.product?, Uri.product?, parts, Parts.authority?_withEntity]
  · rw [Uri.version?, Uri.version?, parts, Parts.authority?_withEntity]
  · rw [Uri.package?, Uri.package?, parts, Parts.path?_withEntity, held]
    rfl
  · rw [Uri.entity?, parts, Parts.path?_withEntity, held]
    rfl
  · refine ⟨String.ofList rest, String.toList_inj.1 ?_, by simpa using behind⟩
    rw [whole, ← parts, rendered, String.toList_append, String.toList_ofList]
  · rintro n rfl
    have entity : n.entityChars = m.classChars := by
      rw [entityChars, parts, Parts.path?_withEntity, held]
      rfl
    have whole : n.classChars = n.entityChars := by
      rw [classChars, entity, classChars, cut_of_not_mem unmarked]
    refine typeUri_eq_self (classChars_ne_nil_iff.1 ?_) whole
    rw [whole, entity]
    exact classChars_ne_nil_iff.2 hasClass

/-- A method has a type URI just if its URI has an entity that does not begin with a point. It is
the URI of the method up to the end of the class, read as the same parts up to there, and it is its
own type URI. -/
theorem typeUri_iff_hasClass (m : Method) :
    ((∃ home, m.typeUri = .ok home) ↔
      ∃ entity, m.uri.entity? = some entity ∧ entity.toList.head? ≠ some '.') ∧
    ∀ home, m.typeUri = .ok home → m.IsTypeUri home := by
  refine ⟨⟨?_, ?_⟩, fun _ => isTypeUri_of_typeUri⟩
  · rintro ⟨_, ok⟩
    exact hasClass_of_typeUri ok
  · intro hasClass
    obtain ⟨home, ok, _⟩ := exists_typeUri hasClass
    exact ⟨home, ok⟩

/-- A class with a slash, and points and slashes behind it. -/
theorem typeUri_iff_hasClass_slash :
    ∃ (m : Method) (home : Uri), m.uri.text = "fasten://mvn!lib$1.0/ns//Outer/In.m(/a.b)V" ∧
      m.typeUri = .ok home ∧ m.IsTypeUri home ∧ home.entity? = some "/Outer/In" := by
  let uri : Uri := ⟨"fasten://mvn!lib$1.0/ns//Outer/In.m(/a.b)V",
    .located (some "fasten".toList) ⟨some "mvn".toList, "lib".toList, some "1.0".toList⟩
      (some ⟨"ns".toList, some "/Outer/In.m(/a.b)V".toList⟩), by decide⟩
  obtain ⟨accepted, told⟩ := typeUri_iff_hasClass (.plain uri)
  obtain ⟨home, ok⟩ := accepted.2 ⟨"/Outer/In.m(/a.b)V", by decide, by decide⟩
  have upToClass := told home ok
  exact ⟨.plain uri, home, rfl, ok, upToClass, upToClass.entity.trans (by decide)⟩

end Method

end RevisionGraph
