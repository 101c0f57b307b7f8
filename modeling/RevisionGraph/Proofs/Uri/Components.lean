import RevisionGraph.Proofs.Uri.Grammar
import RevisionGraph.Uri.Basic

/-!
# The components of a URI

A text is a URI exactly if it is the text of components that keep to the grammar, and these are then
the components that the URI tells (`Uri.parse_iff_grammatical`).
-/

namespace RevisionGraph.Uri

/-- What a URI says, piece by piece. -/
structure Components where
  scheme : Option String
  forge : Option String
  product : Option String
  version : Option String
  package : Option String
  entity : Option String

namespace Components

/-- `[scheme:][//[forge!]product[$version]]` -/
def base (c : Components) : String :=
  (match c.scheme with
    | some scheme => scheme ++ ":"
    | none => "") ++
  (match c.product with
    | some product =>
      "//" ++
      (match c.forge with
        | some forge => forge ++ "!"
        | none => "") ++
      product ++
      (match c.version with
        | some version => "$" ++ version
        | none => "")
    | none => "")

/-- `[/package[/entity]]` -/
def path (c : Components) : String :=
  match c.package with
  | some package =>
    "/" ++ package ++
    (match c.entity with
      | some entity => "/" ++ entity
      | none => "")
  | none => ""

def text (c : Components) : String := c.base ++ c.path

/-- A letter and then letters, digits and the marks `+`, `-` and `.`. -/
def IsSchemeName (name : String) : Prop :=
  ∃ first rest, name.toList = first :: rest ∧ first.isAlpha ∧
    ∀ c ∈ rest, c.isAlphanum ∨ c = '+' ∨ c = '-' ∨ c = '.'

structure Grammatical (c : Components) : Prop where
  somewhere : c.product ≠ none ∨ c.package ≠ none
  scheme : ∀ scheme, c.scheme = some scheme → c.product ≠ none ∧ IsSchemeName scheme
  forge : ∀ forge, c.forge = some forge →
    c.product ≠ none ∧ forge ≠ "" ∧ '!' ∉ forge.toList ∧ '/' ∉ forge.toList
  product : ∀ product, c.product = some product →
    product ≠ "" ∧ '$' ∉ product.toList ∧ '/' ∉ product.toList
  version : ∀ version, c.version = some version →
    c.product ≠ none ∧ version ≠ "" ∧ '/' ∉ version.toList
  forgeless : c.forge = none → ∀ part, c.product = some part ∨ c.version = some part →
    '!' ∉ part.toList
  package : ∀ package, c.package = some package → package ≠ "" ∧ '/' ∉ package.toList
  entity : ∀ entity, c.entity = some entity → c.package ≠ none ∧ entity ≠ ""

end Components

/-- What the URI tells when it is asked for its components. -/
def components (u : Uri) : Components :=
  ⟨u.scheme?, u.forge?, u.product?, u.version?, u.package?, u.entity?⟩

/-! ### Parts as components -/

theorem isScheme_iff {name : String} :
    isScheme name.toList = true ↔ Components.IsSchemeName name := by
  unfold Components.IsSchemeName
  cases name.toList with
  | nil => simp [isScheme]
  | cons first rest =>
    have each : rest.all isSchemeChar = true ↔
        ∀ c ∈ rest, c.isAlphanum ∨ c = '+' ∨ c = '-' ∨ c = '.' := by
      simp [isSchemeChar, or_assoc]
    simp only [isScheme, Bool.and_eq_true, each]
    constructor
    · intro named
      exact ⟨first, rest, rfl, named⟩
    · rintro ⟨_, _, same, named⟩
      cases same
      exact named

namespace Parts

/-- The parts with their characters put together to texts. -/
def components (p : Parts) : Components where
  scheme := p.scheme?.map String.ofList
  forge := (p.authority?.bind Authority.forge).map String.ofList
  product := p.authority?.map fun authority => String.ofList authority.product
  version := (p.authority?.bind Authority.version).map String.ofList
  package := p.path?.map fun path => String.ofList path.package
  entity := (p.path?.bind Path.entity).map String.ofList

theorem base_components (p : Parts) : p.components.base = String.ofList p.base := by
  apply String.toList_inj.1
  cases p with
  | «local» path => rfl
  | located scheme authority path =>
    obtain ⟨forge, product, version⟩ := authority
    cases scheme <;> cases forge <;> cases version <;>
      simp [Components.base, components, scheme?, authority?, base, Authority.render]

theorem path_components (p : Parts) :
    p.components.path = String.ofList (renderPath p.path?) := by
  apply String.toList_inj.1
  unfold Components.path components renderPath
  cases p.path? with
  | none => rfl
  | some path =>
    obtain ⟨package, entity⟩ := path
    cases entity <;> simp [Path.render]

theorem text_components (p : Parts) : p.components.text = String.ofList p.render := by
  have rendered : p.render = p.base ++ renderPath p.path? := by
    unfold render renderPath
    cases p.path? <;> rfl
  rw [Components.text, base_components, path_components, rendered, String.ofList_append]

theorem grammatical_components {p : Parts} (wellFormed : p.WellFormed) :
    p.components.Grammatical := by
  have located {a : Authority} (told : p.authority? = some a) : p.components.product ≠ none := by
    simp [components, told]
  constructor
  · cases p <;> simp [components, authority?, path?]
  · intro scheme held
    obtain ⟨chars, told, rfl⟩ := Option.map_eq_some_iff.1 held
    have named := wellFormed.scheme chars told
    refine ⟨?_, isScheme_iff.1 (by simpa using named)⟩
    cases p with
    | «local» path => cases told
    | located scheme authority path => exact located rfl
  · intro forge held
    obtain ⟨chars, told, rfl⟩ := Option.map_eq_some_iff.1 held
    obtain ⟨a, given, told⟩ := Option.bind_eq_some_iff.1 told
    have formed := (wellFormed.authority a given).forge chars told
    exact ⟨located given, by simpa using formed⟩
  · intro product held
    obtain ⟨a, given, rfl⟩ := Option.map_eq_some_iff.1 held
    simpa using (wellFormed.authority a given).product
  · intro version held
    obtain ⟨chars, told, rfl⟩ := Option.map_eq_some_iff.1 held
    obtain ⟨a, given, told⟩ := Option.bind_eq_some_iff.1 told
    have formed := (wellFormed.authority a given).version chars told
    exact ⟨located given, by simpa using formed⟩
  · rintro noForge part (held | held)
    · obtain ⟨a, given, rfl⟩ := Option.map_eq_some_iff.1 held
      have forgeless : a.forge = none := by simpa [components, given] using noForge
      simpa using ((wellFormed.authority a given).forgeless forgeless).1
    · obtain ⟨chars, told, rfl⟩ := Option.map_eq_some_iff.1 held
      obtain ⟨a, given, told⟩ := Option.bind_eq_some_iff.1 told
      have forgeless : a.forge = none := by simpa [components, given] using noForge
      simpa using ((wellFormed.authority a given).forgeless forgeless).2 chars told
  · intro package held
    obtain ⟨path, given, rfl⟩ := Option.map_eq_some_iff.1 held
    simpa using (wellFormed.path path given).package
  · intro entity held
    obtain ⟨chars, told, rfl⟩ := Option.map_eq_some_iff.1 held
    obtain ⟨path, given, told⟩ := Option.bind_eq_some_iff.1 told
    refine ⟨by simp [components, given], ?_⟩
    simpa using (wellFormed.path path given).entity chars told

/-- The authority that a grammatical product stands in. -/
theorem wellFormed_authority {c : Components} (grammatical : c.Grammatical) {product : String}
    (told : c.product = some product) :
    Authority.WellFormed
      ⟨c.forge.map String.toList, product.toList, c.version.map String.toList⟩ := by
  constructor
  · intro chars held
    obtain ⟨text, told, rfl⟩ := Option.map_eq_some_iff.1 held
    simpa using (grammatical.forge text told).2
  · simpa using grammatical.product product told
  · intro chars held
    obtain ⟨text, told, rfl⟩ := Option.map_eq_some_iff.1 held
    simpa using (grammatical.version text told).2
  · intro noForge
    have forgeless := grammatical.forgeless (by simpa using noForge)
    refine ⟨forgeless product (.inl told), ?_⟩
    intro chars held
    obtain ⟨text, told, rfl⟩ := Option.map_eq_some_iff.1 held
    exact forgeless text (.inr told)

theorem wellFormed_path {c : Components} (grammatical : c.Grammatical) {package : String}
    (told : c.package = some package) :
    Path.WellFormed ⟨package.toList, c.entity.map String.toList⟩ := by
  obtain ⟨named, undivided⟩ := grammatical.package package told
  refine ⟨⟨by simpa using named, undivided⟩, ?_⟩
  intro chars held
  obtain ⟨text, told, rfl⟩ := Option.map_eq_some_iff.1 held
  simpa using (grammatical.entity text told).2

theorem exists_local {c : Components} (grammatical : c.Grammatical) (told : c.product = none) :
    ∃ p : Parts, p.WellFormed ∧ p.components = c := by
  have noScheme : c.scheme = none := Option.eq_none_iff_forall_ne_some.2 fun text held =>
    (grammatical.scheme text held).1 told
  have noForge : c.forge = none := Option.eq_none_iff_forall_ne_some.2 fun text held =>
    (grammatical.forge text held).1 told
  have noVersion : c.version = none := Option.eq_none_iff_forall_ne_some.2 fun text held =>
    (grammatical.version text held).1 told
  obtain ⟨package, named⟩ : ∃ package, c.package = some package :=
    Option.ne_none_iff_exists'.1 (grammatical.somewhere.resolve_left (not_not_intro told))
  refine ⟨.local ⟨package.toList, c.entity.map String.toList⟩, ⟨?_, ?_, ?_⟩, ?_⟩
  · rintro _ ⟨⟩
  · rintro _ ⟨⟩
  · rintro _ ⟨⟩
    exact wellFormed_path grammatical named
  · obtain ⟨_, _, _, _, _, _⟩ := c
    cases told
    cases noScheme
    cases noForge
    cases noVersion
    cases named
    simp [components, scheme?, authority?, path?, Function.comp_def]

theorem exists_located {c : Components} (grammatical : c.Grammatical) {product : String}
    (told : c.product = some product) : ∃ p : Parts, p.WellFormed ∧ p.components = c := by
  refine ⟨.located (c.scheme.map String.toList)
    ⟨c.forge.map String.toList, product.toList, c.version.map String.toList⟩
    (c.package.map fun package => ⟨package.toList, c.entity.map String.toList⟩), ⟨?_, ?_, ?_⟩, ?_⟩
  · intro chars held
    obtain ⟨text, named, rfl⟩ := Option.map_eq_some_iff.1 held
    exact isScheme_iff.2 (grammatical.scheme text named).2
  · rintro _ ⟨⟩
    exact wellFormed_authority grammatical told
  · intro path held
    obtain ⟨package, named, rfl⟩ := Option.map_eq_some_iff.1 held
    exact wellFormed_path grammatical named
  · have entity (noPackage : c.package = none) : c.entity = none :=
      Option.eq_none_iff_forall_ne_some.2 fun text held =>
        (grammatical.entity text held).1 noPackage
    obtain ⟨_, _, _, _, package, _⟩ := c
    cases told
    cases package with
    | none =>
      cases entity rfl
      simp [components, scheme?, authority?, path?, Function.comp_def]
    | some package => simp [components, scheme?, authority?, path?, Function.comp_def]

/-- Whatever keeps to the grammar is told by parts that can be read. -/
theorem exists_components {c : Components} (grammatical : c.Grammatical) :
    ∃ p : Parts, p.WellFormed ∧ p.components = c := by
  cases told : c.product with
  | none => exact exists_local grammatical told
  | some product => exact exists_located grammatical told

end Parts

/-! ### Texts of URIs -/

theorem parse_eq_ok_iff {text : String} {u : Uri} :
    parse text = .ok u ↔ u.text = text := by
  constructor
  · exact text_of_parse
  · rintro rfl
    exact u.parse_text

theorem text_components (u : Uri) : u.components.text = u.text := by
  obtain ⟨_, _, rendered⟩ := Parts.of_read u.parts_eq
  show u.parts.components.text = u.text
  rw [Parts.text_components, rendered, String.ofList_toList]

theorem exists_of_grammatical {c : Components} (grammatical : c.Grammatical)
    (plain : Plain c.text.toList) : ∃ u : Uri, u.text = c.text ∧ u.components = c := by
  obtain ⟨p, wellFormed, rfl⟩ := Parts.exists_components grammatical
  rw [Parts.text_components, String.toList_ofList] at plain
  have read := Parts.read_render wellFormed plain
  have asText : Parts.read p.components.text.toList = .ok p := by
    rw [Parts.text_components, String.toList_ofList, read]
  exact ⟨⟨_, p, asText⟩, rfl, rfl⟩

/-- A text is a URI exactly if it is plain and keeps to the grammar. It does so in one way, which is
what the URI tells, and the base of the URI is what stands before its path. -/
theorem parse_iff_grammatical (text : String) :
    ((∃ u, parse text = .ok u) ↔
      Plain text.toList ∧ ∃ c : Components, c.Grammatical ∧ c.text = text) ∧
    ∀ u, parse text = .ok u →
      (∀ c : Components, c.Grammatical ∧ c.text = text ↔ c = u.components) ∧
        u.base = u.components.base ∧ text = u.base ++ u.components.path := by
  refine ⟨⟨?_, ?_⟩, ?_⟩
  · rintro ⟨u, ok⟩
    have same := parse_eq_ok_iff.1 ok
    obtain ⟨plain, wellFormed, _⟩ := Parts.of_read u.parts_eq
    rw [same] at plain
    exact ⟨plain, u.components, Parts.grammatical_components wellFormed,
      (text_components u).trans same⟩
  · rintro ⟨plain, c, grammatical, rfl⟩
    obtain ⟨u, same, _⟩ := exists_of_grammatical grammatical plain
    exact ⟨u, parse_eq_ok_iff.2 same⟩
  · intro u ok
    have same := parse_eq_ok_iff.1 ok
    subst same
    obtain ⟨plain, wellFormed, _⟩ := Parts.of_read u.parts_eq
    have base : u.base = u.components.base := (Parts.base_components u.parts).symm
    refine ⟨fun c => ⟨?_, ?_⟩, base, ?_⟩
    · rintro ⟨grammatical, written⟩
      obtain ⟨v, same, told⟩ := exists_of_grammatical grammatical (written ▸ plain)
      rw [← told, ext_text (same.trans written)]
    · rintro rfl
      exact ⟨Parts.grammatical_components wellFormed, text_components u⟩
    · rw [base]
      exact (text_components u).symm

/-- Marks that would divide a component elsewhere. -/
theorem parse_iff_grammatical_marks :
    ∃ u, parse "fasten://a$b!c$1!2$3/ns//C.m()V" = .ok u ∧
      u.components =
        ⟨some "fasten", some "a$b", some "c", some "1!2$3", some "ns", some "/C.m()V"⟩ ∧
      u.base = "fasten://a$b!c$1!2$3" := by
  let c : Components :=
    ⟨some "fasten", some "a$b", some "c", some "1!2$3", some "ns", some "/C.m()V"⟩
  have grammatical : c.Grammatical := by
    constructor
    · exact .inl (by decide)
    · rintro _ ⟨⟩
      exact ⟨by decide, isScheme_iff.1 (by decide)⟩
    · rintro _ ⟨⟩
      decide
    · rintro _ ⟨⟩
      decide
    · rintro _ ⟨⟩
      decide
    · rintro ⟨⟩
    · rintro _ ⟨⟩
      decide
    · rintro _ ⟨⟩
      decide
  obtain ⟨accepted, told⟩ := parse_iff_grammatical "fasten://a$b!c$1!2$3/ns//C.m()V"
  have written : c.text = "fasten://a$b!c$1!2$3/ns//C.m()V" := by decide
  obtain ⟨u, ok⟩ := accepted.2 ⟨by decide, c, grammatical, written⟩
  obtain ⟨only, base, _⟩ := told u ok
  have same : c = u.components := (only c).1 ⟨grammatical, written⟩
  refine ⟨u, ok, same.symm, ?_⟩
  rw [base, ← same]
  decide

end RevisionGraph.Uri
