import RevisionGraph.Proofs.Revision.Checks
import RevisionGraph.Proofs.Uri.Components

/-!
# Coordinates that name a revision

The coordinates of a revision are put into two URIs and read back from both. `Coordinates.Legal`
says which coordinates come back, and by `Revision.new_iff_legal` a revision is made of just these.
-/

namespace RevisionGraph

namespace Uri

theorem plain_append {first second : List Char} :
    Plain (first ++ second) ↔ Plain first ∧ Plain second :=
  List.forall_mem_append

namespace Components

/-- The components of a URI that is made of coordinates. -/
def ofCoordinates (forge : Option String) (product version : String) : Components where
  scheme := some revisionScheme
  forge := forge
  product := some product
  version := some version
  package := none
  entity := none

theorem isSchemeName_revisionScheme : IsSchemeName revisionScheme :=
  isScheme_iff.1 (by decide)

theorem grammatical_ofCoordinates {forge : Option String} {product version : String} :
    (ofCoordinates forge product version).Grammatical ↔
      (∀ text, forge = some text → text ≠ "" ∧ '!' ∉ text.toList ∧ '/' ∉ text.toList) ∧
        (product ≠ "" ∧ '$' ∉ product.toList ∧ '/' ∉ product.toList) ∧
          (version ≠ "" ∧ '/' ∉ version.toList) ∧
            (forge = none → '!' ∉ product.toList ∧ '!' ∉ version.toList) := by
  constructor
  · intro grammatical
    refine ⟨fun text told => (grammatical.forge text told).2, grammatical.product product rfl,
      (grammatical.version version rfl).2, fun forgeless => ?_⟩
    have unmarked := grammatical.forgeless forgeless
    exact ⟨unmarked product (.inl rfl), unmarked version (.inr rfl)⟩
  · rintro ⟨forgeOk, productOk, versionOk, unmarked⟩
    have located : (ofCoordinates forge product version).product ≠ none := by
      simp [ofCoordinates]
    constructor
    · exact .inl located
    · rintro _ ⟨⟩
      exact ⟨located, isSchemeName_revisionScheme⟩
    · exact fun text told => ⟨located, forgeOk text told⟩
    · rintro _ ⟨⟩
      exact productOk
    · rintro _ ⟨⟩
      exact ⟨located, versionOk⟩
    · rintro forgeless part (⟨⟨⟩⟩ | ⟨⟨⟩⟩)
      · exact (unmarked forgeless).1
      · exact (unmarked forgeless).2
    · rintro _ ⟨⟩
    · rintro _ ⟨⟩

end Components

theorem parseCoordinates_eq_ok_iff {text product version : String} {forge : Option String}
    {u : Uri} :
    parseCoordinates text forge product version = .ok u ↔
      u.text = text ∧ u.HasCoordinates forge product version := by
  unfold parseCoordinates
  constructor
  · intro ok
    cases read : parse text with
    | error failure =>
      rw [read] at ok
      cases ok
    | ok v =>
      simp only [read, bind, Except.bind] at ok
      split at ok <;> rename_i told
      · cases ok
        exact ⟨text_of_parse read, told⟩
      · cases ok
  · rintro ⟨rfl, told⟩
    simp only [parse_text, bind, Except.bind, if_pos told]
    rfl

/-- Coordinates come back from a URI exactly if they keep to the grammar there. -/
theorem exists_parseCoordinates_iff {forge : Option String} {product version : String} :
    (∃ u, parseCoordinates (Components.ofCoordinates forge product version).text forge product
        version = .ok u) ↔
      Plain (Components.ofCoordinates forge product version).text.toList ∧
        (Components.ofCoordinates forge product version).Grammatical := by
  constructor
  · rintro ⟨u, ok⟩
    obtain ⟨same, sameForge, sameProduct, sameVersion, _⟩ := parseCoordinates_eq_ok_iff.1 ok
    obtain ⟨plain, wellFormed, _⟩ := Parts.of_read u.parts_eq
    have grammatical : u.components.Grammatical := Parts.grammatical_components wellFormed
    refine ⟨same ▸ plain, Components.grammatical_ofCoordinates.2 ⟨?_, ?_, ?_, ?_⟩⟩
    · exact fun text told => (grammatical.forge text (sameForge.trans told)).2
    · exact grammatical.product product sameProduct
    · exact (grammatical.version version sameVersion).2
    · intro forgeless
      have unmarked := grammatical.forgeless (sameForge.trans forgeless)
      exact ⟨unmarked product (.inl sameProduct), unmarked version (.inr sameVersion)⟩
  · rintro ⟨plain, grammatical⟩
    obtain ⟨u, same, told⟩ := exists_of_grammatical grammatical plain
    refine ⟨u, parseCoordinates_eq_ok_iff.2 ⟨same, ?_, ?_, ?_, ?_⟩⟩
    · exact congrArg Components.forge told
    · exact congrArg Components.product told
    · exact congrArg Components.version told
    · exact congrArg Components.package told

end Uri

open Uri (Plain)

namespace Coordinates

/-- Each coordinate is there and holds nothing that would be read as the end of it. -/
structure Legal (forge product version : String) : Prop where
  named : forge ≠ "" ∧ product ≠ "" ∧ version ≠ ""
  plain : ∀ part ∈ [forge, product, version], Plain part.toList ∧ '/' ∉ part.toList
  forge : '!' ∉ forge.toList
  product : '!' ∉ product.toList ∧ '$' ∉ product.toList
  version : '!' ∉ version.toList

variable {forge product version : String}

open Uri.Components (ofCoordinates grammatical_ofCoordinates)

theorem toList_text_revision : (ofCoordinates (some forge) product version).text.toList =
    "fasten://".toList ++ (forge.toList ++ '!' :: (product.toList ++ '$' :: version.toList)) := by
  simp [Uri.Components.text, Uri.Components.base, Uri.Components.path, ofCoordinates,
    Uri.revisionScheme]

theorem toList_text_forgeless : (ofCoordinates none product version).text.toList =
    "fasten://".toList ++ (product.toList ++ '$' :: version.toList) := by
  simp [Uri.Components.text, Uri.Components.base, Uri.Components.path, ofCoordinates,
    Uri.revisionScheme]

theorem revision_eq : Uri.revision forge product version =
    Uri.parseCoordinates (ofCoordinates (some forge) product version).text (some forge) product
      version := by
  unfold Uri.revision
  congr 1
  apply String.toList_inj.1
  rw [toList_text_revision]
  simp [Uri.revisionScheme]

theorem forgeless_eq : Uri.forgeless product version =
    Uri.parseCoordinates (ofCoordinates none product version).text none product version := by
  unfold Uri.forgeless
  congr 1
  apply String.toList_inj.1
  rw [toList_text_forgeless]
  simp [Uri.revisionScheme]

theorem plain_cons {mark : Char} (apart : isBlank mark = false ∧ isControl mark = false)
    {text : List Char} : Plain (mark :: text) ↔ Plain text :=
  List.forall_mem_cons.trans (and_iff_right apart)

theorem plain_text_revision : Plain (ofCoordinates (some forge) product version).text.toList ↔
    Plain forge.toList ∧ Plain product.toList ∧ Plain version.toList := by
  have scheme : Plain "fasten://".toList := by decide
  rw [toList_text_revision, Uri.plain_append, and_iff_right scheme, Uri.plain_append,
    plain_cons (by decide), Uri.plain_append, plain_cons (by decide)]

theorem plain_text_forgeless : Plain (ofCoordinates none product version).text.toList ↔
    Plain product.toList ∧ Plain version.toList := by
  have scheme : Plain "fasten://".toList := by decide
  rw [toList_text_forgeless, Uri.plain_append, and_iff_right scheme, Uri.plain_append,
    plain_cons (by decide)]

theorem exists_of_iff : (∃ c, Coordinates.of forge product version = .ok c) ↔
    (∃ u, Uri.revision forge product version = .ok u) ∧
      ∃ u, Uri.forgeless product version = .ok u := by
  constructor
  · rintro ⟨c, ok⟩
    obtain ⟨rfl, rfl, rfl⟩ := of_eq_ok_iff.1 ok
    exact ⟨⟨_, c.uri_eq⟩, ⟨_, c.forgelessUri_eq⟩⟩
  · rintro ⟨⟨uri, uriOk⟩, forgelessUri, forgelessOk⟩
    exact ⟨⟨forge, product, version, uri, forgelessUri, uriOk, forgelessOk⟩,
      of_eq_ok_iff.2 ⟨rfl, rfl, rfl⟩⟩

theorem exists_of_iff_legal :
    (∃ c, Coordinates.of forge product version = .ok c) ↔ Legal forge product version := by
  rw [exists_of_iff, revision_eq, forgeless_eq, Uri.exists_parseCoordinates_iff,
    Uri.exists_parseCoordinates_iff, plain_text_revision, plain_text_forgeless,
    grammatical_ofCoordinates, grammatical_ofCoordinates]
  constructor
  · rintro ⟨⟨⟨forgePlain, productPlain, versionPlain⟩, forgeOk, productOk, versionOk, _⟩, _, _, _,
      _, unmarked⟩
    obtain ⟨forgeNamed, forgeFree, forgeWhole⟩ := forgeOk forge rfl
    obtain ⟨productFree, versionFree⟩ := unmarked rfl
    refine ⟨⟨forgeNamed, productOk.1, versionOk.1⟩, ?_, forgeFree, ⟨productFree, productOk.2.1⟩,
      versionFree⟩
    simp only [List.forall_mem_cons, List.not_mem_nil, false_imp_iff, implies_true, and_true]
    exact ⟨⟨forgePlain, forgeWhole⟩, ⟨productPlain, productOk.2.2⟩, ⟨versionPlain, versionOk.2⟩⟩
  · rintro ⟨⟨forgeNamed, productNamed, versionNamed⟩, plain, forgeFree,
      ⟨productFree, productUndivided⟩, versionFree⟩
    simp only [List.forall_mem_cons, List.not_mem_nil, false_imp_iff, implies_true, and_true]
      at plain
    obtain ⟨⟨forgePlain, forgeWhole⟩, ⟨productPlain, productWhole⟩, versionPlain, versionWhole⟩ :=
      plain
    refine ⟨⟨⟨forgePlain, productPlain, versionPlain⟩, ?_, ⟨productNamed, productUndivided,
      productWhole⟩, ⟨versionNamed, versionWhole⟩, by simp⟩, ⟨productPlain, versionPlain⟩, by simp,
      ⟨productNamed, productUndivided, productWhole⟩, ⟨versionNamed, versionWhole⟩,
      fun _ => ⟨productFree, versionFree⟩⟩
    rintro _ ⟨⟩
    exact ⟨forgeNamed, forgeFree, forgeWhole⟩

theorem uri_hasCoordinates (c : Coordinates) :
    c.uri.HasCoordinates (some c.forge) c.product c.version :=
  (Uri.parseCoordinates_eq_ok_iff.1 c.uri_eq).2

theorem forgelessUri_hasCoordinates (c : Coordinates) :
    c.forgelessUri.HasCoordinates none c.product c.version :=
  (Uri.parseCoordinates_eq_ok_iff.1 c.forgelessUri_eq).2

/-- Coordinates with one URI are the same. -/
theorem uri_injective {c d : Coordinates} (same : c.uri = d.uri) : c = d := by
  obtain ⟨forge, product, version, _⟩ := c.uri_hasCoordinates
  obtain ⟨forge', product', version', _⟩ := same ▸ d.uri_hasCoordinates
  have sameForge : some c.forge = some d.forge := forge.symm.trans forge'
  have sameProduct : some c.product = some d.product := product.symm.trans product'
  have sameVersion : some c.version = some d.version := version.symm.trans version'
  exact ext (Option.some.inj sameForge) (Option.some.inj sameProduct) (Option.some.inj sameVersion)

theorem forgelessUri_ne_uri (c d : Coordinates) : c.forgelessUri ≠ d.uri := by
  intro same
  have forgeless := c.forgelessUri_hasCoordinates.1
  rw [same, d.uri_hasCoordinates.1] at forgeless
  cases forgeless

end Coordinates

namespace Revision

theorem exists_new_iff {forge product version generator : String} {timestamp : Int64}
    {nodeCount : UInt64} {hierarchy : Hierarchy} {calls : CallGraph} :
    (∃ r, new forge product version timestamp nodeCount generator hierarchy calls = .ok r) ↔
      generator ≠ "" ∧ Coordinates.Legal forge product version := by
  constructor
  · rintro ⟨r, ok⟩
    obtain ⟨_, _, _, named, coordinates, made, _⟩ := new_eq_ok_iff.1 ok
    exact ⟨named, Coordinates.exists_of_iff_legal.1 ⟨coordinates, made⟩⟩
  · rintro ⟨named, legal⟩
    obtain ⟨coordinates, made⟩ := Coordinates.exists_of_iff_legal.2 legal
    obtain ⟨forgeNamed, productNamed, versionNamed⟩ := legal.named
    exact ⟨_, new_eq_ok_iff.2 ⟨forgeNamed, productNamed, versionNamed, named, coordinates, made,
      rfl⟩⟩

/-- A revision is made just of legal coordinates and a generator. Its URIs say the coordinates, and
its URI belongs to no other coordinates and is nowhere a forgeless one. -/
theorem new_iff_legal (forge product version generator : String) (timestamp : Int64)
    (nodeCount : UInt64) (hierarchy : Hierarchy) (calls : CallGraph) :
    ((∃ r, new forge product version timestamp nodeCount generator hierarchy calls = .ok r) ↔
      generator ≠ "" ∧ Coordinates.Legal forge product version) ∧
    (∀ r, new forge product version timestamp nodeCount generator hierarchy calls = .ok r →
      (r.uri.forge? = some forge ∧ r.uri.product? = some product ∧ r.uri.version? = some version) ∧
        r.forgelessUri.forge? = none ∧ r.forgelessUri.product? = some product ∧
          r.forgelessUri.version? = some version) ∧
    ∀ r s : Revision, (r.uri = s.uri → r.coordinates.forge = s.coordinates.forge ∧
        r.coordinates.product = s.coordinates.product ∧
          r.coordinates.version = s.coordinates.version) ∧ r.forgelessUri ≠ s.uri := by
  refine ⟨exists_new_iff, ?_, ?_⟩
  · intro r ok
    obtain ⟨_, _, _, _, coordinates, made, rfl⟩ := new_eq_ok_iff.1 ok
    obtain ⟨rfl, rfl, rfl⟩ := Coordinates.of_eq_ok_iff.1 made
    obtain ⟨forge, product, version, _⟩ := coordinates.uri_hasCoordinates
    obtain ⟨forgeless, product', version', _⟩ := coordinates.forgelessUri_hasCoordinates
    exact ⟨⟨forge, product, version⟩, forgeless, product', version'⟩
  · intro r s
    refine ⟨fun same => ?_, Coordinates.forgelessUri_ne_uri r.coordinates s.coordinates⟩
    have equal : r.coordinates = s.coordinates := Coordinates.uri_injective same
    exact ⟨congrArg _ equal, congrArg _ equal, congrArg _ equal⟩

theorem new_iff_legal_dollars :
    ∃ r, new "m$n" "lib" "1$0" 5 0 "test" ∅ ∅ = .ok r ∧ r.uri.forge? = some "m$n" ∧
      r.forgelessUri.version? = some "1$0" ∧ r.forgelessUri ≠ r.uri := by
  obtain ⟨made, told, apart⟩ := new_iff_legal "m$n" "lib" "1$0" "test" 5 0 ∅ ∅
  have plain : ∀ part ∈ ["m$n", "lib", "1$0"], Plain part.toList ∧ '/' ∉ part.toList := by
    decide
  obtain ⟨r, ok⟩ := made.2 ⟨by decide, by decide, plain, by decide, by decide, by decide⟩
  obtain ⟨⟨forge, _⟩, _, _, version⟩ := told r ok
  exact ⟨r, ok, forge, version, (apart r r).2⟩

end Revision

end RevisionGraph
