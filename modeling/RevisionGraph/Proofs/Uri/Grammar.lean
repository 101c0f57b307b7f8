import Mathlib.Data.List.TakeWhile
import RevisionGraph.Uri.Parts

/-!
# The grammar of entity URIs

A text is read as parts exactly if the parts are well formed and the text is their rendering
(`Uri.Parts.read_eq_ok_iff`), so a text is read in one way only.
-/

namespace RevisionGraph

theorem cut_append {mark : Char} {before : List Char} (first : mark ∉ before)
    (after : List Char) : cut mark (before ++ mark :: after) = (before, some after) :=
  cut_eq_some_iff.2 ⟨rfl, first⟩

theorem cut_of_not_mem {mark : Char} {text : List Char} (absent : mark ∉ text) :
    cut mark text = (text, none) :=
  cut_eq_none_iff.2 ⟨rfl, absent⟩

namespace Uri

/-! ### Authorities -/

namespace Authority

/-- `product$version` -/
def renderProduct (product : List Char) (version : Option (List Char)) : List Char :=
  render ⟨none, product, version⟩

theorem render_forge (forge product : List Char) (version : Option (List Char)) :
    render ⟨some forge, product, version⟩ = forge ++ '!' :: renderProduct product version := by
  simp [render, renderProduct]

theorem mem_renderProduct {c : Char} {product : List Char} {version : Option (List Char)} :
    c ∈ renderProduct product version ↔
      c ∈ product ∨ ∃ text, version = some text ∧ (c = '$' ∨ c ∈ text) := by
  cases version <;> simp [render, renderProduct]

theorem mem_render {c : Char} {a : Authority} :
    c ∈ a.render ↔ (∃ forge, a.forge = some forge ∧ (c ∈ forge ∨ c = '!')) ∨ c ∈ a.product ∨
      ∃ version, a.version = some version ∧ (c = '$' ∨ c ∈ version) := by
  obtain ⟨forge, product, version⟩ := a
  cases forge with
  | none =>
    have rendered : render ⟨none, product, version⟩ = renderProduct product version := rfl
    simp [rendered, mem_renderProduct]
  | some forge => simp [render_forge, mem_renderProduct, or_assoc]

theorem readProduct_render {forge : Option (List Char)} {product : List Char}
    {version : Option (List Char)} (named : product ≠ []) (unmarked : '$' ∉ product)
    (told : ∀ text, version = some text → text ≠ []) :
    read.readProduct forge (renderProduct product version) = .ok ⟨forge, product, version⟩ := by
  cases version with
  | none =>
    have rendered : renderProduct product none = product := by simp [renderProduct, render]
    rw [rendered, read.readProduct, cut_of_not_mem unmarked]
    simp [named]
  | some version =>
    have rendered : renderProduct product (some version) = product ++ '$' :: version := by
      simp [renderProduct, render]
    rw [rendered, read.readProduct, cut_append unmarked]
    simp [named, told version rfl]

theorem read_render {a : Authority} (wellFormed : a.WellFormed) : read a.render = .ok a := by
  have someText : a.render ≠ [] := by simp [render, wellFormed.product.1]
  rw [read, if_neg (by simpa using someText)]
  obtain ⟨forge, product, version⟩ := a
  have told : ∀ text, version = some text → text ≠ [] := fun text held =>
    (wellFormed.version text held).1
  cases forge with
  | none =>
    obtain ⟨productFree, versionFree⟩ := wellFormed.forgeless rfl
    have unmarked : '!' ∉ renderProduct product version := by
      rw [mem_renderProduct]
      rintro (mem | ⟨text, held, same | mem⟩)
      · exact productFree mem
      · cases same
      · exact versionFree text held mem
    have rendered : render ⟨none, product, version⟩ = renderProduct product version := rfl
    rw [rendered, cut_of_not_mem unmarked]
    exact readProduct_render wellFormed.product.1 wellFormed.product.2.1 told
  | some forge =>
    obtain ⟨someForge, unmarked, _⟩ := wellFormed.forge forge rfl
    rw [render_forge, cut_append unmarked]
    simp only [List.isEmpty_iff, someForge, if_false]
    exact readProduct_render wellFormed.product.1 wellFormed.product.2.1 told

/-- Whatever is read behind the forge is a product and a version. -/
theorem of_readProduct {forge : Option (List Char)} {text : List Char} {a : Authority}
    (ok : read.readProduct forge text = .ok a) :
    a.forge = forge ∧ renderProduct a.product a.version = text ∧ a.product ≠ [] ∧
      '$' ∉ a.product ∧ ∀ version, a.version = some version → version ≠ [] := by
  unfold read.readProduct at ok
  split at ok <;> rename_i split_off
  · obtain ⟨rfl, unmarked⟩ := cut_eq_some_iff.1 split_off
    split at ok
    · cases ok
    · split at ok
      · cases ok
      · cases ok
        simp_all [renderProduct, render]
  · obtain ⟨rfl, unmarked⟩ := cut_eq_none_iff.1 split_off
    split at ok
    · cases ok
    · cases ok
      simp_all [renderProduct, render]

theorem of_read {text : List Char} (oneSegment : '/' ∉ text) {a : Authority}
    (ok : read text = .ok a) : a.WellFormed ∧ a.render = text := by
  unfold read at ok
  split at ok
  · cases ok
  split at ok <;> rename_i split_off
  · obtain ⟨rfl, unmarked⟩ := cut_eq_some_iff.1 split_off
    split at ok <;> rename_i someForge
    · cases ok
    obtain ⟨forge, rendered, named, undivided, told⟩ := of_readProduct ok
    obtain ⟨_, product, version⟩ := a
    cases forge
    subst rendered
    rw [List.mem_append, List.mem_cons, mem_renderProduct] at oneSegment
    simp only [not_or, not_exists, not_and] at oneSegment
    obtain ⟨forgeFree, _, productFree, versionFree⟩ := oneSegment
    refine ⟨⟨?_, ⟨named, undivided, productFree⟩, ?_, ?_⟩, render_forge _ _ _⟩
    · rintro forge ⟨⟩
      exact ⟨by simpa using someForge, unmarked, forgeFree⟩
    · intro version held
      exact ⟨told version held, (versionFree version held).2⟩
    · rintro ⟨⟩
  · obtain ⟨rfl, unmarked⟩ := cut_eq_none_iff.1 split_off
    obtain ⟨forge, rendered, named, undivided, told⟩ := of_readProduct ok
    obtain ⟨_, product, version⟩ := a
    cases forge
    subst rendered
    rw [mem_renderProduct] at oneSegment unmarked
    simp only [not_or, not_exists, not_and] at oneSegment unmarked
    obtain ⟨productFree, versionFree⟩ := oneSegment
    refine ⟨⟨?_, ⟨named, undivided, productFree⟩, ?_, ?_⟩, rfl⟩
    · rintro forge ⟨⟩
    · intro version held
      exact ⟨told version held, (versionFree version held).2⟩
    · intro _
      exact ⟨unmarked.1, fun version held => (unmarked.2 version held).2⟩

theorem WellFormed.oneSegment {a : Authority} (wellFormed : a.WellFormed) : '/' ∉ a.render := by
  rw [mem_render]
  rintro (⟨forge, held, mem | same⟩ | mem | ⟨version, held, same | mem⟩)
  · exact (wellFormed.forge forge held).2.2 mem
  · cases same
  · exact wellFormed.product.2.2 mem
  · cases same
  · exact (wellFormed.version version held).2 mem

end Authority

/-! ### Paths -/

namespace Path

theorem read_eq_ok_iff {text : List Char} {p : Path} :
    read text = .ok p ↔ p.WellFormed ∧ p.render = '/' :: text := by
  obtain ⟨package, entity⟩ := p
  constructor
  · intro ok
    unfold read at ok
    split at ok <;> rename_i split_off
    · obtain ⟨rfl, single⟩ := cut_eq_none_iff.1 split_off
      split at ok <;> rename_i named
      · cases ok
      cases ok
      exact ⟨⟨⟨by simpa using named, single⟩, by simp⟩, by simp [render]⟩
    · obtain ⟨rfl, single⟩ := cut_eq_some_iff.1 split_off
      split at ok <;> rename_i named
      · cases ok
      split at ok <;> rename_i told
      · cases ok
      cases ok
      exact ⟨⟨⟨by simpa using named, single⟩, by simpa using told⟩, by simp [render]⟩
  · rintro ⟨wellFormed, rendered⟩
    obtain ⟨named, single⟩ := wellFormed.package
    cases entity with
    | none =>
      have written : package = text := by simpa [render] using rendered
      subst written
      rw [read, cut_of_not_mem single]
      simpa using named
    | some entity =>
      have written : package ++ '/' :: entity = text := by simpa [render] using rendered
      subst written
      rw [read, cut_append single]
      have told := wellFormed.entity entity rfl
      simp_all

end Path

/-! ### Whole URIs -/

/-- No blank and no control character. -/
def Plain (text : List Char) : Prop := ∀ c ∈ text, isBlank c = false ∧ isControl c = false

theorem plain_iff {text : List Char} :
    Plain text ↔ (text.any fun c => isBlank c || isControl c) = false := by
  simp [Plain]

instance (text : List Char) : Decidable (Plain text) := decidable_of_iff _ plain_iff.symm

namespace Parts

/-- What follows an authority. -/
def renderPath (path : Option Path) : List Char := (path.map Path.render).getD []

theorem render_located (scheme : Option (List Char)) (authority : Authority)
    (path : Option Path) :
    render (.located scheme authority path) =
      (scheme.map fun scheme => scheme ++ [':']).getD [] ++
        '/' :: '/' :: (authority.render ++ renderPath path) := by
  cases scheme <;> cases path <;> simp [render, base, path?, renderPath]

/-- Up to its first slash a text is an authority, and from there on a path. -/
theorem exists_split (text : List Char) :
    ∃ first rest, text.takeWhile (· ≠ '/') = first ∧ text.dropWhile (· ≠ '/') = rest ∧
      first ++ rest = text ∧ '/' ∉ first ∧ (rest = [] ∨ ∃ path, rest = '/' :: path) := by
  have oneSegment : '/' ∉ text.takeWhile (· ≠ '/') := fun mem => by
    simpa using List.mem_takeWhile_imp mem
  have behind := List.head?_dropWhile_not (· ≠ '/') text
  refine ⟨_, _, rfl, rfl, List.takeWhile_append_dropWhile, oneSegment, ?_⟩
  cases rest : text.dropWhile (· ≠ '/') with
  | nil => exact .inl rfl
  | cons slash path =>
    rw [rest] at behind
    have slashed : slash = '/' := by simpa using behind
    exact .inr ⟨path, slashed ▸ rfl⟩

theorem of_readLocated {scheme : Option (List Char)} {text : List Char} {p : Parts}
    (ok : readLocated scheme text = .ok p) :
    ∃ authority path, p = .located scheme authority path ∧ authority.WellFormed ∧
      (∀ part, path = some part → part.WellFormed) ∧
      authority.render ++ renderPath path = text := by
  obtain ⟨first, rest, taken, dropped, whole, oneSegment, behind⟩ := exists_split text
  rw [readLocated, taken, dropped] at ok
  cases readFirst : Authority.read first with
  | error flaw =>
    rw [readFirst] at ok
    cases ok
  | ok authority =>
    rw [readFirst] at ok
    obtain ⟨wellFormed, rendered⟩ := Authority.of_read oneSegment readFirst
    rcases behind with rfl | ⟨path, rfl⟩
    · cases ok
      exact ⟨authority, none, rfl, wellFormed, by simp, by simp [renderPath, rendered, whole]⟩
    · cases readPath : Path.read path with
      | error flaw =>
        simp only [readPath] at ok
        cases ok
      | ok part =>
        simp only [readPath] at ok
        cases ok
        obtain ⟨pathFormed, pathRendered⟩ := Path.read_eq_ok_iff.1 readPath
        refine ⟨authority, some part, rfl, wellFormed, by simpa using pathFormed, ?_⟩
        simp [renderPath, rendered, pathRendered, whole]

theorem readLocated_render {authority : Authority} {path : Option Path}
    (wellFormed : authority.WellFormed) (pathFormed : ∀ part, path = some part → part.WellFormed)
    (scheme : Option (List Char)) :
    readLocated scheme (authority.render ++ renderPath path) =
      .ok (.located scheme authority path) := by
  have inFirst : ∀ c ∈ authority.render, decide (c ≠ '/') = true := by
    intro c mem
    have apart : c ≠ '/' := fun same => wellFormed.oneSegment (same ▸ mem)
    simpa using apart
  rw [readLocated, List.takeWhile_append_of_pos inFirst, List.dropWhile_append_of_pos inFirst]
  cases path with
  | none =>
    simp only [renderPath, Option.map_none, Option.getD_none, List.takeWhile_nil,
      List.dropWhile_nil, List.append_nil, Authority.read_render wellFormed]
    rfl
  | some part =>
    have partFormed := pathFormed part rfl
    obtain ⟨rest, rendered⟩ : ∃ rest, part.render = '/' :: rest := ⟨_, rfl⟩
    have readPath := Path.read_eq_ok_iff.2 ⟨partFormed, rendered⟩
    simp only [renderPath, Option.map_some, Option.getD_some, rendered,
      List.takeWhile_cons, List.dropWhile_cons, ne_eq, not_true_eq_false, decide_false,
      Bool.false_eq_true, if_false, List.append_nil, Authority.read_render wellFormed]
    rw [readPath]
    rfl

/-- What is read is well formed and is rendered as the text again. -/
theorem of_read {text : List Char} {p : Parts} (ok : read text = .ok p) :
    Plain text ∧ p.WellFormed ∧ p.render = text := by
  unfold read at ok
  split at ok
  · cases ok
  split at ok <;> rename_i plain
  · cases ok
  refine ⟨plain_iff.2 (by simpa using plain), ?_⟩
  -- The four forms of a URI, told apart by the first characters.
  split at ok
  · obtain ⟨authority, path, rfl, authorityFormed, pathFormed, rfl⟩ := of_readLocated ok
    refine ⟨⟨by rintro _ ⟨⟩, ?_, pathFormed⟩, render_located none authority path⟩
    rintro _ ⟨⟩
    exact authorityFormed
  · rename_i rest _ _
    cases readPath : Path.read rest with
    | error flaw =>
      rw [readPath] at ok
      cases ok
    | ok path =>
      rw [readPath] at ok
      cases ok
      obtain ⟨pathFormed, rendered⟩ := Path.read_eq_ok_iff.1 readPath
      refine ⟨⟨by rintro _ ⟨⟩, by rintro _ ⟨⟩, ?_⟩, rendered⟩
      rintro _ ⟨⟩
      exact pathFormed
  · split at ok <;> rename_i split_off
    · cases ok
    split at ok <;> rename_i named
    · cases ok
    split at ok
    · obtain ⟨rfl, _⟩ := cut_eq_some_iff.1 split_off
      obtain ⟨authority, path, rfl, authorityFormed, pathFormed, rfl⟩ :=
        of_readLocated ok
      refine ⟨⟨?_, ?_, pathFormed⟩, by simp [render_located]⟩
      · rintro _ ⟨⟩
        simpa using named
      · rintro _ ⟨⟩
        exact authorityFormed
    · cases ok

theorem isSchemeChar_of_mem {scheme : List Char} (named : isScheme scheme = true) {c : Char}
    (mem : c ∈ scheme) : isSchemeChar c = true := by
  cases scheme with
  | nil => cases mem
  | cons first rest =>
    simp only [isScheme, Bool.and_eq_true] at named
    rcases List.mem_cons.1 mem with rfl | mem
    · simp [isSchemeChar, Char.isAlphanum, named.1]
    · exact List.all_eq_true.1 named.2 c mem

/-- A path does not begin like an authority. -/
theorem render_path_ne {path : Path} (wellFormed : path.WellFormed) (rest : List Char) :
    path.render ≠ '/' :: '/' :: rest := by
  intro rendered
  obtain ⟨named, undivided⟩ := wellFormed.package
  cases package : path.package with
  | nil => exact named package
  | cons c more =>
    rw [package] at undivided
    rw [Path.render, package] at rendered
    simp only [List.cons_append, List.cons.injEq, true_and] at rendered
    exact undivided (rendered.1 ▸ List.mem_cons_self)

theorem read_local {path : Path} (wellFormed : path.WellFormed) (plain : Plain path.render) :
    read path.render = .ok (.local path) := by
  have noBlank := plain_iff.1 plain
  obtain ⟨rest, rendered⟩ : ∃ rest, path.render = '/' :: rest := ⟨_, rfl⟩
  have readPath := Path.read_eq_ok_iff.2 ⟨wellFormed, rendered⟩
  have noAuthority := render_path_ne wellFormed
  rw [rendered] at noBlank noAuthority ⊢
  unfold read
  rw [if_neg (by simp), if_neg (Bool.eq_false_iff.1 noBlank)]
  split <;> rename_i same
  · exact absurd same (noAuthority _)
  · cases same
    rw [readPath]
    rfl
  · exact absurd rfl (same rest)

/-- Behind a scheme an authority is read. -/
theorem read_scheme {scheme rest : List Char} (named : isScheme scheme = true)
    (plain : Plain (scheme ++ ':' :: '/' :: '/' :: rest)) :
    read (scheme ++ ':' :: '/' :: '/' :: rest) = readLocated (some scheme) rest := by
  have noBlank := plain_iff.1 plain
  have noColon : ':' ∉ scheme := fun mem => by cases isSchemeChar_of_mem named mem
  have noSlash : '/' ∉ scheme := fun mem => by cases isSchemeChar_of_mem named mem
  obtain ⟨first, more, rfl⟩ : ∃ first more, scheme = first :: more := by
    cases scheme with
    | nil => cases named
    | cons first more => exact ⟨first, more, rfl⟩
  have noPath : first ≠ '/' := fun same => noSlash (same ▸ List.mem_cons_self)
  unfold read
  rw [if_neg (by simp), if_neg (Bool.eq_false_iff.1 noBlank)]
  split <;> rename_i same
  · exact absurd (List.cons.inj same).1 noPath
  · exact absurd (List.cons.inj same).1 noPath
  · rw [cut_append noColon]
    simp only [named, Bool.not_true, Bool.false_eq_true, if_false]

theorem read_render {p : Parts} (wellFormed : p.WellFormed) (plain : Plain p.render) :
    read p.render = .ok p := by
  cases p with
  | «local» path => exact read_local (wellFormed.path path rfl) plain
  | located scheme authority path =>
    have readBack :=
      readLocated_render (wellFormed.authority authority rfl) wellFormed.path scheme
    rw [render_located] at plain ⊢
    cases scheme with
    | none =>
      simp only [Option.map_none, Option.getD_none, List.nil_append] at plain ⊢
      rw [read, if_neg (by simp), if_neg (Bool.eq_false_iff.1 (plain_iff.1 plain))]
      exact readBack
    | some scheme =>
      simp only [Option.map_some, Option.getD_some, List.append_assoc, List.singleton_append]
        at plain ⊢
      rw [read_scheme (wellFormed.scheme scheme rfl) plain]
      exact readBack

/-- A text is read as parts exactly if it is their rendering. -/
theorem read_eq_ok_iff {text : List Char} {p : Parts} :
    read text = .ok p ↔ Plain text ∧ p.WellFormed ∧ p.render = text := by
  constructor
  · exact of_read
  · rintro ⟨plain, wellFormed, rfl⟩
    exact read_render wellFormed plain

end Parts

end Uri

end RevisionGraph
