import RevisionGraph.Error

/-!
# Entity URIs

A `Uri` is a text together with the parts that it is read as. Two URIs are equal, and ordered, as
their texts are.
-/

namespace RevisionGraph

structure Uri where
  text : String
  parts : Uri.Parts
  parts_eq : Uri.Parts.read text.toList = .ok parts

namespace Uri

theorem ext_text {u v : Uri} (h : u.text = v.text) : u = v := by
  obtain ⟨text, parts, read⟩ := u
  obtain ⟨text', parts', read'⟩ := v
  cases h
  cases read.symm.trans read'
  rfl

theorem text_injective {u v : Uri} : u.text = v.text ↔ u = v := ⟨ext_text, fun h => h ▸ rfl⟩

instance : DecidableEq Uri := fun u v => decidable_of_iff (u.text = v.text) text_injective

instance : Ord Uri := ⟨fun u v => compare u.text v.text⟩

theorem compare_eq (u v : Uri) : compare u v = compare u.text v.text := rfl

theorem compare_eq_lt_iff {u v : Uri} : compare u v = .lt ↔ u.text < v.text :=
  compareOfLessAndEq_eq_lt

instance : Std.TransOrd Uri where
  eq_swap {u v} := by
    simp only [compare_eq]
    exact Std.OrientedOrd.eq_swap
  isLE_trans {u v w} h h' := by
    simp only [compare_eq] at h h' ⊢
    exact Std.TransCmp.isLE_trans h h'

instance : Std.LawfulEqOrd Uri where
  compare_self {u} := by
    rw [compare_eq]
    exact Std.ReflOrd.compare_self
  eq_of_compare {u v} h := ext_text (Std.LawfulEqOrd.eq_of_compare (compare_eq u v ▸ h))

def parse (text : String) : Except Error Uri :=
  match h : Parts.read text.toList with
  | .ok parts => .ok ⟨text, parts, h⟩
  | .error flaw => .error (.malformedUri text flaw)

theorem text_of_parse {text : String} {u : Uri} (h : parse text = .ok u) : u.text = text := by
  unfold parse at h
  split at h
  · cases h; rfl
  · simp at h

theorem parse_text (u : Uri) : parse u.text = .ok u := by
  unfold parse
  split
  · exact congrArg _ (ext_text rfl)
  · rename_i h
    cases u.parts_eq.symm.trans h

def scheme? (u : Uri) : Option String := u.parts.scheme?.map String.ofList

def forge? (u : Uri) : Option String :=
  (u.parts.authority?.bind Authority.forge).map String.ofList

def product? (u : Uri) : Option String := u.parts.authority?.map fun a => String.ofList a.product

def version? (u : Uri) : Option String :=
  (u.parts.authority?.bind Authority.version).map String.ofList

def package? (u : Uri) : Option String := u.parts.path?.map fun p => String.ofList p.package

/-- Everything after `/package/`, such as `Lib.run(I)V`. -/
def entity? (u : Uri) : Option String := (u.parts.path?.bind Path.entity).map String.ofList

/-- The part before the path, possibly empty. -/
def base (u : Uri) : String := String.ofList u.parts.base

/-- The scheme of the URIs that are derived from coordinates. -/
def revisionScheme : String := "fasten"

/-- Whether the URI says exactly these coordinates and nothing about an entity. -/
def HasCoordinates (u : Uri) (forge : Option String) (product version : String) : Prop :=
  u.forge? = forge ∧ u.product? = some product ∧ u.version? = some version ∧ u.package? = none

instance (u : Uri) (forge : Option String) (product version : String) :
    Decidable (u.HasCoordinates forge product version) :=
  inferInstanceAs (Decidable (_ ∧ _ ∧ _ ∧ _))

def parseCoordinates (text : String) (forge : Option String) (product version : String) :
    Except Error Uri := do
  let u ← parse text
  if u.HasCoordinates forge product version then return u
  else throw (.malformedUri u.text .reservedCoordinates)

/-- `fasten://forge!product$version` -/
def revision (forge product version : String) : Except Error Uri :=
  parseCoordinates (revisionScheme ++ "://" ++ forge ++ "!" ++ product ++ "$" ++ version)
    (some forge) product version

/-- `fasten://product$version` -/
def forgeless (product version : String) : Except Error Uri :=
  parseCoordinates (revisionScheme ++ "://" ++ product ++ "$" ++ version) none product version

end Uri

end RevisionGraph
