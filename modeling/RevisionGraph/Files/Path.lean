import RevisionGraph.Text.Search

/-!
# Paths of files

A path is a text of names with slashes between them. `Path.names` are the names that lead to a place
one after the other, `Path.parent?` is the path of the folder that a path lies in. A parent is
shorter (`length_lt_of_parent?`), and `Path.lineage` are all folders that a path lies in.
-/

namespace RevisionGraph

namespace Path

/-- The number of bytes that a path has at most. -/
def longest : Nat := 4095

/-- The number of bytes that a name in a path has at most. -/
def longestName : Nat := 255

def startsAtRoot (path : String) : Bool := path.toList.head? == some '/'

/-- The names between the slashes. Two slashes side by side have an empty name between them, which
leads nowhere else, and so has a slash at either end. -/
def names (path : String) : List String := (pieces '/' path.toList).map String.ofList

/-- Drops slashes, and names `.` behind a slash, from the front of a reversed path. -/
def dropTrailing : List Char → List Char
  | '/' :: rest => dropTrailing rest
  | ['.'] => ['.']
  | '.' :: '/' :: rest => dropTrailing rest
  | path => path

/-- The path without its last name, if it has one. -/
def parent? (path : String) : Option String :=
  let reversed := dropTrailing path.toList.reverse
  if reversed.isEmpty then none
  else
    let front := reversed.dropWhile (· ≠ '/')
    let parent := dropTrailing front
    if parent.isEmpty ∧ !front.isEmpty then some "/" else some (String.ofList parent.reverse)

theorem length_dropTrailing_le (cs : List Char) : (dropTrailing cs).length ≤ cs.length := by
  fun_induction dropTrailing cs with
  | case1 rest ih => simp only [List.length_cons]; omega
  | case2 => simp
  | case3 rest ih => simp only [List.length_cons]; omega
  | case4 => simp

theorem head?_dropTrailing (cs : List Char) : (dropTrailing cs).head? ≠ some '/' := by
  fun_induction dropTrailing cs with
  | case1 rest ih => exact ih
  | case2 => simp
  | case3 rest ih => exact ih
  | case4 cs h₁ =>
    cases cs with
    | nil => simp
    | cons c rest =>
      intro h
      simp only [List.head?_cons, Option.some.injEq] at h
      exact h₁ rest (h ▸ rfl)

/-- A parent is shorter, so that going from parent to parent comes to an end. -/
theorem length_lt_of_parent? {path parent : String} (h : parent? path = some parent) :
    parent.length < path.length := by
  unfold parent? at h
  generalize hr : dropTrailing path.toList.reverse = reversed at h
  have bound : reversed.length ≤ path.length := by
    simpa [hr, String.length_toList] using length_dropTrailing_le path.toList.reverse
  have first : reversed.head? ≠ some '/' := hr ▸ head?_dropTrailing _
  cases reversed with
  | nil => simp at h
  | cons c rest =>
    have front : ((c :: rest).dropWhile (· ≠ '/')).length ≤ rest.length := by
      have hc : c ≠ '/' := by simpa using first
      simpa [hc] using (List.dropWhile_sublist (l := rest) (· ≠ '/')).length_le
    have inner := length_dropTrailing_le ((c :: rest).dropWhile (· ≠ '/'))
    simp only [List.length_cons] at bound
    simp only [List.isEmpty_cons, Bool.false_eq_true, ↓reduceIte] at h
    split at h
    · next hp =>
      obtain rfl := Option.some.inj h
      have : 0 < ((c :: rest).dropWhile (· ≠ '/')).length :=
        List.length_pos_iff.mpr (by simpa using hp.2)
      have : "/".length = 1 := rfl
      omega
    · obtain rfl := Option.some.inj h
      simp only [String.length_ofList, List.length_reverse]
      omega

/-- A path and all folders that it lies in, the innermost first. -/
def lineage (path : String) : List String :=
  match _h : parent? path with
  | some parent => path :: lineage parent
  | none => [path]
termination_by path.length
decreasing_by exact length_lt_of_parent? _h

end Path

end RevisionGraph
