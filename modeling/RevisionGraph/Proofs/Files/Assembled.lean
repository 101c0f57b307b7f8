import RevisionGraph.Proofs.Assembly.Written
import RevisionGraph.Proofs.Document.Written

/-!
# Reading what was assembled

A document nests what is noted deeper than the facts do that it comes from: about a method by three
levels, about a call by two. So facts can be read whose revision is assembled and written, but whose
document is not read any more; it is read back just if nothing in it is noted too deep
(`Files.readRevision_assembled`).
-/

namespace RevisionGraph

open Json

namespace Facts

/-- No number with a fraction or an exponent is noted. -/
def Floatless (f : Facts) : Prop :=
  f.Noted (fun v => v.floatless = true) (fun v => v.floatless = true)

/-- Nothing is noted that would stand too deep in a document. -/
def Shallow (f : Facts) : Prop :=
  f.Noted (fun v => v.nesting ≤ Tree.nestingLimit - 7) (fun v => v.nesting ≤ Tree.nestingLimit - 6)

instance (f : Facts) : Decidable f.Floatless := inferInstanceAs (Decidable (f.Noted _ _))

instance (f : Facts) : Decidable f.Shallow := inferInstanceAs (Decidable (f.Noted _ _))

end Facts

namespace Files

theorem parse_of_readFacts {files : Files} {path : String} {f : Facts}
    (read : files.readFacts path = .ok f) : ∃ runes, Facts.parse runes = some f := by
  obtain ⟨bytes, _, read⟩ := bind_eq_ok_iff.1 read
  have parsed := during_eq_ok_iff.1 read
  refine ⟨Runes.ofBytes bytes, ?_⟩
  unfold Facts.ofText at parsed
  split at parsed <;> rename_i parse
  · cases parsed
    exact parse
  · cases parsed

theorem readFacts_of_load {files : Files} {path text : String}
    (held : files.load path = .ok text.toUTF8) :
    files.readFacts path =
      during ("Invalid facts document: " ++ path) (Facts.ofText (Runes.ofString text)) := by
  unfold readFacts
  rw [held, ok_bind, Runes.ofBytes_toUTF8]

theorem readRevision_of_load {files : Files} {path text : String}
    (held : files.load path = .ok text.toUTF8) :
    files.readRevision path =
      during ("Invalid revision call graph: " ++ path) (Decoded.parse (Runes.ofString text)) := by
  unfold readRevision
  rw [held, ok_bind, Runes.ofBytes_toUTF8]

theorem noted_of_readFacts {files : Files} {path : String} {f : Facts} {r : Revision}
    (read : files.readFacts path = .ok f) (floatless : f.Floatless)
    (assembled : f.assemble = .ok r) : r.Noted Value.IsSorted Value.IsSorted ∧ r.Floatless := by
  obtain ⟨runes, parsed⟩ := parse_of_readFacts read
  exact ⟨Revision.noted_of_assemble (Facts.noted_of_parse parsed) .text assembled,
    Revision.noted_of_assemble floatless (fun _ => rfl) assembled⟩

theorem readRevision_of_not_shallow {input output : Files} {source target : String} {f : Facts}
    {r : Revision} {pretty : Bool} (read : input.readFacts source = .ok f)
    (floatless : f.Floatless) (assembled : f.assemble = .ok r)
    (held : output.load target = .ok ((Format.json pretty).render r).toUTF8)
    (deep : ¬ r.Shallow) :
    output.readRevision target = .error ⟨["Invalid revision call graph: " ++ target], .json⟩ := by
  obtain ⟨sorted, plain⟩ := noted_of_readFacts read floatless assembled
  rw [readRevision_of_load held, Revision.parse_render_of_not_shallow sorted plain deep]
  rfl

/-- What is assembled from a facts file and written is read back if nothing in it is noted too deep,
and refused if something is. What shallow facts describe is always read back. -/
theorem readRevision_assembled {input output : Files} {source target : String} {f : Facts}
    {r : Revision} {pretty : Bool} (read : input.readFacts source = .ok f)
    (floatless : f.Floatless) (assembled : f.assemble = .ok r)
    (held : output.load target = .ok ((Format.json pretty).render r).toUTF8) :
    (r.Shallow → output.readRevision target = .ok ⟨r, r.warnings⟩) ∧
      (¬ r.Shallow →
        output.readRevision target = .error ⟨["Invalid revision call graph: " ++ target], .json⟩) ∧
      (f.Shallow → r.Shallow) := by
  obtain ⟨sorted, plain⟩ := noted_of_readFacts read floatless assembled
  refine ⟨fun shallow => ?_, readRevision_of_not_shallow read floatless assembled held,
    fun shallow => ?_⟩
  · rw [readRevision_of_load held,
      Revision.parse_render_of_shallow (.assembled assembled) sorted plain shallow]
    rfl
  · exact Revision.noted_of_assemble shallow (fun _ => Nat.zero_le _) assembled

/-! ### Facts about one method -/

/-- Files of which the only one lies in the working folder. -/
def single (bytes : ByteArray) : Files := ⟨SortedMap.empty.insert "app.json" bytes, ∅⟩

theorem load_single (bytes : ByteArray) : (single bytes).load "app.json" = .ok bytes := by
  have start : Location.start "app.json" = ⟨.above 0, []⟩ := by decide +kernel
  have names : Path.names "app.json" = ["app.json"] := by decide +kernel
  have entered : Location.enter ⟨.above 0, []⟩ "app.json" = ⟨.above 0, ["app.json"]⟩ := by
    decide +kernel
  have noFile : (single bytes).isFile ⟨.above 0, []⟩ = false := by
    have elsewhere : Location.key ⟨.above 0, []⟩ ≠ "app.json" := by decide +kernel
    unfold isFile single SortedMap.contains
    rw [SortedMap.get?_insert, if_neg elsewhere]
    rfl
  have located : (single bytes).locate "app.json" = .ok ⟨.above 0, ["app.json"]⟩ := by
    have short : ¬ Path.longestName < "app.json".utf8ByteSize := by decide +kernel
    unfold locate
    rw [if_neg (by decide +kernel), if_neg (by decide +kernel), if_neg (by decide +kernel), names,
      start]
    simp [step, noFile, isFolder, entered, short]
  have held : (single bytes).contents.get? (Location.key ⟨.above 0, ["app.json"]⟩) =
      some bytes := by
    have key : Location.key ⟨.above 0, ["app.json"]⟩ = "app.json" := by decide +kernel
    rw [single, SortedMap.get?_insert, if_pos key]
  have fetched : (single bytes).fetch "app.json" = .ok bytes := by
    unfold fetch
    rw [located, ok_bind, held]
    rfl
  unfold load
  rw [fetched]

theorem readFacts_single {f : Facts} (sorted : f.Noted Value.IsSorted Value.IsSorted)
    (floatless : f.value.floatless = true) (low : f.value.nesting ≤ Tree.nestingLimit) :
    (single f.value.compact.toUTF8).readFacts "app.json" = .ok f := by
  rw [readFacts_of_load (load_single _), Facts.ofText, Facts.parse_compact sorted floatless,
    if_pos low]
  rfl

/-- Arrays in arrays, `n + 1` of them. -/
def nested : Nat → Value
  | 0 => .array []
  | n + 1 => .array [nested n]

theorem isSorted_nested (n : Nat) : (nested n).IsSorted := by
  induction n with
  | zero => exact .array .nil
  | succ n ih => exact .array (.cons ih .nil)

/-- A method about which nested arrays are noted. -/
def nestedFacts (n : Nat) : Facts :=
  ⟨"mvn", "app", "1.0", "test", none, [],
    [⟨"/app/Main.main()V", SortedMap.empty.insert "lines" (nested n)⟩], []⟩

theorem noted_nestedFacts (n : Nat) : (nestedFacts n).Noted Value.IsSorted Value.IsSorted := by
  refine ⟨fun fact mem => ?_, by simp [nestedFacts]⟩
  obtain rfl := List.mem_singleton.1 mem
  exact SortedMap.allValues_empty.insert "lines" (isSorted_nested n)

theorem readRevision_assembled_nested :
    ∃ (input output : Files) (f : Facts) (r : Revision),
      input.readFacts "app.json" = .ok f ∧ f.Floatless ∧ f.assemble = .ok r ∧
        output.load "app.json" = .ok ((Format.json true).render r).toUTF8 ∧
        output.readRevision "app.json" = .ok ⟨r, r.warnings⟩ := by
  have read := readFacts_single (noted_nestedFacts 119) (by decide +kernel) (by decide +kernel)
  have floatless : (nestedFacts 119).Floatless := by decide +kernel
  have shallow : (nestedFacts 119).Shallow := by decide +kernel
  have assembles : (nestedFacts 119).assemble.isOk := by decide +kernel
  obtain ⟨r, assembled⟩ := exists_eq_ok_of_isOk assembles
  have held := load_single ((Format.json true).render r).toUTF8
  obtain ⟨readBack, _, low⟩ := readRevision_assembled read floatless assembled held
  exact ⟨_, _, _, r, read, floatless, assembled, held, readBack (low shallow)⟩

/-- One array more, and the document is written but not read. -/
theorem not_readRevision_assembled :
    ¬ ∀ (input output : Files) (source target : String) (f : Facts) (r : Revision) (pretty : Bool),
      input.readFacts source = .ok f → f.Floatless → f.assemble = .ok r →
        output.load target = .ok ((Format.json pretty).render r).toUTF8 →
          ∃ warnings, output.readRevision target = .ok ⟨r, warnings⟩ := by
  intro always
  have read := readFacts_single (noted_nestedFacts 120) (by decide +kernel) (by decide +kernel)
  have floatless : (nestedFacts 120).Floatless := by decide +kernel
  obtain ⟨r, made, deep⟩ : ∃ r ∈ (nestedFacts 120).assemble.toOption, ¬ r.Shallow := by
    decide +kernel
  cases assembled : (nestedFacts 120).assemble with
  | error failure =>
    rw [assembled] at made
    cases made
  | ok r' =>
    rw [assembled] at made
    cases made
    have held := load_single ((Format.json true).render r).toUTF8
    obtain ⟨warnings, readBack⟩ := always _ _ _ _ _ r true read floatless assembled held
    rw [readRevision_of_not_shallow read floatless assembled held deep] at readBack
    cases readBack

end Files

end RevisionGraph
