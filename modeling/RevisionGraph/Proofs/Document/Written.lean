import RevisionGraph.Files.Export
import RevisionGraph.Proofs.Document.Levels
import RevisionGraph.Proofs.Document.RoundTrip

/-!
# Texts of revisions

A revision is read back from its text, compact or pretty, if what is noted in it is shallow: if
nothing that is noted is nested so deep that the levels of the document above it exceed the limit of
the reader (`Revision.parse_render`).
-/

namespace RevisionGraph

open Json

theorem Runes.ofBytes_toUTF8 (text : String) : ofBytes text.toUTF8 = ofString text := by
  unfold ofBytes
  rw [fromUTF8?_toUTF8]

namespace Document

theorem sorted_ofType {t : TypeDecl} (noted : t.methods.Noted Value.IsSorted) :
    (TypeEntry.ofType t).Noted Value.IsSorted := by
  rintro methods ⟨⟩
  refine SortedMap.allValues_ofList (List.forall_mem_map.2 fun row mem => ?_)
  rintro metadata ⟨⟩
  exact noted row mem

theorem sorted_encodeTypes {types : TypeMap}
    (noted : types.AllValues fun type => type.methods.Noted Value.IsSorted) :
    (encodeTypes types).AllValues (TypeEntry.Noted Value.IsSorted) :=
  SortedMap.allValues_ofList
    (List.forall_mem_map.2 fun entry mem => sorted_ofType (noted entry mem))

theorem sorted_encodeCalls {calls : CallMap}
    (noted : calls.AllValues fun sites => sites.Noted Value.IsSorted) :
    ∀ entry ∈ encodeCalls calls, entry.Noted Value.IsSorted := by
  refine List.forall_mem_map.2 fun entry mem => ?_
  exact SortedMap.allValues_ofList (List.forall_mem_map.2 (noted entry mem))

theorem sorted_ofRevision {r : Revision} (noted : r.Noted Value.IsSorted Value.IsSorted) :
    (ofRevision r).Sorted := by
  have types := Hierarchy.noted_iff.1 noted.1
  have calls := CallGraph.noted_iff.1 noted.2
  constructor
  · intro v held
    obtain ⟨seconds, _, rfl⟩ := Option.map_eq_some_iff.1 held
    exact ⟨.number _, by simp [Value.int, Value.whole, Value.tree]⟩
  · rintro t held entries mem
    cases held
    simp only [Types.ofHierarchy, List.mem_cons, Option.some.injEq, List.not_mem_nil,
      or_false] at mem
    rcases mem with rfl | rfl | rfl
    · exact sorted_encodeTypes (types .internal)
    · exact sorted_encodeTypes (types .external)
    · exact sorted_encodeTypes (types .resolved)
  · rintro c held entries mem
    cases held
    simp only [Calls.ofCallGraph, List.mem_cons, Option.some.injEq, List.not_mem_nil,
      or_false] at mem
    rcases mem with rfl | rfl | rfl
    · exact sorted_encodeCalls (calls .internal)
    · exact sorted_encodeCalls (calls .external)
    · exact sorted_encodeCalls (calls .resolved)

end Document

namespace Revision

variable {r : Revision}

/-- Nothing is noted that is nested deeper than the reader goes below the levels above it. -/
def Shallow (r : Revision) : Prop :=
  r.Noted (fun v => v.nesting ≤ Tree.nestingLimit - 7) (fun v => v.nesting ≤ Tree.nestingLimit - 6)

theorem shallow_iff : r.Shallow ↔ (Document.ofRevision r).value.nesting ≤ Tree.nestingLimit :=
  (Document.hereditary_ofRevision Value.hereditary_nesting).symm

instance (r : Revision) : Decidable r.Shallow := decidable_of_iff _ shallow_iff.symm

/-- No number with a fraction or an exponent is noted. -/
def Floatless (r : Revision) : Prop :=
  r.Noted (fun v => v.floatless = true) (fun v => v.floatless = true)

theorem floatless_iff : r.Floatless ↔ (Document.ofRevision r).value.floatless = true := by
  have everywhere := @Document.hereditary_ofRevision _ Value.hereditary_floatless 0 r
  exact everywhere.symm

instance (r : Revision) : Decidable r.Floatless := decidable_of_iff _ floatless_iff.symm

theorem parse_document (sorted : r.Noted Value.IsSorted Value.IsSorted) (floatless : r.Floatless)
    (pretty : Bool) :
    Document.parse (Runes.ofString ((Format.json pretty).render r)) =
      if (Document.ofRevision r).value.nesting ≤ Tree.nestingLimit then
        some (Document.ofRevision r)
      else none := by
  have members := Document.sorted_ofRevision sorted
  have whole := floatless_iff.1 floatless
  cases pretty with
  | false => exact Document.parse_compact members whole
  | true => exact Document.parse_pretty members whole

/-- What the reader notices about the text of a revision. -/
def warnings (r : Revision) : List Warning :=
  if r.timestamp.seconds = -1 then [.missingTimestamp] else []

theorem parse_render_of_shallow (reachable : r.Reachable)
    (sorted : r.Noted Value.IsSorted Value.IsSorted) (floatless : r.Floatless)
    (shallow : r.Shallow) (pretty : Bool) :
    Decoded.parse (Runes.ofString ((Format.json pretty).render r)) = .ok ⟨r, r.warnings⟩ := by
  unfold Decoded.parse
  rw [parse_document sorted floatless, if_pos (shallow_iff.1 shallow)]
  dsimp only
  rw [Document.decode_ofRevision_of_sound reachable.sound]
  rfl

theorem parse_render_of_not_shallow (sorted : r.Noted Value.IsSorted Value.IsSorted)
    (floatless : r.Floatless) (deep : ¬ r.Shallow) (pretty : Bool) :
    Decoded.parse (Runes.ofString ((Format.json pretty).render r)) = .error ⟨[], .json⟩ := by
  unfold Decoded.parse
  rw [parse_document sorted floatless, if_neg fun low => deep (shallow_iff.2 low)]

end Revision

end RevisionGraph
