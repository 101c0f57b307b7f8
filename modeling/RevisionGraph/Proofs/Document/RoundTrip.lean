import RevisionGraph.Proofs.Document.Calls
import RevisionGraph.Proofs.Revision.Reachable

/-!
# Documents read back

Whatever revision can be made and edited, its document is decoded to the revision itself.
-/

namespace RevisionGraph.Document

theorem decodeTimestamp_known? (t : Timestamp) :
    decodeTimestamp (t.known?.map Json.Value.int) =
      (t.seconds, if t.seconds = -1 then [.missingTimestamp] else []) := by
  rw [Timestamp.known?_eq]
  split <;> rename_i unknown
  · rw [unknown]
    rfl
  · simp only [Option.map_some, decodeTimestamp, Json.Value.int, Json.Value.whole,
      Json.Whole.toInt64?_ofInt64]

theorem decode_ofRevision_of_sound {r : Revision} (sound : r.Sound) :
    (ofRevision r).decode =
      .ok ⟨r, if r.timestamp.seconds = -1 then [.missingTimestamp] else []⟩ := by
  have hierarchy := decodeHierarchy_ofHierarchy sound.built
  have calls := decodeCallGraph_ofCallGraph r.calls
  have time := decodeTimestamp_known? r.timestamp
  have made : Revision.new r.coordinates.forge r.coordinates.product r.coordinates.version
      r.timestamp.seconds r.nodeCount r.generator r.hierarchy r.calls = .ok r := by
    apply Revision.new_eq_ok_iff.2
    refine ⟨sound.forge, sound.product, sound.version, r.generator_ne_empty, r.coordinates,
      Coordinates.of_eq_ok_iff.2 ⟨rfl, rfl, rfl⟩, ?_⟩
    rw [Timestamp.ofInt64_seconds]
  unfold decode ofRevision require
  simp only [ok_bind, hierarchy, calls, time, made]
  rfl

/-- Every reachable revision reads back from its document as it is, with a warning if its time is
not known. -/
theorem decode_ofRevision {r : Revision} (reachable : r.Reachable) :
    (ofRevision r).decode =
      .ok ⟨r, if r.timestamp.seconds = -1 then [.missingTimestamp] else []⟩ :=
  decode_ofRevision_of_sound reachable.sound

theorem decode_ofRevision_assembled :
    ∃ r : Revision, r.Reachable ∧ r.calls.resolved.contains ⟨10, 9⟩ ∧
      (ofRevision r).decode =
        .ok ⟨r, if r.timestamp.seconds = -1 then [.missingTimestamp] else []⟩ := by
  let facts : Facts :=
    ⟨"mvn", "app", "1.0", "test", none, [⟨"/app/Main", "Main.java", [], [], "public", true⟩],
      [⟨"/app/Main.main()V", ∅⟩], [⟨"/app/Main.main()V", "/lib/List.add()V", 10, "static", ∅⟩]⟩
  have assembles : facts.assemble.isOk := by decide +kernel
  obtain ⟨r, assembled⟩ := exists_eq_ok_of_isOk assembles
  have reachable :=
    (Revision.Reachable.assembled assembled).editCalls (.addSites .resolved ⟨10, 9⟩ ∅)
  refine ⟨_, reachable, ?_, decode_ofRevision reachable⟩
  rw [SortedMap.contains_iff]
  exact ⟨_, (CallGraph.sites?_addSites r.calls .resolved ⟨10, 9⟩ ∅ .resolved ⟨10, 9⟩).trans
    (if_pos ⟨rfl, rfl⟩)⟩

end RevisionGraph.Document
