import RevisionGraph.Proofs.Document.Calls
import RevisionGraph.Proofs.Document.Reading
import RevisionGraph.Proofs.Revision.Noted

/-!
# Levels of a document

What is noted about a method stands seven levels deep in a document and what is noted about a call
site six. Besides them a document holds nothing but texts, truth values and integers, at levels that
every document has: `Document.hereditary_ofRevision`.
-/

namespace RevisionGraph

open Json

/-! ### Properties of values by level -/

namespace Json.Value

/-- A property that a leaf has at every level and a container one level above what it holds. -/
structure Hereditary (Q : Nat → Value → Prop) : Prop where
  null : ∀ n, Q n .null
  bool : ∀ n b, Q n (.bool b)
  whole : ∀ n i, Q n (.whole i)
  text : ∀ n s, Q n (.text s)
  array : ∀ n items, Q (n + 1) (.array items) ↔ ∀ item ∈ items, Q n item
  object : ∀ n members, Q (n + 1) (.object members) ↔ ∀ member ∈ members, Q n member.2

theorem hereditary_nesting : Hereditary fun n v => v.nesting ≤ n where
  null := Nat.zero_le
  bool n _ := Nat.zero_le n
  whole n _ := Nat.zero_le n
  text n _ := Nat.zero_le n
  array _ _ := Nat.succ_le_succ_iff.trans nestingItems_le_iff
  object _ _ := Nat.succ_le_succ_iff.trans nestingMembers_le_iff

theorem floatlessItems_iff {items : List Value} :
    floatlessItems items = true ↔ ∀ item ∈ items, item.floatless = true := by
  induction items with
  | nil => simp [floatlessItems]
  | cons item items ih => rw [floatlessItems, Bool.and_eq_true, ih, List.forall_mem_cons]

theorem floatlessMembers_iff {members : List (String × Value)} :
    floatlessMembers members = true ↔ ∀ member ∈ members, member.2.floatless = true := by
  induction members with
  | nil => simp [floatlessMembers]
  | cons member members ih => rw [floatlessMembers, Bool.and_eq_true, ih, List.forall_mem_cons]

theorem hereditary_floatless : Hereditary fun _ v => v.floatless = true where
  null _ := rfl
  bool _ _ := rfl
  whole _ _ := rfl
  text _ _ := rfl
  array _ _ := floatlessItems_iff
  object _ _ := floatlessMembers_iff

end Json.Value

/-! ### Documents of revisions -/

theorem Hierarchy.noted_iff {P : Value → Prop} {h : Hierarchy} :
    h.Noted P ↔ ∀ scope, (h.get scope).AllValues fun type => type.methods.Noted P := by
  simp only [SortedMap.allValues_iff]
  rfl

theorem CallGraph.noted_iff {P : Value → Prop} {g : CallGraph} :
    g.Noted P ↔ ∀ relation, (g.get relation).AllValues fun sites => sites.Noted P := by
  simp only [SortedMap.allValues_iff]
  rfl

namespace Document

variable {Q : Nat → Value → Prop} (hereditary : Value.Hereditary Q) {n : Nat} {α : Type}

include hereditary

theorem hereditary_mapValue {write : α → Value} {m : SortedMap String α} :
    Q (n + 1) (mapValue write m) ↔ m.AllValues fun a => Q n (write a) := by
  rw [mapValue, hereditary.object, List.forall_mem_map]
  rfl

theorem hereditary_metadataValue {m : Metadata} :
    Q (n + 1) (metadataValue m) ↔ m.AllValues (Q n) :=
  hereditary.object n m.toList

theorem hereditary_textsValue (texts : List String) : Q (n + 1) (textsValue texts) := by
  rw [textsValue, hereditary.array, List.forall_mem_map]
  exact fun s _ => hereditary.text n s

theorem hereditary_ofMethod {m : Method} :
    Q (n + 2) (MethodEntry.ofMethod m).value ↔ m.metadata.AllValues (Q n) := by
  have uri := hereditary.text (n + 1) m.uri.text
  rw [MethodEntry.value, hereditary.object]
  simp only [MethodEntry.ofMethod, orNull, List.forall_mem_cons, uri, true_and,
    hereditary_metadataValue hereditary, List.not_mem_nil, false_imp_iff, forall_const, and_true]

theorem hereditary_ofType {t : TypeDecl} :
    Q (n + 4) (TypeEntry.ofType t).value ↔ t.methods.Noted (Q n) := by
  have methods : Q (n + 3) (mapValue MethodEntry.value (.ofList (t.methods.toList.map methodRow))) ↔
      t.methods.Noted (Q n) := by
    rw [hereditary_mapValue hereditary, SortedMap.allValues_ofList_map (nodup_methodRow t.methods)]
    exact forall₂_congr fun row _ => hereditary_ofMethod hereditary
  rw [TypeEntry.value, hereditary.object]
  simp only [TypeEntry.ofType, orNull, List.forall_mem_cons, hereditary.text, hereditary.bool,
    hereditary_textsValue hereditary, true_and, List.not_mem_nil, false_imp_iff, forall_const,
    and_true]
  exact methods

theorem hereditary_encodeTypes {types : TypeMap} :
    Q (n + 5) (mapValue TypeEntry.value (encodeTypes types)) ↔
      types.AllValues fun type => type.methods.Noted (Q n) := by
  rw [hereditary_mapValue hereditary, SortedMap.AllValues, toList_encodeTypes, List.forall_mem_map]
  exact forall₂_congr fun entry _ => hereditary_ofType hereditary

theorem hereditary_ofHierarchy {h : Hierarchy} :
    Q (n + 6) (Types.ofHierarchy h).value ↔ h.Noted (Q n) := by
  rw [Types.value, hereditary.object, Hierarchy.noted_iff]
  simp only [Types.ofHierarchy, orNull, List.forall_mem_cons, hereditary_encodeTypes hereditary,
    List.not_mem_nil, false_imp_iff, forall_const, and_true]
  constructor
  · rintro ⟨internal, external, resolved⟩ scope
    cases scope <;> assumption
  · exact fun all => ⟨all .internal, all .external, all .resolved⟩

theorem hereditary_ofCall {pair : CallPair} {sites : CallSites} :
    Q (n + 3) (CallEntry.ofCall pair sites).value ↔ sites.Noted (Q n) := by
  have noted : Q (n + 2) (mapValue metadataValue (.ofList (sites.toList.map siteRow))) ↔
      sites.Noted (Q n) := by
    rw [hereditary_mapValue hereditary, SortedMap.allValues_ofList_map (nodup_siteRow sites)]
    exact forall₂_congr fun row _ => hereditary_metadataValue hereditary
  rw [CallEntry.value, hereditary.array]
  simp only [CallEntry.ofCall, List.forall_mem_cons, hereditary.text, true_and, List.not_mem_nil,
    false_imp_iff, forall_const, and_true]
  exact noted

theorem hereditary_encodeCalls {calls : CallMap} :
    Q (n + 4) (callsValue (encodeCalls calls)) ↔
      calls.AllValues fun sites => sites.Noted (Q n) := by
  rw [callsValue, hereditary.array, List.forall_mem_map, encodeCalls, List.forall_mem_map]
  exact forall₂_congr fun entry _ => hereditary_ofCall hereditary

theorem hereditary_ofCallGraph {g : CallGraph} :
    Q (n + 5) (Calls.ofCallGraph g).value ↔ g.Noted (Q n) := by
  rw [Calls.value, hereditary.object, CallGraph.noted_iff]
  simp only [Calls.ofCallGraph, orNull, List.forall_mem_cons, hereditary_encodeCalls hereditary,
    List.not_mem_nil, false_imp_iff, forall_const, and_true]
  constructor
  · rintro ⟨internal, external, resolved⟩ relation
    cases relation <;> assumption
  · exact fun all => ⟨all .internal, all .external, all .resolved⟩

theorem hereditary_ofRevision {r : Revision} :
    Q (n + 7) (ofRevision r).value ↔ r.Noted (Q n) (Q (n + 1)) := by
  have time : ∀ member ∈ (((ofRevision r).timestamp.map fun value => ("timestamp", value))).toList,
      Q (n + 6) member.2 := by
    intro member mem
    simp only [ofRevision, Option.map_map, Option.mem_toList, Option.map_eq_some_iff] at mem
    obtain ⟨seconds, _, rfl⟩ := mem
    exact hereditary.whole _ _
  rw [value, hereditary.object, List.forall_mem_append, List.forall_mem_append]
  simp only [List.forall_mem_cons, ofRevision, orNull, Value.natural, hereditary.text,
    hereditary.whole, hereditary_ofHierarchy hereditary, hereditary_ofCallGraph hereditary,
    true_and, List.not_mem_nil, false_imp_iff, forall_const, and_true]
  exact and_iff_right time

end Document

end RevisionGraph
