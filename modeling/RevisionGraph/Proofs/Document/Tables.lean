import RevisionGraph.Proofs.Document.Types

/-!
# Tables in any order

Rows that repeat neither an id nor a URI make one table, in whatever order they are inserted:
`MethodTable.collects_ofList`. A table is written by ascending ids and read by the texts of the ids,
where `10` comes before `9`, and is the same table again: `Document.collects_in_any_order`.
-/

namespace RevisionGraph

namespace MethodTable

/-- The table holds the rows and nothing else, however they are ordered, and lists them by id. -/
structure Collects (t : MethodTable) (rows : List (Int64 × Method)) : Prop where
  made : ∀ order : List (Int64 × Method), order.Perm rows → ofList order = t
  methods : ∀ id method, t.get? id = some method ↔ (id, method) ∈ rows
  uris : ∀ uri id, t.idOf? uri = some id ↔ ∃ row ∈ rows, row.1 = id ∧ row.2.uri = uri
  listed : t.toList.Perm rows
  ascending : t.toList.Pairwise fun row later => row.1 < later.1

theorem pairwise_toList (t : MethodTable) : t.toList.Pairwise fun row later => row.1 < later.1 :=
  t.byId.ascending.imp Std.compare_eq_lt.1

theorem collects_ofList {rows : List (Int64 × Method)} (distinct : DistinctRows rows) :
    (ofList rows).Collects rows where
  made order perm := by
    have listed : order.Perm (ofList rows).toList := perm.trans (perm_toList_ofList distinct).symm
    exact ((inStep_ofList rows).ofList_eq listed).2
  methods _ _ := get?_ofList distinct
  uris _ _ := idOf?_ofList distinct
  listed := perm_toList_ofList distinct
  ascending := pairwise_toList _

end MethodTable

namespace Document

/-- The entries are the rows in the order of the texts of their ids. -/
def ListsByText (entries : SortedMap String MethodEntry) (rows : List (Int64 × Method)) : Prop :=
  ∃ order : List (Int64 × Method), order.Perm rows ∧
    (order.Pairwise fun row later => idText row.1 < idText later.1) ∧
    entries.toList = order.map methodRow

theorem listsByText_ofTable (t : MethodTable) :
    ListsByText (.ofList (t.toList.map methodRow)) t.toList := by
  obtain ⟨order, perm, listed⟩ := SortedMap.exists_rows_of_ofList (nodup_methodRow t)
  have texts := (SortedMap.ofList (t.toList.map methodRow)).ascending
  rw [listed, Ascending, List.pairwise_map] at texts
  exact ⟨order, perm, texts.imp compareOfLessAndEq_eq_lt.1, listed⟩

theorem ListsByText.perm {entries : SortedMap String MethodEntry}
    {rows others : List (Int64 × Method)} (lists : ListsByText entries rows)
    (perm : rows.Perm others) : ListsByText entries others := by
  obtain ⟨order, same, byText, listed⟩ := lists
  exact ⟨order, same.trans perm, byText, listed⟩

/-- Rows with distinct ids and distinct URIs make one table in whatever order they are inserted. It
holds just these rows and lists them by id. As entries they stand in the order of the texts of their
ids, and the decoder, which inserts them in that order, gives the table again. -/
theorem collects_in_any_order {rows : List (Int64 × Method)}
    (distinct : MethodTable.DistinctRows rows) :
    (MethodTable.ofList rows).Collects rows ∧
    ∀ (path : FieldPath) (type : TypeDecl), ∃ entries,
      (TypeEntry.ofType { type with methods := .ofList rows }).methods = some entries ∧
      ListsByText entries rows ∧ decodeMethods path entries = .ok (.ofList rows) := by
  have collects := MethodTable.collects_ofList distinct
  refine ⟨collects, fun path type => ⟨_, rfl, ?_, ?_⟩⟩
  · exact (listsByText_ofTable (.ofList rows)).perm collects.listed
  · exact decodeMethods_ofTable path (MethodTable.inStep_ofList rows)

theorem collects_in_any_order_negative :
    let a : Uri := ⟨"/n/A.a()V", .local ⟨"n".toList, some "A.a()V".toList⟩, by decide⟩
    let b : Uri := ⟨"/n/A.b()V", .local ⟨"n".toList, some "A.b()V".toList⟩, by decide⟩
    let c : Uri := ⟨"/n/A.c()V", .local ⟨"n".toList, some "A.c()V".toList⟩, by decide⟩
    let rows := [(10, Method.plain a), (-1, Method.plain b), (9, Method.plain c)]
    MethodTable.DistinctRows rows ∧ (MethodTable.ofList rows).Collects rows ∧
      (MethodTable.ofList rows).ids = [-1, 9, 10] ∧
      ∃ entries, ListsByText entries rows ∧ entries.keys = ["-1", "10", "9"] ∧
        decodeMethods (.root "methods") entries = .ok (.ofList rows) := by
  intro a b c rows
  have distinct : MethodTable.DistinctRows rows := ⟨by decide, by decide⟩
  obtain ⟨collects, decodes⟩ := collects_in_any_order distinct
  obtain ⟨entries, written, lists, decoded⟩ := decodes (.root "methods") .placeholder
  have keys : entries.keys = ["-1", "10", "9"] := by
    cases written
    decide +kernel
  exact ⟨distinct, collects, by decide +kernel, entries, lists, keys, decoded⟩

end Document

end RevisionGraph
