import Mathlib.Data.List.Induction
import RevisionGraph.MethodTable.InStep
import RevisionGraph.Proofs.Ordered.Distinct

/-!
# Tables of rows

Rows that repeat neither an id nor a URI are all held by the table that is made of them, whatever
their order: `MethodTable.get?_ofList` and `MethodTable.idOf?_ofList`.
-/

namespace RevisionGraph.MethodTable

/-- No id and no URI stands in two rows. -/
structure DistinctRows (rows : List (Int64 × Method)) : Prop where
  ids : (rows.map Prod.fst).Nodup
  uris : (rows.map fun row => row.2.uri).Nodup

theorem DistinctRows.sublist {rows some : List (Int64 × Method)} (distinct : DistinctRows rows)
    (sub : some.Sublist rows) : DistinctRows some :=
  ⟨distinct.ids.sublist (sub.map _), distinct.uris.sublist (sub.map _)⟩

/-- A row goes with its id and with its URI. -/
theorem DistinctRows.row_eq {rows : List (Int64 × Method)} (distinct : DistinctRows rows)
    {row other : Int64 × Method} (mem : row ∈ rows) (also : other ∈ rows) :
    (row.1 = other.1 → row = other) ∧ (row.2.uri = other.2.uri → row = other) :=
  ⟨List.inj_on_of_nodup_map distinct.ids mem also, List.inj_on_of_nodup_map distinct.uris mem also⟩

theorem distinctRows_concat {rows : List (Int64 × Method)} {row : Int64 × Method} :
    DistinctRows (rows ++ [row]) ↔
      DistinctRows rows ∧ row.1 ∉ rows.map Prod.fst ∧
        row.2.uri ∉ rows.map fun row => row.2.uri := by
  constructor
  · rintro ⟨ids, uris⟩
    rw [List.map_append, List.map_singleton] at ids uris
    obtain ⟨ids, _, newId⟩ := List.nodup_append'.1 ids
    obtain ⟨uris, _, newUri⟩ := List.nodup_append'.1 uris
    exact ⟨⟨ids, uris⟩, List.disjoint_singleton.1 newId, List.disjoint_singleton.1 newUri⟩
  · rintro ⟨⟨ids, uris⟩, newId, newUri⟩
    constructor <;> rw [List.map_append, List.map_singleton]
    · exact List.nodup_append'.2 ⟨ids, List.nodup_singleton _, List.disjoint_singleton.2 newId⟩
    · exact List.nodup_append'.2 ⟨uris, List.nodup_singleton _, List.disjoint_singleton.2 newUri⟩

theorem ofList_concat (rows : List (Int64 × Method)) (row : Int64 × Method) :
    ofList (rows ++ [row]) = ((ofList rows).insert row.2 row.1).2 := by
  simp only [ofList, List.foldl_append, List.foldl_cons, List.foldl_nil]

theorem inStep_ofList (rows : List (Int64 × Method)) : (ofList rows).InStep := by
  induction rows using List.reverseRecOn with
  | nil => exact inStep_empty
  | append_singleton rows row ih =>
    rw [ofList_concat]
    exact ih.insert row.2 row.1

/-- The tables that come of inserting one method after the other. -/
def Built (t : MethodTable) : Prop := ∃ rows, t = ofList rows

theorem built_empty : Built ∅ := ⟨[], rfl⟩

theorem Built.insert {t : MethodTable} (built : t.Built) (method : Method) (candidate : Int64) :
    (t.insert method candidate).2.Built := by
  obtain ⟨rows, rfl⟩ := built
  exact ⟨rows ++ [(candidate, method)], (ofList_concat rows (candidate, method)).symm⟩

theorem Built.inStep {t : MethodTable} (built : t.Built) : t.InStep := by
  obtain ⟨rows, rfl⟩ := built
  exact inStep_ofList rows

/-- A method with a new URI and a new id leaves all that is held. -/
theorem get?_insert_of_new {t : MethodTable} {method : Method} {candidate : Int64}
    (unbound : t.idOf? method.uri = none) (id : Int64) :
    (t.insert method candidate).2.get? id = if id = candidate then some method else t.get? id := by
  rw [insert_of_unbound unbound, get?_bind, get?_release]
  by_cases here : id = candidate
  · rw [if_pos here, if_pos here]
  · rw [if_neg here, if_neg here, if_neg here]

theorem get?_ofList {rows : List (Int64 × Method)} (distinct : DistinctRows rows) {id : Int64}
    {method : Method} : (ofList rows).get? id = some method ↔ (id, method) ∈ rows := by
  induction rows using List.reverseRecOn generalizing id method with
  | nil =>
    constructor
    · intro held
      cases held
    · intro mem
      cases mem
  | append_singleton rows row ih =>
    obtain ⟨others, newId, newUri⟩ := distinctRows_concat.1 distinct
    have unbound : (ofList rows).idOf? row.2.uri = none := by
      apply Option.eq_none_iff_forall_ne_some.2
      intro id bound
      obtain ⟨method, held, same⟩ := (inStep_ofList rows _ _).1 bound
      exact newUri (List.mem_map.2 ⟨_, (ih others).1 held, same⟩)
    rw [ofList_concat, get?_insert_of_new unbound, List.mem_append, List.mem_singleton]
    by_cases here : id = row.1
    · subst here
      have notEarlier : (row.1, method) ∉ rows := fun mem => newId (List.mem_map.2 ⟨_, mem, rfl⟩)
      rw [if_pos rfl, or_iff_right notEarlier, Option.some.injEq]
      exact ⟨fun same => same ▸ rfl, fun same => congrArg Prod.snd same.symm⟩
    · have notThis : (id, method) ≠ row := fun same => here (congrArg Prod.fst same)
      rw [if_neg here, ih others, or_iff_left notThis]

theorem idOf?_ofList {rows : List (Int64 × Method)} (distinct : DistinctRows rows) {uri : Uri}
    {id : Int64} :
    (ofList rows).idOf? uri = some id ↔ ∃ row ∈ rows, row.1 = id ∧ row.2.uri = uri := by
  rw [inStep_ofList rows uri id]
  constructor
  · rintro ⟨method, held, same⟩
    exact ⟨_, (get?_ofList distinct).1 held, rfl, same⟩
  · rintro ⟨row, mem, rfl, same⟩
    exact ⟨row.2, (get?_ofList distinct).2 mem, same⟩

theorem idOf?_ofList_eq_none {rows : List (Int64 × Method)} (distinct : DistinctRows rows)
    {uri : Uri} : (ofList rows).idOf? uri = none ↔ uri ∉ rows.map fun row => row.2.uri := by
  rw [Option.eq_none_iff_forall_ne_some]
  constructor
  · intro unbound mem
    obtain ⟨row, held, same⟩ := List.mem_map.1 mem
    exact unbound row.1 ((idOf?_ofList distinct).2 ⟨row, held, rfl, same⟩)
  · intro absent id bound
    obtain ⟨row, held, _, same⟩ := (idOf?_ofList distinct).1 bound
    exact absent (List.mem_map.2 ⟨row, held, same⟩)

theorem containsUri_ofList {rows : List (Int64 × Method)} (distinct : DistinctRows rows)
    {uri : Uri} :
    (ofList rows).containsUri uri = false ↔ uri ∉ rows.map fun row => row.2.uri := by
  rw [← idOf?_ofList_eq_none distinct]
  exact Option.isSome_eq_false_iff.trans Option.isNone_iff_eq_none

theorem containsId_ofList {rows : List (Int64 × Method)} (distinct : DistinctRows rows)
    {id : Int64} : (ofList rows).containsId id = false ↔ id ∉ rows.map Prod.fst := by
  have absent : (ofList rows).containsId id = false ↔ (ofList rows).get? id = none :=
    Option.isSome_eq_false_iff.trans Option.isNone_iff_eq_none
  rw [absent, Option.eq_none_iff_forall_ne_some]
  constructor
  · intro absent mem
    obtain ⟨row, held, rfl⟩ := List.mem_map.1 mem
    exact absent row.2 ((get?_ofList distinct).2 held)
  · intro absent method held
    exact absent (List.mem_map.2 ⟨_, (get?_ofList distinct).1 held, rfl⟩)

/-- Rows stay distinct with one that is new to their table. -/
theorem DistinctRows.concat_iff {rows : List (Int64 × Method)} (distinct : DistinctRows rows)
    {row : Int64 × Method} :
    DistinctRows (rows ++ [row]) ↔
      (ofList rows).containsUri row.2.uri = false ∧ (ofList rows).containsId row.1 = false := by
  rw [distinctRows_concat, and_iff_right distinct, containsUri_ofList distinct,
    containsId_ofList distinct, and_comm]

theorem perm_toList_ofList {rows : List (Int64 × Method)} (distinct : DistinctRows rows) :
    (ofList rows).toList.Perm rows := by
  have listed : (ofList rows).toList.Nodup := (ofList rows).byId.nodup_keys.of_map
  rw [List.perm_ext_iff_of_nodup listed (distinct.ids.of_map _)]
  intro row
  exact SortedMap.mem_toList_iff.trans (get?_ofList distinct)

/-- A table in step is the table of its rows, in whatever order they stand. -/
theorem InStep.ofList_eq {t : MethodTable} (inStep : t.InStep) {rows : List (Int64 × Method)}
    (perm : rows.Perm t.toList) : DistinctRows rows ∧ ofList rows = t := by
  have listed (row : Int64 × Method) : row ∈ rows ↔ t.get? row.1 = some row.2 :=
    perm.mem_iff.trans SortedMap.mem_toList_iff
  have ids : (rows.map Prod.fst).Nodup :=
    (perm.map Prod.fst).nodup_iff.2 t.byId.nodup_keys
  have distinct : DistinctRows rows := by
    refine ⟨ids, ids.of_map Prod.fst |>.map_on ?_⟩
    intro row mem other also same
    have sameId := inStep.uri_injective ((listed row).1 mem) ((listed other).1 also) same
    exact List.inj_on_of_nodup_map ids mem also sameId
  refine ⟨distinct, (inStep_ofList rows).ext inStep ?_⟩
  apply SortedMap.ext_get?
  intro id
  apply Option.ext
  intro method
  exact (get?_ofList distinct).trans (listed (id, method))

theorem mem_toList_iff {t : MethodTable} {id : Int64} {method : Method} :
    (id, method) ∈ t.toList ↔ t.get? id = some method :=
  SortedMap.mem_toList_iff

theorem mem_ids_iff {t : MethodTable} {id : Int64} :
    id ∈ t.ids ↔ ∃ method, t.get? id = some method := by
  rw [ids, SortedMap.mem_keys_iff, SortedMap.contains_iff]
  rfl

end RevisionGraph.MethodTable
