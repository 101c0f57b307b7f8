import RevisionGraph.Proofs.Document.Types
import RevisionGraph.Proofs.Uri.Components

/-!
# What a document tells about types

`MethodEntry.Tells`, `TypeEntry.Tells` and `Types.Tells` say which method, type or hierarchy an
entry of a document stands for. The decoder gives just these: `Document.decodeType_eq_ok_iff` and
`Document.decodeHierarchy_eq_ok_iff`.
-/

namespace RevisionGraph

theorem Access.ofName_eq_ok_iff {name : String} {access : Access} :
    Access.ofName name = .ok access ↔ access.name = name := by
  constructor
  · intro ok
    unfold Access.ofName at ok
    split at ok <;> rename_i found
    · cases ok
      simpa using List.find?_some found
    · cases ok
  · rintro rfl
    exact Access.ofName_name access

theorem Uri.mapM_parse_eq_ok_iff {texts : List String} {uris : List Uri} :
    texts.mapM Uri.parse = .ok uris ↔ texts = uris.map Uri.text := by
  have read (text : String) (u : Uri) : parse text = .ok u ↔ text = u.text :=
    parse_eq_ok_iff.trans eq_comm
  rw [mapM_eq_ok_iff, ← List.forall₂_eq_eq_eq, List.forall₂_map_right_iff]
  simp only [read]

namespace Document

theorem require_eq_ok_iff {α : Type} {path : FieldPath} {field : Option α} {a : α} :
    require path field = .ok a ↔ field = some a := by
  cases field <;> simp [require]

theorem decodeId_eq_ok_iff {path : FieldPath} {text : String} {id : Int64} :
    decodeId path text = .ok id ↔ readId? text = some id := by
  unfold decodeId
  split <;> rename_i read <;> simp [read]

/-! ### Methods -/

/-- The entry under a key is about the method in a row. -/
structure MethodEntry.Tells (entry : String × MethodEntry) (row : Int64 × Method) : Prop where
  id : readId? entry.1 = some row.1
  uri : entry.2.uri = some row.2.uri.text
  metadata : entry.2.metadata = some row.2.metadata

theorem decodeMethod_eq_ok_iff {path : FieldPath} {t next : MethodTable}
    {entry : String × MethodEntry} :
    decodeMethod path t entry.1 entry.2 = .ok next ↔
      ∃ row, MethodEntry.Tells entry row ∧ t.containsUri row.2.uri = false ∧
        t.containsId row.1 = false ∧ next = (t.insert row.2 row.1).2 := by
  unfold decodeMethod
  simp only [bind_eq_ok_iff, require_eq_ok_iff, decodeId_eq_ok_iff, Uri.parse_eq_ok_iff]
  constructor
  · rintro ⟨id, named, text, told, uri, rfl, metadata, noted, made⟩
    split at made <;> rename_i taken
    · cases made
    · cases made
      simp only [Bool.or_eq_true, not_or, Bool.not_eq_true] at taken
      exact ⟨(id, ⟨uri, metadata⟩), ⟨named, told, noted⟩, taken.1, taken.2, rfl⟩
  · rintro ⟨⟨id, uri, metadata⟩, ⟨named, told, noted⟩, newUri, newId, rfl⟩
    refine ⟨id, named, _, told, uri, rfl, metadata, noted, ?_⟩
    simp only at newUri newId
    rw [newUri, newId]
    rfl

/-- The decoder continues a table of rows. -/
theorem foldlM_decodeMethod_eq_ok_iff {path : FieldPath} {entries : List (String × MethodEntry)}
    {before : List (Int64 × Method)} (distinct : MethodTable.DistinctRows before)
    {t : MethodTable} :
    entries.foldlM (fun t entry => decodeMethod path t entry.1 entry.2) (.ofList before) = .ok t ↔
      ∃ rows, List.Forall₂ MethodEntry.Tells entries rows ∧
        MethodTable.DistinctRows (before ++ rows) ∧ t = .ofList (before ++ rows) := by
  -- Forwards, with the rows that were read already: the checks of an entry look at their table.
  induction entries generalizing before with
  | nil =>
    constructor
    · rintro ⟨⟩
      exact ⟨[], .nil, by rwa [List.append_nil], by rw [List.append_nil]⟩
    · rintro ⟨_, ⟨⟩, _, rfl⟩
      rw [List.append_nil]
      rfl
  | cons entry entries ih =>
    rw [List.foldlM_cons, bind_eq_ok_iff]
    constructor
    · rintro ⟨next, first, rest⟩
      obtain ⟨row, told, newUri, newId, rfl⟩ := decodeMethod_eq_ok_iff.1 first
      rw [← MethodTable.ofList_concat] at rest
      obtain ⟨rows, others, apart, rfl⟩ := (ih (distinct.concat_iff.2 ⟨newUri, newId⟩)).1 rest
      rw [List.append_assoc, List.singleton_append] at apart ⊢
      exact ⟨row :: rows, .cons told others, apart, rfl⟩
    · rintro ⟨_, _ | ⟨told, others⟩, apart, rfl⟩
      rename_i row rows
      have here : List.Sublist (before ++ [row]) (before ++ row :: rows) :=
        (List.sublist_append_left [row] rows).append_left before
      have grown := apart.sublist here
      obtain ⟨newUri, newId⟩ := distinct.concat_iff.1 grown
      refine ⟨_, decodeMethod_eq_ok_iff.2 ⟨row, told, newUri, newId, rfl⟩, ?_⟩
      rw [← MethodTable.ofList_concat]
      apply (ih grown).2
      rw [List.append_cons] at apart
      exact ⟨rows, others, apart, by rw [List.append_cons]⟩

theorem decodeMethods_eq_ok_iff {path : FieldPath} {methods : SortedMap String MethodEntry}
    {t : MethodTable} :
    decodeMethods path methods = .ok t ↔
      t.InStep ∧ ∃ rows, List.Forall₂ MethodEntry.Tells methods.toList rows ∧
        rows.Perm t.toList := by
  have nothing : MethodTable.DistinctRows [] := ⟨.nil, .nil⟩
  constructor
  · intro ok
    obtain ⟨rows, told, distinct, rfl⟩ := (foldlM_decodeMethod_eq_ok_iff nothing).1 ok
    exact ⟨MethodTable.inStep_ofList rows, rows, told,
      (MethodTable.perm_toList_ofList distinct).symm⟩
  · rintro ⟨inStep, rows, told, perm⟩
    obtain ⟨distinct, rfl⟩ := inStep.ofList_eq perm
    exact (foldlM_decodeMethod_eq_ok_iff nothing).2 ⟨rows, told, distinct, rfl⟩

/-! ### Types -/

/-- The entry is about the type: its methods are those of the table, in the order of their keys. -/
structure TypeEntry.Tells (e : TypeEntry) (type : TypeDecl) : Prop where
  sourceFile : e.sourceFile = some type.sourceFile
  methods : ∃ methods rows, e.methods = some methods ∧
    List.Forall₂ MethodEntry.Tells methods.toList rows ∧ rows.Perm type.methods.toList
  inStep : type.methods.InStep
  superClasses : e.superClasses = some (type.superClasses.map Uri.text)
  superInterfaces : e.superInterfaces = some (type.superInterfaces.map Uri.text)
  access : e.access = some type.access.name
  isFinal : e.isFinal = some type.isFinal

theorem decodeType_eq_ok_iff {path : FieldPath} {e : TypeEntry} {type : TypeDecl} :
    decodeType path e = .ok type ↔ e.Tells type := by
  unfold decodeType
  simp only [bind_eq_ok_iff, require_eq_ok_iff, decodeMethods_eq_ok_iff, Uri.mapM_parse_eq_ok_iff,
    Access.ofName_eq_ok_iff]
  constructor
  · rintro ⟨sourceFile, file, methods, held, table, ⟨inStep, rows, told, perm⟩, _, classes,
      superClasses, rfl, _, interfaces, superInterfaces, rfl, _, named, access, rfl, isFinal,
      final, made⟩
    cases made
    exact ⟨file, ⟨methods, rows, held, told, perm⟩, inStep, classes, interfaces, named, final⟩
  · rintro ⟨file, ⟨methods, rows, held, told, perm⟩, inStep, classes, interfaces, named, final⟩
    exact ⟨_, file, methods, held, _, ⟨inStep, rows, told, perm⟩, _, classes, _, rfl, _,
      interfaces, _, rfl, _, named, _, rfl, _, final, rfl⟩

/-- The entry under a key is about the type under a URI. -/
def TellsEntry (entry : String × TypeEntry) (row : Uri × TypeDecl) : Prop :=
  entry.1 = row.1.text ∧ entry.2.Tells row.2

theorem decodeTypeEntry_eq_ok_iff {path : FieldPath} {entry : String × TypeEntry}
    {row : Uri × TypeDecl} : decodeTypeEntry path entry = .ok row ↔ TellsEntry entry row := by
  unfold decodeTypeEntry
  simp only [bind_eq_ok_iff, Uri.parse_eq_ok_iff, decodeType_eq_ok_iff]
  constructor
  · rintro ⟨uri, named, type, told, made⟩
    cases made
    exact ⟨named.symm, told⟩
  · rintro ⟨named, told⟩
    exact ⟨_, named.symm, _, told, rfl⟩

theorem map_text_of_tells {entries : List (String × TypeEntry)} {rows : List (Uri × TypeDecl)}
    (told : List.Forall₂ TellsEntry entries rows) :
    entries.map Prod.fst = (rows.map Prod.fst).map Uri.text := by
  rw [List.map_map]
  exact map_eq_map_of_forall₂ (fun _ _ row => row.1) told

/-- URIs are ordered as keys are, so types that are told in order stand in order. -/
theorem ascending_of_tells {entries : SortedMap String TypeEntry} {rows : List (Uri × TypeDecl)}
    (told : List.Forall₂ TellsEntry entries.toList rows) : Ascending rows := by
  have texts : (entries.toList.map Prod.fst).Pairwise fun a b => compare a b = .lt :=
    List.pairwise_map.2 entries.ascending
  rw [map_text_of_tells told, List.map_map] at texts
  exact List.pairwise_map.1 texts

/-- The entries are about the types, one by one. -/
def TellsTypes (entries : SortedMap String TypeEntry) (types : TypeMap) : Prop :=
  List.Forall₂ TellsEntry entries.toList types.toList

theorem decodeTypes_eq_ok_iff {scope : Scope} {entries : Option (SortedMap String TypeEntry)}
    {types : TypeMap} :
    decodeTypes scope entries = .ok types ↔
      ∃ told, entries = some told ∧ TellsTypes told types := by
  unfold decodeTypes
  simp only [bind_eq_ok_iff, require_eq_ok_iff, mapM_eq_ok_iff, decodeTypeEntry_eq_ok_iff]
  constructor
  · rintro ⟨told, held, rows, each, made⟩
    cases made
    refine ⟨told, held, ?_⟩
    unfold TellsTypes
    rwa [SortedMap.toList_ofList (ascending_of_tells each)]
  · rintro ⟨told, held, each⟩
    refine ⟨told, held, types.toList, each, ?_⟩
    rw [SortedMap.ofList_toList]
    rfl

/-! ### Hierarchies -/

def Types.get (t : Types) : Scope → Option (SortedMap String TypeEntry)
  | .internal => t.internal
  | .external => t.external
  | .resolved => t.resolved

/-- The document is about the types of the hierarchy, scope by scope. -/
def Types.Tells (t : Types) (h : Hierarchy) : Prop :=
  ∀ scope, ∃ entries, t.get scope = some entries ∧ TellsTypes entries (h.get scope)

theorem decodeHierarchy_eq_ok_iff {t : Types} {h : Hierarchy} :
    decodeHierarchy t = .ok h ↔ t.Tells h ∧ h.Partitioned := by
  unfold decodeHierarchy
  simp only [bind_eq_ok_iff, decodeTypes_eq_ok_iff, Hierarchy.ofScopes_eq_ok_iff]
  constructor
  · rintro ⟨internal, first, external, second, resolved, third, rfl, parted⟩
    refine ⟨?_, parted⟩
    rintro ⟨⟩
    · exact first
    · exact second
    · exact third
  · rintro ⟨told, parted⟩
    exact ⟨_, told .internal, _, told .external, _, told .resolved, rfl, parted⟩

end Document

end RevisionGraph
