import RevisionGraph.Proofs.Document.Acceptance

/-!
# Missing fields

A document that is decoded has all its fields. If one of them is taken out, whichever it is, the
decoder gets just as far as this field and names its place: `Document.decode_without`.
-/

namespace RevisionGraph

/-! ### Changed values -/

section Altering

variable {κ α : Type} [Ord κ] [Std.LawfulEqOrd κ] [Std.TransOrd κ]

theorem Ascending.insertEntry_of_held {before after : List (κ × α)} {key : κ} {value : α}
    (h : Ascending (before ++ (key, value) :: after)) (other : α) :
    RevisionGraph.insertEntry key other (before ++ (key, value) :: after) =
      before ++ (key, other) :: after := by
  induction before with
  | nil => simp [RevisionGraph.insertEntry]
  | cons head before ih =>
    rw [List.cons_append] at h ⊢
    obtain ⟨below, rest⟩ := List.pairwise_cons.1 h
    have order := below (key, value) (List.mem_append_right before List.mem_cons_self)
    rw [RevisionGraph.insertEntry, Std.OrientedCmp.gt_of_lt order]
    exact congrArg (head :: ·) (ih rest)

variable [DecidableEq κ]

/-- A value that is changed stays where it stands. -/
theorem SortedMap.exists_split {m : SortedMap κ α} {key : κ} {value : α}
    (held : m.get? key = some value) :
    ∃ before after, m.toList = before ++ (key, value) :: after ∧
      ∀ f : α → α, (m.alter key (Option.map f)).toList = before ++ (key, f value) :: after := by
  obtain ⟨before, after, listed⟩ := List.append_of_mem (mem_toList_iff.2 held)
  refine ⟨before, after, listed, fun f => ?_⟩
  rw [alter, held, Option.map_some, toList_insert, listed]
  exact (listed ▸ m.ascending).insertEntry_of_held (f value)

end Altering

namespace Document

/-! ### Fields -/

inductive MethodEntry.Field where
  | uri
  | metadata
  deriving DecidableEq, Repr

def MethodEntry.Field.name : MethodEntry.Field → String
  | .uri => "uri"
  | .metadata => "metadata"

inductive TypeEntry.Field where
  | sourceFile
  | methods
  | superClasses
  | superInterfaces
  | access
  | isFinal
  deriving DecidableEq, Repr

def TypeEntry.Field.name : TypeEntry.Field → String
  | .sourceFile => "sourceFile"
  | .methods => "methods"
  | .superClasses => "superClasses"
  | .superInterfaces => "superInterfaces"
  | .access => "access"
  | .isFinal => "final"

/-- A field of the document itself. The time is none, as it may be missing. -/
inductive RootField where
  | forge
  | product
  | version
  | generator
  | types
  | calls
  | nodes
  deriving DecidableEq, Repr

def RootField.name : RootField → String
  | .forge => "forge"
  | .product => "product"
  | .version => "version"
  | .generator => "generator"
  | .types => "cha"
  | .calls => "graph"
  | .nodes => "nodes"

/-- A field that a document has to have, wherever it stands in it. -/
inductive Field where
  | root (field : RootField)
  | types (scope : Scope)
  | calls (relation : Relation)
  | type (scope : Scope) (uri : String) (field : TypeEntry.Field)
  | method (scope : Scope) (uri key : String) (field : MethodEntry.Field)
  deriving DecidableEq, Repr

/-- How the place of a field is written. -/
def Field.text : Field → String
  | .root field => field.name
  | .types scope => "cha." ++ scope.name
  | .calls relation => "graph." ++ relation.name
  | .type scope uri field => "cha." ++ scope.name ++ "[" ++ uri ++ "]." ++ field.name
  | .method scope uri key field =>
    "cha." ++ scope.name ++ "[" ++ uri ++ "].methods[" ++ key ++ "]." ++ field.name

def Field.path : Field → FieldPath
  | .root field => .root field.name
  | .types scope => scopePath scope
  | .calls relation => relationPath relation
  | .type scope uri field => ((scopePath scope).entry uri).field field.name
  | .method scope uri key field =>
    ((((scopePath scope).entry uri).field "methods").entry key).field field.name

theorem Field.text_path (field : Field) : field.path.text = field.text := by
  apply String.toList_inj.1
  cases field <;> simp [path, text, scopePath, relationPath, FieldPath.text]

/-! ### Documents without a field -/

def MethodEntry.without (e : MethodEntry) : MethodEntry.Field → MethodEntry
  | .uri => { e with uri := none }
  | .metadata => { e with metadata := none }

def TypeEntry.without (e : TypeEntry) : TypeEntry.Field → TypeEntry
  | .sourceFile => { e with sourceFile := none }
  | .methods => { e with methods := none }
  | .superClasses => { e with superClasses := none }
  | .superInterfaces => { e with superInterfaces := none }
  | .access => { e with access := none }
  | .isFinal => { e with isFinal := none }

/-- The entry with one of its methods changed. -/
def TypeEntry.alterMethod (e : TypeEntry) (key : String) (f : MethodEntry → MethodEntry) :
    TypeEntry :=
  { e with methods := e.methods.map fun methods => methods.alter key (Option.map f) }

def Types.set (t : Types) (scope : Scope) (entries : Option (SortedMap String TypeEntry)) : Types :=
  match scope with
  | .internal => { t with internal := entries }
  | .external => { t with external := entries }
  | .resolved => { t with resolved := entries }

def Calls.set (c : Calls) (relation : Relation) (calls : Option (List CallEntry)) : Calls :=
  match relation with
  | .internal => { c with internal := calls }
  | .external => { c with external := calls }
  | .resolved => { c with resolved := calls }

/-- The document with one of its types changed. -/
def alterType (d : Document) (scope : Scope) (uri : String) (f : TypeEntry → TypeEntry) :
    Document :=
  { d with
    types := d.types.map fun t =>
      t.set scope ((t.get scope).map fun entries => entries.alter uri (Option.map f)) }

def without (d : Document) : Field → Document
  | .root .forge => { d with forge := none }
  | .root .product => { d with product := none }
  | .root .version => { d with version := none }
  | .root .generator => { d with generator := none }
  | .root .types => { d with types := none }
  | .root .calls => { d with calls := none }
  | .root .nodes => { d with nodes := none }
  | .types scope => { d with types := d.types.map fun t => t.set scope none }
  | .calls relation => { d with calls := d.calls.map fun c => c.set relation none }
  | .type scope uri field => d.alterType scope uri (·.without field)
  | .method scope uri key field => d.alterType scope uri (·.alterMethod key (·.without field))

/-! ### Where the decoder stops -/

variable {error : Error}

theorem decodeMethod_without {path : FieldPath} {t next : MethodTable} {key : String}
    {e : MethodEntry} (ok : decodeMethod path t key e = .ok next) (field : MethodEntry.Field) :
    decodeMethod path t key (e.without field) =
      .error (.missingField ((path.entry key).field field.name)) := by
  unfold decodeMethod at ok ⊢
  refine bind_eq_error_of_ok ok fun id ok => ?_
  cases field with
  | uri => rfl
  | metadata =>
    refine bind_eq_error_of_ok ok fun text ok => ?_
    exact bind_eq_error_of_ok ok fun uri ok => rfl

theorem decodeMethods_alter {path : FieldPath} {methods : SortedMap String MethodEntry}
    {table : MethodTable} (ok : decodeMethods path methods = .ok table) {key : String}
    {e : MethodEntry} (held : methods.get? key = some e) (field : MethodEntry.Field) :
    decodeMethods path (methods.alter key (Option.map (·.without field))) =
      .error (.missingField ((path.entry key).field field.name)) := by
  obtain ⟨before, after, listed, changed⟩ := SortedMap.exists_split held
  unfold decodeMethods at ok ⊢
  rw [listed] at ok
  rw [changed]
  exact foldlM_eq_error_of_ok ok fun _ _ ok => decodeMethod_without ok field

theorem decodeType_without {path : FieldPath} {e : TypeEntry} {type : TypeDecl}
    (ok : decodeType path e = .ok type) (field : TypeEntry.Field) :
    decodeType path (e.without field) = .error (.missingField (path.field field.name)) := by
  unfold decodeType at ok ⊢
  -- A field is one step of the decoder, or two where its text is then read.
  cases field with
  | sourceFile => rfl
  | methods => exact bind_eq_error_of_ok ok fun _ _ => rfl
  | superClasses =>
    iterate 2 refine bind_eq_error_of_ok ok fun _ ok => ?_
    exact bind_eq_error_of_ok ok fun _ _ => rfl
  | superInterfaces =>
    iterate 4 refine bind_eq_error_of_ok ok fun _ ok => ?_
    exact bind_eq_error_of_ok ok fun _ _ => rfl
  | access =>
    iterate 6 refine bind_eq_error_of_ok ok fun _ ok => ?_
    exact bind_eq_error_of_ok ok fun _ _ => rfl
  | isFinal =>
    iterate 8 refine bind_eq_error_of_ok ok fun _ ok => ?_
    exact bind_eq_error_of_ok ok fun _ _ => rfl

theorem decodeType_alterMethod {path : FieldPath} {e : TypeEntry} {type : TypeDecl}
    (ok : decodeType path e = .ok type) {key : String} {m : MethodEntry}
    (held : (e.methods.bind fun methods => methods.get? key) = some m)
    (field : MethodEntry.Field) :
    decodeType path (e.alterMethod key (·.without field)) =
      .error (.missingField (((path.field "methods").entry key).field field.name)) := by
  obtain ⟨methods, given, held⟩ := Option.bind_eq_some_iff.1 held
  have fails (t : MethodTable) (ok : decodeMethods (path.field "methods") methods = .ok t) :=
    decodeMethods_alter ok held field
  unfold decodeType TypeEntry.alterMethod at *
  simp only [given, Option.map_some, require, ok_bind] at ok ⊢
  refine bind_eq_error_of_ok ok fun _ ok => ?_
  obtain ⟨table, decoded, _⟩ := bind_eq_ok_iff.1 ok
  rw [fails table decoded]
  rfl

/-- What makes the decoder of a type fail makes the decoder of all types fail. -/
theorem decodeTypes_alter {scope : Scope} {types : SortedMap String TypeEntry} {map : TypeMap}
    (ok : decodeTypes scope (some types) = .ok map) {uri : String} {e : TypeEntry}
    (held : types.get? uri = some e) {f : TypeEntry → TypeEntry}
    (fails : ∀ type, decodeType ((scopePath scope).entry uri) e = .ok type →
      decodeType ((scopePath scope).entry uri) (f e) = .error error) :
    decodeTypes scope (some (types.alter uri (Option.map f))) = .error error := by
  obtain ⟨before, after, listed, changed⟩ := SortedMap.exists_split held
  unfold decodeTypes at ok ⊢
  rw [require, ok_bind] at ok ⊢
  rw [listed] at ok
  rw [changed]
  obtain ⟨entries, ok, _⟩ := bind_eq_ok_iff.1 ok
  rw [mapM_eq_error_of_ok ok fun _ ok => ?_]
  · rfl
  unfold decodeTypeEntry at ok ⊢
  refine bind_eq_error_of_ok ok fun _ ok => ?_
  obtain ⟨type, ok, _⟩ := bind_eq_ok_iff.1 ok
  rw [fails type ok]
  rfl

/-- What makes the decoder of one scope fail makes the decoder of all of them fail. -/
theorem decodeHierarchy_set {t : Types} {h : Hierarchy} (ok : decodeHierarchy t = .ok h)
    {scope : Scope} {types : Option (SortedMap String TypeEntry)}
    (fails : ∀ map, decodeTypes scope (t.get scope) = .ok map →
      decodeTypes scope types = .error error) :
    decodeHierarchy (t.set scope types) = .error error := by
  unfold decodeHierarchy at ok ⊢
  cases scope with
  | internal =>
    obtain ⟨map, ok, _⟩ := bind_eq_ok_iff.1 ok
    rw [Types.set, fails map ok]
    rfl
  | external =>
    refine bind_eq_error_of_ok ok fun _ ok => ?_
    obtain ⟨map, ok, _⟩ := bind_eq_ok_iff.1 ok
    rw [Types.set, fails map ok]
    rfl
  | resolved =>
    iterate 2 refine bind_eq_error_of_ok ok fun _ ok => ?_
    obtain ⟨map, ok, _⟩ := bind_eq_ok_iff.1 ok
    rw [Types.set, fails map ok]
    rfl

theorem decodeCallGraph_set {c : Calls} {g : CallGraph} (ok : decodeCallGraph c = .ok g)
    (relation : Relation) :
    decodeCallGraph (c.set relation none) = .error (.missingField (relationPath relation)) := by
  unfold decodeCallGraph at ok ⊢
  cases relation with
  | internal => rfl
  | external => exact bind_eq_error_of_ok ok fun _ _ => rfl
  | resolved =>
    refine bind_eq_error_of_ok ok fun _ ok => ?_
    exact bind_eq_error_of_ok ok fun _ _ => rfl

/-! ### Taking out a field -/

def type? (d : Document) (scope : Scope) (uri : String) : Option TypeEntry :=
  (d.types.bind (·.get scope)).bind (·.get? uri)

def method? (d : Document) (scope : Scope) (uri key : String) : Option MethodEntry :=
  ((d.type? scope uri).bind TypeEntry.methods).bind (·.get? key)

/-- The document has a place for this field. Only the fields of a type or a method depend on what
the document has. -/
def HasPlace (d : Document) : Field → Prop
  | .root _ | .types _ | .calls _ => True
  | .type scope uri _ => (d.type? scope uri).isSome
  | .method scope uri key _ => (d.method? scope uri key).isSome

theorem decode_map_types {d : Document} {decoded : Decoded} (ok : d.decode = .ok decoded)
    {f : Types → Types}
    (fails : ∀ t h, d.types = some t → decodeHierarchy t = .ok h →
      decodeHierarchy (f t) = .error error) :
    { d with types := d.types.map f }.decode = .error error := by
  unfold decode at ok ⊢
  iterate 4 refine bind_eq_error_of_ok ok fun _ ok => ?_
  obtain ⟨t, given, ok⟩ := bind_eq_ok_iff.1 ok
  obtain ⟨h, ok, _⟩ := bind_eq_ok_iff.1 ok
  rw [require_eq_ok_iff] at given
  rw [given, Option.map_some, require, ok_bind, fails t h given ok]
  rfl

theorem decode_alterType {d : Document} {decoded : Decoded} (ok : d.decode = .ok decoded)
    {scope : Scope} {uri : String} {e : TypeEntry} (held : d.type? scope uri = some e)
    {f : TypeEntry → TypeEntry}
    (fails : ∀ type, decodeType ((scopePath scope).entry uri) e = .ok type →
      decodeType ((scopePath scope).entry uri) (f e) = .error error) :
    (d.alterType scope uri f).decode = .error error := by
  obtain ⟨entries, given, held⟩ := Option.bind_eq_some_iff.1 held
  refine decode_map_types ok fun t h types ok => ?_
  rw [types, Option.bind_some] at given
  rw [given, Option.map_some]
  exact decodeHierarchy_set ok fun map ok => decodeTypes_alter (given ▸ ok) held fails

theorem decode_without_root {d : Document} {decoded : Decoded} (ok : d.decode = .ok decoded)
    (field : RootField) :
    (d.without (.root field)).decode = .error (.missingField (.root field.name)) := by
  unfold decode at ok ⊢
  cases field with
  | forge => rfl
  | product => exact bind_eq_error_of_ok ok fun _ _ => rfl
  | version =>
    refine bind_eq_error_of_ok ok fun _ ok => ?_
    exact bind_eq_error_of_ok ok fun _ _ => rfl
  | generator =>
    iterate 2 refine bind_eq_error_of_ok ok fun _ ok => ?_
    exact bind_eq_error_of_ok ok fun _ _ => rfl
  | types =>
    iterate 3 refine bind_eq_error_of_ok ok fun _ ok => ?_
    exact bind_eq_error_of_ok ok fun _ _ => rfl
  | calls =>
    iterate 5 refine bind_eq_error_of_ok ok fun _ ok => ?_
    exact bind_eq_error_of_ok ok fun _ _ => rfl
  | nodes =>
    iterate 7 refine bind_eq_error_of_ok ok fun _ ok => ?_
    exact bind_eq_error_of_ok ok fun _ _ => rfl

theorem decode_map_calls {d : Document} {decoded : Decoded} (ok : d.decode = .ok decoded)
    (relation : Relation) :
    { d with calls := d.calls.map (Calls.set · relation none) }.decode =
      .error (.missingField (relationPath relation)) := by
  unfold decode at ok ⊢
  iterate 6 refine bind_eq_error_of_ok ok fun _ ok => ?_
  obtain ⟨c, given, ok⟩ := bind_eq_ok_iff.1 ok
  obtain ⟨g, ok, _⟩ := bind_eq_ok_iff.1 ok
  rw [require_eq_ok_iff] at given
  rw [given, Option.map_some, require, ok_bind, decodeCallGraph_set ok relation]
  rfl

/-- A document that is decoded is no longer decoded without one of its fields, whichever it is. The
error names this field and its place. -/
theorem decode_without {d : Document} {decoded : Decoded} (ok : d.decode = .ok decoded)
    {field : Field} (place : d.HasPlace field) :
    (d.without field).decode = .error (.missingField field.path) ∧
      field.path.text = field.text := by
  refine ⟨?_, field.text_path⟩
  cases field with
  | root field => exact decode_without_root ok field
  | types scope =>
    refine decode_map_types ok fun t h _ ok => ?_
    exact decodeHierarchy_set ok fun _ _ => rfl
  | calls relation => exact decode_map_calls ok relation
  | type scope uri field =>
    obtain ⟨e, held⟩ := Option.isSome_iff_exists.1 place
    exact decode_alterType ok held fun _ ok => decodeType_without ok field
  | method scope uri key field =>
    obtain ⟨m, listed⟩ := Option.isSome_iff_exists.1 place
    rw [method?, Option.bind_assoc] at listed
    obtain ⟨e, held, listed⟩ := Option.bind_eq_some_iff.1 listed
    exact decode_alterType ok held fun _ ok => decodeType_alterMethod ok listed field

/-- The key of a method is named as it is written, here with a leading zero. -/
theorem decode_without_metadata :
    ∃ d : Document, ∃ path,
      (d.without (.method .external "/a/T" "07" .metadata)).decode = .error (.missingField path) ∧
      path.text = "cha.externalTypes[/a/T].methods[07].metadata" := by
  let method (uri : String) : MethodEntry := ⟨some uri, some ∅⟩
  let type : TypeEntry := ⟨some "T.java",
    some (.ofList [("07", method "/a/T.f()V"), ("1", method "/a/T.g()V")]), some [],
    some ["/a/I"], some "public", some false⟩
  let d : Document := ⟨some "mvn", some "lib", some "1.0", some "test", none,
    some ⟨some ∅, some (.ofList [("/a/T", type)]), some ∅⟩,
    some ⟨some [⟨"1", "7", ∅⟩], some [], some []⟩, some 2⟩
  have decodes : d.decode.isOk := by decide +kernel
  have place : (d.method? .external "/a/T" "07").isSome := by decide +kernel
  obtain ⟨decoded, ok⟩ := exists_eq_ok_of_isOk decodes
  exact ⟨d, _, decode_without ok place⟩

end Document

end RevisionGraph
