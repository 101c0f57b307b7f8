import RevisionGraph.Proofs.MethodTable.Rows
import RevisionGraph.Proofs.Ordered.Alike

/-!
# Bindings of a table

Whatever methods are inserted into a table, and in whatever order, ids and URIs are bound to each
other in pairs, and an insertion changes no other binding than those of its URI and its id. What a
table holds by id is then all that can be learned of it: `MethodTable.bindings_ofList`.
-/

namespace RevisionGraph.MethodTable

/-! ### One insertion -/

/-- `t'` is `t` with `method` under `id`, where nothing else stands any more. -/
structure Takes (t : MethodTable) (id : Int64) (method : Method) (t' : MethodTable) : Prop where
  methods : ∀ other, t'.get? other = if other = id then some method else t.get? other
  uris : ∀ uri, t'.idOf? uri =
    if uri = method.uri then some id
    else if t.idOf? uri = some id then none
    else t.idOf? uri
  /-- At most one URI loses its id. -/
  single : ∀ uri uri', t.idOf? uri = some id → t.idOf? uri' = some id → uri = uri'

/-- What it is to insert a method into `t` that gives `id` and leaves `t'`. -/
structure Inserted (t : MethodTable) (method : Method) (candidate id : Int64) (t' : MethodTable) :
    Prop where
  named : ∃ held, t'.get? id = some held ∧ held.uri = method.uri
  /-- A URI that is bound keeps its id, and the method that it is bound to. -/
  known : ∀ old, t.idOf? method.uri = some old → id = old ∧ t' = t
  new : t.idOf? method.uri = none → id = candidate ∧ t.Takes candidate method t'

theorem InStep.uri_unique {t : MethodTable} (h : t.InStep) {id : Int64} {uri uri' : Uri}
    (left : t.idOf? uri = some id) (right : t.idOf? uri' = some id) : uri = uri' := by
  obtain ⟨method, held, rfl⟩ := (h _ _).1 left
  obtain ⟨_, held', rfl⟩ := (h _ _).1 right
  cases held.symm.trans held'
  rfl

theorem InStep.takes_of_unbound {t : MethodTable} (h : t.InStep) {method : Method}
    (unbound : t.idOf? method.uri = none) (candidate : Int64) :
    t.Takes candidate method (t.insert method candidate).2 where
  methods := get?_insert_of_new unbound
  uris uri := by
    rw [insert_of_unbound unbound, idOf?_bind, idOf?_release h]
  single _ _ := h.uri_unique

theorem InStep.inserted {t : MethodTable} (h : t.InStep) (method : Method) (candidate : Int64) :
    Inserted t method candidate (t.insert method candidate).1 (t.insert method candidate).2 := by
  cases bound : t.idOf? method.uri with
  | some id =>
    rw [insert_of_bound bound]
    refine ⟨(h _ _).1 bound, ?_, ?_⟩
    · intro old also
      exact ⟨Option.some.inj (bound.symm.trans also), rfl⟩
    · intro unbound
      cases bound.symm.trans unbound
  | none =>
    have takes := h.takes_of_unbound bound candidate
    have first : (t.insert method candidate).1 = candidate := by
      rw [insert_of_unbound bound]
    rw [first]
    refine ⟨⟨method, (takes.methods candidate).trans (if_pos rfl), rfl⟩, ?_, ?_⟩
    · intro old also
      cases bound.symm.trans also
    · intro _
      exact ⟨rfl, takes⟩

/-! ### Comparing tables -/

/-- Whatever is asked of the tables, they answer alike. -/
structure Agree (s t : MethodTable) : Prop where
  methods : ∀ id, s.get? id == t.get? id
  uris : ∀ uri, s.idOf? uri = t.idOf? uri
  containsId : ∀ id, s.containsId id = t.containsId id
  containsUri : ∀ uri, s.containsUri uri = t.containsUri uri
  listed : s.toList == t.toList
  ids : s.ids = t.ids

abbrev Like (s t : MethodTable) : Prop := s.byId.Alike (fun m n => m == n) t.byId

theorem like_iff {s t : MethodTable} : s.Like t ↔ s == t := SortedMap.alike_beq

theorem uri_eq_of_beq {m n : Method} (same : m == n) : m.uri = n.uri :=
  of_decide_eq_true (Bool.and_eq_true_iff.1 same).1

theorem Like.exists_named_iff {s t : MethodTable} (like : s.Like t) (id : Int64) (uri : Uri) :
    (∃ method, s.get? id = some method ∧ method.uri = uri) ↔
      ∃ method, t.get? id = some method ∧ method.uri = uri := by
  have held : Option.Rel (fun m n => m == n) (s.get? id) (t.get? id) := like id
  cases left : s.get? id with
  | none =>
    cases right : t.get? id with
    | none => rfl
    | some n => simp [left, right] at held
  | some m =>
    cases right : t.get? id with
    | none => simp [left, right] at held
    | some n =>
      rw [left, right, Option.rel_some_some] at held
      simp [uri_eq_of_beq held]

theorem InStep.idOf?_eq_of_like {s t : MethodTable} (left : s.InStep) (right : t.InStep)
    (like : s.Like t) (uri : Uri) : s.idOf? uri = t.idOf? uri := by
  -- the ids of URIs are not compared, but follow from the methods
  apply Option.ext
  intro id
  exact (left uri id).trans ((like.exists_named_iff id uri).trans (right uri id).symm)

theorem InStep.agree_iff {s t : MethodTable} (left : s.InStep) (right : t.InStep) :
    s == t ↔ s.Agree t := by
  rw [← like_iff]
  constructor
  · intro like
    have uris := left.idOf?_eq_of_like right like
    exact {
      methods id := rel_beq_iff.1 (like id)
      uris
      containsId := like.contains_eq
      containsUri uri := congrArg Option.isSome (uris uri)
      listed := like_iff.1 like
      ids := like.keys_eq }
  · intro agree id
    exact rel_beq_iff.2 (agree.methods id)

/-! ### Any insertions -/

/-- After any insertions each URI is bound to the id under which a method with it stands. Each
insertion gives the id under which its URI then stands, and tables of insertions compare as equal if
they answer alike. -/
theorem bindings_ofList (rows : List (Int64 × Method)) :
    (ofList rows).InStep ∧
    (∀ id method, Inserted (ofList rows) method id ((ofList rows).insert method id).1
      (ofList (rows ++ [(id, method)]))) ∧
    ∀ others, ofList rows == ofList others ↔ (ofList rows).Agree (ofList others) := by
  have inStep := inStep_ofList rows
  refine ⟨inStep, ?_, ?_⟩
  · intro id method
    rw [ofList_concat]
    exact inStep.inserted method id
  · intro others
    exact inStep.agree_iff (inStep_ofList others)

end RevisionGraph.MethodTable
