import Mathlib.Data.List.Forall2
import RevisionGraph.Proofs.Dot.Escaping
import RevisionGraph.Proofs.Revision.FirstDangling

/-!
# What is drawn

The text of a drawing has one line for each method that is declared or called or calls, and one for
each call: `Dot.text_draws`. `Dot.IsNode` and `Dot.IsEdge` say what these lines are. The nodes come
from a map that is filled scope by scope as the map of all methods is, so that both agree on methods
that share an id.
-/

namespace RevisionGraph

namespace Revision

variable {r : Revision}

/-- The last scope, in the order in which scopes are walked, that declares a method with the id. -/
def DeclaredLast (r : Revision) (scope : Scope) (id : Int64) : Prop :=
  r.Declares scope id ∧ ∀ later ∈ scope.later, ¬ r.Declares later id

/-- A call starts or ends at the id. -/
def IsEnd (r : Revision) (id : Int64) : Prop :=
  ∃ relation pair, (r.calls.get relation).contains pair ∧ (pair.caller = id ∨ pair.callee = id)

end Revision

namespace Dot

open Revision

variable {r : Revision}

/-! ### Declared methods -/

def scopeRows (r : Revision) (scope : Scope) : List (Int64 × Scope × Method) :=
  (r.hierarchy.methods scope).map fun row => (row.1, scope, row.2)

theorem declared_eq (r : Revision) :
    declared r = ((SortedMap.empty.insertMany (scopeRows r .internal)).insertMany
      (scopeRows r .external)).insertMany (scopeRows r .resolved) := rfl

theorem mem_keys_scopeRows {scope : Scope} {id : Int64} :
    id ∈ (scopeRows r scope).map Prod.fst ↔ r.Declares scope id := by
  unfold scopeRows
  rw [List.map_map]
  exact Hierarchy.mem_ids_iff

theorem scope_of_mem_scopeRows {scope other : Scope} {id : Int64} {method : Method}
    (mem : (id, other, method) ∈ scopeRows r scope) : other = scope ∧ r.Declares scope id := by
  refine ⟨?_, mem_keys_scopeRows.1 (List.mem_map.2 ⟨_, mem, rfl⟩)⟩
  obtain ⟨_, _, same⟩ := List.mem_map.1 mem
  cases same
  rfl

theorem contains_declared_iff {id : Int64} :
    (declared r).contains id ↔ ∃ scope, r.Declares scope id := by
  rw [declared_eq]
  simp only [SortedMap.contains_insertMany, mem_keys_scopeRows]
  constructor
  · rintro (((none | internal) | external) | resolved)
    · cases none
    · exact ⟨_, internal⟩
    · exact ⟨_, external⟩
    · exact ⟨_, resolved⟩
  · rintro ⟨_ | _ | _, declares⟩
    · exact .inl (.inl (.inr declares))
    · exact .inl (.inr declares)
    · exact .inr declares

theorem declaredLast_of_get? {id : Int64} {scope : Scope} {method : Method}
    (held : (declared r).get? id = some (scope, method)) : r.DeclaredLast scope id := by
  rw [declared_eq] at held
  -- The scopes are asked from the last to the first, as a later one takes the id over.
  rcases SortedMap.get?_insertMany_cases held with mem | ⟨notResolved, held⟩
  · obtain ⟨rfl, declares⟩ := scope_of_mem_scopeRows mem
    exact ⟨declares, by simp [Scope.later]⟩
  rcases SortedMap.get?_insertMany_cases held with mem | ⟨notExternal, held⟩
  · obtain ⟨rfl, declares⟩ := scope_of_mem_scopeRows mem
    rw [mem_keys_scopeRows] at notResolved
    exact ⟨declares, by simpa [Scope.later] using notResolved⟩
  rcases SortedMap.get?_insertMany_cases held with mem | ⟨_, held⟩
  · obtain ⟨rfl, declares⟩ := scope_of_mem_scopeRows mem
    rw [mem_keys_scopeRows] at notResolved notExternal
    exact ⟨declares, by simpa [Scope.later] using ⟨notExternal, notResolved⟩⟩
  · cases held

theorem fill_eq_internal_iff {id : Int64} {scope : Scope} (last : r.DeclaredLast scope id) :
    Fill.ofScope scope = .internal ↔ r.DeclaredLast .internal id := by
  constructor
  · cases scope with
    | internal => exact fun _ => last
    | external | resolved => rintro ⟨⟩
  · intro only
    cases scope with
    | internal => rfl
    | external | resolved => exact absurd last.1 (only.2 _ (by decide))

/-- The methods that are drawn are those of the map of all methods. -/
theorem map_declared (r : Revision) :
    (declared r).map (fun _ entry => entry.2) = r.methodsById := by
  have rows (scope : Scope) :
      (scopeRows r scope).map (fun entry => (entry.1, entry.2.2)) = r.hierarchy.methods scope := by
    unfold scopeRows
    rw [List.map_map]
    exact List.map_id _
  rw [declared_eq, SortedMap.map_insertMany, SortedMap.map_insertMany, SortedMap.map_insertMany,
    rows, rows, rows]
  rfl

theorem get?_methodsById_of_declared {id : Int64} {scope : Scope} {method : Method}
    (held : (declared r).get? id = some (scope, method)) : r.methodsById.get? id = some method := by
  rw [← map_declared, SortedMap.get?_map, held]
  rfl

/-! ### Ends of calls -/

theorem contains_ends_iff {id : Int64} : (ends r).contains id ↔ r.IsEnd id := by
  unfold ends IsEnd
  rw [SortedMap.contains_ofList, List.map_flatMap, List.mem_flatMap]
  simp only [List.map_flatMap, List.mem_flatMap, SortedMap.mem_keys_iff, List.map_cons,
    List.map_nil, List.mem_cons, List.not_mem_nil, or_false]
  constructor
  · rintro ⟨relation, _, pair, held, same⟩
    exact ⟨relation, pair, held, same.imp Eq.symm Eq.symm⟩
  · rintro ⟨relation, pair, held, same⟩
    exact ⟨relation, Relation.mem_all relation, pair, held, same.imp Eq.symm Eq.symm⟩

/-! ### Nodes and edges -/

/-- The ids that are drawn, in the order of their nodes. -/
def drawnIds (r : Revision) : List Int64 :=
  (declared r).keys ++ (ends r).keys.filter fun id => !(declared r).contains id

/-- The calls that are drawn, in the order of their edges. -/
def drawnCalls (r : Revision) : List (Relation × CallPair) :=
  Relation.all.flatMap fun relation => (r.calls.get relation).keys.map (relation, ·)

theorem mem_drawnIds_iff {id : Int64} :
    id ∈ drawnIds r ↔ (∃ scope, r.Declares scope id) ∨ r.IsEnd id := by
  rw [drawnIds, List.mem_append, List.mem_filter, SortedMap.mem_keys_iff, SortedMap.mem_keys_iff,
    contains_ends_iff, ← contains_declared_iff]
  cases (declared r).contains id <;> simp

theorem nodup_drawnIds (r : Revision) : (drawnIds r).Nodup := by
  refine List.nodup_append'.2 ⟨(declared r).nodup_keys, (ends r).nodup_keys.filter _, ?_⟩
  intro id here there
  have undeclared := (List.mem_filter.1 there).2
  rw [SortedMap.mem_keys_iff.1 here] at undeclared
  cases undeclared

theorem mem_drawnCalls_iff {relation : Relation} {pair : CallPair} :
    (relation, pair) ∈ drawnCalls r ↔ (r.calls.get relation).contains pair := by
  unfold drawnCalls
  rw [List.mem_flatMap]
  constructor
  · rintro ⟨_, _, mem⟩
    obtain ⟨_, held, same⟩ := List.mem_map.1 mem
    cases same
    exact SortedMap.mem_keys_iff.1 held
  · intro held
    exact ⟨relation, Relation.mem_all relation,
      List.mem_map.2 ⟨pair, SortedMap.mem_keys_iff.2 held, rfl⟩⟩

theorem nodup_drawnCalls (r : Revision) : (drawnCalls r).Nodup := by
  rw [drawnCalls, List.nodup_flatMap]
  constructor
  · intro relation _
    exact (r.calls.get relation).nodup_keys.map fun _ _ same => congrArg Prod.snd same
  · have relations : Relation.all.Nodup := by decide
    apply relations.imp
    intro relation other apart call here there
    obtain ⟨_, _, rfl⟩ := List.mem_map.1 here
    obtain ⟨_, _, same⟩ := List.mem_map.1 there
    exact apart (congrArg Prod.fst same).symm

/-! ### Lines -/

def nodeLine (id : Int64) (label color : String) : String :=
  "    \"" ++ idText id ++ "\" [label=\"" ++ label ++ "\", fillcolor=\"" ++ color ++ "\"];"

def edgeLine (pair : CallPair) (style : String) (sites : Nat) : String :=
  "    \"" ++ idText pair.caller ++ "\" -> \"" ++ idText pair.callee ++ "\" [style=" ++ style ++
    ", label=\"" ++ integerText sites ++ "\"];"

/-- The line for an id: blue where the last scope that declares a method with the id is that of the
internal types, and else grey. -/
inductive IsNode (r : Revision) (id : Int64) : String → Prop
  | internal {method : Method} (held : r.methodsById.get? id = some method)
      (last : r.DeclaredLast .internal id) :
      IsNode r id (nodeLine id (escaped method.entity) "#89b4fa")
  | other {method : Method} (held : r.methodsById.get? id = some method)
      (notLast : ¬ r.DeclaredLast .internal id) :
      IsNode r id (nodeLine id (escaped method.entity) "#6c7086")
  | undeclared (none : ∀ scope, ¬ r.Declares scope id) :
      IsNode r id (nodeLine id ("#" ++ idText id) "#6c7086")

/-- The line for a call. -/
inductive IsEdge (r : Revision) : Relation × CallPair → String → Prop
  | internal {pair : CallPair} {sites : CallSites}
      (held : r.calls.sites? .internal pair = some sites) :
      IsEdge r (.internal, pair) (edgeLine pair "solid" sites.size)
  | external {pair : CallPair} {sites : CallSites}
      (held : r.calls.sites? .external pair = some sites) :
      IsEdge r (.external, pair) (edgeLine pair "dashed" sites.size)
  | resolved {pair : CallPair} {sites : CallSites}
      (held : r.calls.sites? .resolved pair = some sites) :
      IsEdge r (.resolved, pair) (edgeLine pair "dotted" sites.size)

theorem escaped_idText (id : Int64) : escaped (idText id) = idText id :=
  escaped_eq_self (plain_integerText id.toInt)

theorem escaped_undeclared (id : Int64) : escaped ("#" ++ idText id) = "#" ++ idText id := by
  apply escaped_eq_self
  rw [String.toList_append]
  exact List.forall_mem_cons.2 ⟨by decide, plain_integerText id.toInt⟩

theorem text_node (id : Int64) (label : String) (fill : Fill) :
    (Statement.node id label fill).text = nodeLine id (escaped label) fill.color := by
  have color : escaped fill.color = fill.color := by
    cases fill <;> decide
  unfold Statement.text nodeLine
  simp only [quoted_eq, escaped_idText, color]
  apply String.toList_injective
  simp

theorem text_edge (pair : CallPair) (relation : Relation) (sites : Nat) :
    (Statement.edge pair relation sites).text = edgeLine pair (styleName relation) sites := by
  have count : escaped (integerText sites) = integerText sites :=
    escaped_eq_self (plain_integerText sites)
  unfold Statement.text edgeLine
  simp only [quoted_eq, escaped_idText, count]
  apply String.toList_injective
  simp

theorem isNode_declared {id : Int64} {scope : Scope} {method : Method}
    (held : (declared r).get? id = some (scope, method)) :
    IsNode r id (Statement.node id method.entity (.ofScope scope)).text := by
  have byId := get?_methodsById_of_declared held
  have fill := fill_eq_internal_iff (declaredLast_of_get? held)
  rw [text_node]
  cases scope with
  | internal => exact .internal byId (fill.1 rfl)
  | external | resolved => exact .other byId fun last => by cases fill.2 last

theorem isNode_undeclared {id : Int64} (absent : (declared r).contains id = false) :
    IsNode r id (Statement.node id ("#" ++ idText id) .other).text := by
  rw [text_node, escaped_undeclared]
  refine .undeclared fun scope declares => ?_
  rw [contains_declared_iff.2 ⟨scope, declares⟩] at absent
  cases absent

theorem isEdge_text {pair : CallPair} {relation : Relation} {sites : CallSites}
    (held : r.calls.sites? relation pair = some sites) :
    IsEdge r (relation, pair) (Statement.edge pair relation sites.size).text := by
  rw [text_edge]
  cases relation with
  | internal => exact .internal held
  | external => exact .external held
  | resolved => exact .resolved held

theorem forall₂_isNode (r : Revision) :
    List.Forall₂ (IsNode r) (drawnIds r) ((nodes r).map Statement.text) := by
  unfold drawnIds nodes declaredNodes undeclaredNodes SortedMap.keys
  rw [List.map_append, List.map_map, List.map_map]
  apply List.rel_append
  · rw [List.forall₂_map_left_iff, List.forall₂_map_right_iff, List.forall₂_same]
    rintro ⟨id, scope, method⟩ mem
    exact isNode_declared (SortedMap.mem_toList_iff.1 mem)
  · rw [List.forall₂_map_right_iff, List.forall₂_same]
    intro id mem
    exact isNode_undeclared (by simpa using (List.mem_filter.1 mem).2)

theorem forall₂_isEdge (r : Revision) :
    List.Forall₂ (IsEdge r) (drawnCalls r) ((edges r).map Statement.text) := by
  unfold drawnCalls edges SortedMap.keys
  rw [List.map_flatMap]
  refine List.rel_flatMap (List.forall₂_same.2 fun _ _ => rfl) ?_
  rintro relation _ rfl
  simp only [List.map_map, List.forall₂_map_left_iff, List.forall₂_map_right_iff,
    List.forall₂_same]
  rintro ⟨pair, sites⟩ mem
  exact isEdge_text (SortedMap.mem_toList_iff.1 mem)

/-! ### The drawing -/

/-- The nodes and edges that a drawing of a revision has to have, each once, and no others. -/
structure Draws (r : Revision) (ids : List Int64) (calls : List (Relation × CallPair))
    (nodeLines edgeLines : List String) : Prop where
  nodesOnce : ids.Nodup
  nodesOf : ∀ id, id ∈ ids ↔ (∃ scope, r.Declares scope id) ∨ r.IsEnd id
  nodes : List.Forall₂ (IsNode r) ids nodeLines
  edgesOnce : calls.Nodup
  edgesOf : ∀ relation pair, (relation, pair) ∈ calls ↔ (r.calls.get relation).contains pair
  edges : List.Forall₂ (IsEdge r) calls edgeLines
  ends : ∀ relation pair, (relation, pair) ∈ calls → pair.caller ∈ ids ∧ pair.callee ∈ ids

theorem draws_lines (r : Revision) :
    Draws r (drawnIds r) (drawnCalls r) ((nodes r).map Statement.text)
      ((edges r).map Statement.text) where
  nodesOnce := nodup_drawnIds r
  nodesOf _ := mem_drawnIds_iff
  nodes := forall₂_isNode r
  edgesOnce := nodup_drawnCalls r
  edgesOf _ _ := mem_drawnCalls_iff
  edges := forall₂_isEdge r
  ends relation pair drawn := by
    have held := mem_drawnCalls_iff.1 drawn
    exact ⟨mem_drawnIds_iff.2 (.inr ⟨relation, pair, held, .inl rfl⟩),
      mem_drawnIds_iff.2 (.inr ⟨relation, pair, held, .inr rfl⟩)⟩

/-- A statement about an id or two starts with the first in quotes. -/
def startQuoted : List Char := "    \"".toList

theorem not_startQuoted_frame (r : Revision) :
    ∀ line ∈ heading r ++ ["", "\x7d"], ¬ startQuoted <+: line.toList := by
  have named : ¬ startQuoted <+: ("    label=" ++ quoted r.uri.text ++ ";").toList := by
    intro start
    rw [String.append_assoc, String.toList_append] at start
    have front : startQuoted <+: "    label=".toList :=
      List.prefix_of_prefix_length_le start (List.prefix_append _ _) (by decide)
    exact absurd front (by decide)
  simp only [heading, List.cons_append, List.nil_append, List.forall_mem_cons]
  refine ⟨by decide, by decide, named, by decide, by decide, by decide, by decide, ?_⟩
  exact List.forall_mem_nil _

/-- A drawing has a line for each node and for each call of the revision, and no other of its lines
starts with a quoted id. -/
theorem text_draws (r : Revision) :
    ∃ ids calls nodeLines edgeLines, Draws r ids calls nodeLines edgeLines ∧
      text r = "\n".intercalate (heading r ++ nodeLines ++ [""] ++ edgeLines ++ ["\x7d"]) ∧
      ∀ line ∈ heading r ++ ["", "\x7d"], ¬ startQuoted <+: line.toList :=
  ⟨_, _, _, _, draws_lines r, rfl, not_startQuoted_frame r⟩

end Dot

end RevisionGraph
