import RevisionGraph.Proofs.Hierarchy.Lookup

/-!
# Built hierarchies

What can be made of types and method tables by the operations of a hierarchy is partitioned, and
every table in it is in step: `Hierarchy.Built.partitioned` and `Hierarchy.Built.table`.
-/

namespace RevisionGraph.Hierarchy

inductive Edit where
  | insert (scope : Scope) (uri : Uri) (type : TypeDecl)
  | remove (scope : Scope) (uri : Uri)
  | move (uri : Uri) (source target : Scope)
  | addMethod (scope : Scope) (uri : Uri) (method : Method) (candidate : Int64)

/-- The hierarchy after an edit; an edit of a type that is not there changes nothing. -/
def edit (h : Hierarchy) : Edit → Hierarchy
  | .insert scope uri type => (h.insert scope uri type).2
  | .remove scope uri => h.remove scope uri
  | .move uri source target => (h.move uri source target).toOption.getD h
  | .addMethod scope uri method candidate =>
    ((h.addMethod? scope uri method candidate).map Prod.snd).getD h

/-- The methods of a type that is inserted were inserted into its table. -/
def Edit.Proper : Edit → Prop
  | .insert _ _ type => type.methods.Built
  | _ => True

inductive Built : Hierarchy → Prop where
  | empty : Built ∅
  | ofScopes {internal external resolved : TypeMap} {h : Hierarchy}
      (tables : ∀ types ∈ [internal, external, resolved], ∀ uri type,
        types.get? uri = some type → type.methods.Built)
      (ok : ofScopes internal external resolved = .ok h) : Built h
  | edit {h : Hierarchy} {e : Edit} (built : Built h) (proper : e.Proper) : Built (h.edit e)

variable {h : Hierarchy}

theorem edit_move_of_ok {uri : Uri} {source target : Scope} {moved : Hierarchy}
    (ok : h.move uri source target = .ok moved) : h.edit (.move uri source target) = moved := by
  show (h.move uri source target).toOption.getD h = moved
  rw [ok]
  rfl

theorem edit_addMethod_of_some {scope : Scope} {uri : Uri} {method : Method}
    {candidate id : Int64} {added : Hierarchy}
    (ok : h.addMethod? scope uri method candidate = some (id, added)) :
    h.edit (.addMethod scope uri method candidate) = added := by
  show ((h.addMethod? scope uri method candidate).map Prod.snd).getD h = added
  rw [ok]
  rfl

/-- An edit leaves the hierarchy, or does what the operation does where it succeeds. -/
theorem edit_cases (h : Hierarchy) (e : Edit) :
    (∃ scope uri type, e = .insert scope uri type ∧ h.edit e = (h.insert scope uri type).2) ∨
      (∃ scope uri, e = .remove scope uri ∧ h.edit e = h.remove scope uri) ∨
      (∃ uri source target, e = .move uri source target ∧
        h.move uri source target = .ok (h.edit e)) ∨
      (∃ scope uri method candidate id, e = .addMethod scope uri method candidate ∧
        h.addMethod? scope uri method candidate = some (id, h.edit e)) ∨
      h.edit e = h := by
  cases e with
  | insert scope uri type => exact .inl ⟨scope, uri, type, rfl, rfl⟩
  | remove scope uri => exact .inr (.inl ⟨scope, uri, rfl, rfl⟩)
  | move uri source target =>
    cases moved : h.move uri source target with
    | ok next =>
      exact .inr (.inr (.inl ⟨uri, source, target, rfl, (edit_move_of_ok moved).symm ▸ moved⟩))
    | error failure =>
      refine .inr (.inr (.inr (.inr ?_)))
      show (h.move uri source target).toOption.getD h = h
      rw [moved]
      rfl
  | addMethod scope uri method candidate =>
    cases added : h.addMethod? scope uri method candidate with
    | some next =>
      refine .inr (.inr (.inr (.inl ⟨scope, uri, method, candidate, next.1, rfl, ?_⟩)))
      rw [edit_addMethod_of_some added, added]
    | none =>
      refine .inr (.inr (.inr (.inr ?_)))
      show ((h.addMethod? scope uri method candidate).map Prod.snd).getD h = h
      rw [added]
      rfl

theorem Partitioned.edit (parted : h.Partitioned) (e : Edit) : (h.edit e).Partitioned := by
  rcases h.edit_cases e with ⟨scope, uri, type, _, after⟩ | ⟨scope, uri, _, after⟩ |
    ⟨uri, source, target, _, moved⟩ | ⟨scope, uri, method, candidate, id, _, added⟩ | after
  · rw [after]
    exact parted.insert scope uri type
  · rw [after]
    exact parted.remove scope uri
  · exact parted.move moved
  · exact parted.addMethod? added
  · rwa [after]

theorem Built.partitioned (built : h.Built) : h.Partitioned := by
  induction built with
  | empty => exact partitioned_empty
  | ofScopes _ ok => exact partitioned_of_ofScopes ok
  | edit _ _ ih => exact ih.edit _

/-- The table of every type was built by inserting methods. -/
def TablesBuilt (h : Hierarchy) : Prop :=
  ∀ scope uri type, h.type? scope uri = some type → type.methods.Built

theorem TablesBuilt.move (tables : h.TablesBuilt) {uri : Uri} {source target : Scope}
    {moved : Hierarchy} (ok : h.move uri source target = .ok moved) : moved.TablesBuilt := by
  unfold Hierarchy.move at ok
  split at ok <;> rename_i held
  · cases ok
    exact (AllTypes.remove tables source uri).put target uri (tables source uri _ held)
  · cases ok

theorem TablesBuilt.addMethod? (tables : h.TablesBuilt) {scope : Scope} {uri : Uri}
    {method : Method} {candidate id : Int64} {added : Hierarchy}
    (ok : h.addMethod? scope uri method candidate = some (id, added)) : added.TablesBuilt := by
  obtain ⟨type, held, made⟩ := Option.map_eq_some_iff.1 ok
  cases made
  exact AllTypes.put tables scope uri ((tables scope uri type held).insert method candidate)

theorem TablesBuilt.edit (tables : h.TablesBuilt) {e : Edit} (proper : e.Proper) :
    (h.edit e).TablesBuilt := by
  rcases h.edit_cases e with ⟨scope, uri, type, rfl, after⟩ | ⟨scope, uri, _, after⟩ |
    ⟨uri, source, target, _, moved⟩ | ⟨scope, uri, method, candidate, id, _, added⟩ | after
  · rw [after]
    exact AllTypes.insert tables scope uri proper
  · rw [after]
    exact AllTypes.remove tables scope uri
  · exact tables.move moved
  · exact tables.addMethod? added
  · rwa [after]

theorem ofScopes_eq_ok_iff {internal external resolved : TypeMap} :
    ofScopes internal external resolved = .ok h ↔
      h = ⟨internal, external, resolved⟩ ∧ h.Partitioned := by
  rw [ofScopes]
  split <;> rename_i conflicts
  · rw [Except.ok.injEq, eq_comm]
    refine ⟨fun same => ⟨same, same ▸ conflicts_eq_nil_iff.1 conflicts⟩, And.left⟩
  · constructor
    · intro ok
      cases ok
    · rintro ⟨rfl, parted⟩
      rw [conflicts_eq_nil_iff.2 parted] at conflicts
      cases conflicts

theorem tablesBuilt_of_ofScopes {internal external resolved : TypeMap}
    (tables : ∀ types ∈ [internal, external, resolved], ∀ uri type,
      types.get? uri = some type → type.methods.Built)
    (ok : ofScopes internal external resolved = .ok h) : h.TablesBuilt := by
  obtain ⟨rfl, _⟩ := ofScopes_eq_ok_iff.1 ok
  intro scope uri type held
  cases scope with
  | internal => exact tables internal (by simp) uri type held
  | external => exact tables external (by simp) uri type held
  | resolved => exact tables resolved (by simp) uri type held

theorem Built.tablesBuilt (built : h.Built) : h.TablesBuilt := by
  induction built with
  | empty => exact allTypes_empty
  | ofScopes tables ok => exact tablesBuilt_of_ofScopes tables ok
  | edit _ proper ih => exact ih.edit proper

theorem Built.table (built : h.Built) {scope : Scope} {uri : Uri} {type : TypeDecl}
    (held : h.type? scope uri = some type) : type.methods.InStep :=
  (built.tablesBuilt scope uri type held).inStep

/-! ### Operations as edits -/

theorem Built.insert (built : h.Built) (scope : Scope) (uri : Uri) {type : TypeDecl}
    (methods : type.methods.Built) : (h.insert scope uri type).2.Built := by
  have proper : (Edit.insert scope uri type).Proper := methods
  exact built.edit proper

theorem Built.remove (built : h.Built) (scope : Scope) (uri : Uri) :
    (h.remove scope uri).Built := by
  have proper : (Edit.remove scope uri).Proper := trivial
  exact built.edit proper

theorem Built.move (built : h.Built) {uri : Uri} {source target : Scope} {moved : Hierarchy}
    (ok : h.move uri source target = .ok moved) : moved.Built := by
  have proper : (Edit.move uri source target).Proper := trivial
  exact edit_move_of_ok ok ▸ built.edit proper

theorem Built.addMethod? (built : h.Built) {scope : Scope} {uri : Uri} {method : Method}
    {candidate id : Int64} {added : Hierarchy}
    (ok : h.addMethod? scope uri method candidate = some (id, added)) : added.Built := by
  have proper : (Edit.addMethod scope uri method candidate).Proper := trivial
  exact edit_addMethod_of_some ok ▸ built.edit proper

end RevisionGraph.Hierarchy
