import RevisionGraph.Proofs.Assembly.Outcome
import RevisionGraph.Proofs.Assembly.Places

/-!
# Ledgers describe assemblers

An assembler holds what its ledger says, where the ledger puts it: `Ledger.Describes`. It goes on to
do so if a type is declared: `Ledger.Describes.enterType`.
-/

namespace RevisionGraph

namespace Ledger

structure Describes (l : Ledger) (a : Assembler) : Prop where
  nextId : a.nextId = Int64.ofNat l.rows.length
  types : ∀ scope home, a.hierarchy.type? scope home =
    if l.scopeOf? home = some scope then some (l.typeOf home) else none
  calls : ∀ relation pair, a.calls.sites? relation pair = l.pairSites? relation pair

theorem describes_empty : Ledger.empty.Describes .empty where
  nextId := rfl
  types scope home := Hierarchy.type?_empty scope home
  calls relation pair := by
    rw [pairSites?_of_no_caller rfl]
    cases relation <;> rfl

variable {l : Ledger} {a : Assembler}

theorem Describes.type?_of_scope (d : l.Describes a) {scope : Scope} {home : Uri}
    (here : l.scopeOf? home = some scope) :
    a.hierarchy.type? scope home = some (l.typeOf home) := by
  rw [d.types, if_pos here]

theorem Describes.type?_eq_some_iff (d : l.Describes a) {scope : Scope} {home : Uri}
    {type : TypeDecl} : a.hierarchy.type? scope home = some type ↔
      l.scopeOf? home = some scope ∧ type = l.typeOf home := by
  rw [d.types]
  split <;> rename_i here
  · simp [here, eq_comm]
  · simp [here]

theorem Describes.partitioned (d : l.Describes a) : a.hierarchy.Partitioned := by
  intro scope other home held also
  obtain ⟨_, held⟩ := Hierarchy.contains_iff.1 held
  obtain ⟨_, also⟩ := Hierarchy.contains_iff.1 also
  have left := (d.type?_eq_some_iff.1 held).1
  have right := (d.type?_eq_some_iff.1 also).1
  exact Option.some.inj (left.symm.trans right)

theorem Describes.scopeOf? (d : l.Describes a) (home : Uri) :
    a.hierarchy.scopeOf? home = l.scopeOf? home := by
  cases found : l.scopeOf? home with
  | none =>
    apply Hierarchy.scopeOf?_eq_none_iff.2
    intro scope
    rw [d.types, found, if_neg (by simp)]
  | some scope => exact d.partitioned.scopeOf?_eq_some (d.type?_of_scope found)

theorem Describes.unresolved (d : l.Describes a) (home : Uri) :
    a.hierarchy.type? .resolved home = none := by
  rw [d.types, if_neg (l.scopeOf?_ne_resolved home)]

theorem Describes.mem_methods_iff (d : l.Describes a) (sound : l.Sound)
    (few : l.rows.length < 2 ^ 63) {scope : Scope} {id : Int64} {method : Method} :
    (id, method) ∈ a.hierarchy.methods scope ↔
      (id, method) ∈ l.rows ∧ scope = l.methodScope method.uri := by
  rw [Hierarchy.mem_methods_iff]
  constructor
  · rintro ⟨home, type, held, row⟩
    obtain ⟨here, rfl⟩ := d.type?_eq_some_iff.1 held
    obtain ⟨held, homed⟩ :=
      mem_rowsOf_iff.1 ((MethodTable.get?_ofList (sound.distinctOf few home)).1 row)
    exact ⟨held, Option.some.inj (here.symm.trans (scopeOf?_of_row held homed))⟩
  · rintro ⟨held, rfl⟩
    obtain ⟨home, homed⟩ := sound.homes _ held
    refine ⟨home, l.typeOf home, d.type?_of_scope (scopeOf?_of_row held homed), ?_⟩
    exact (MethodTable.get?_ofList (sound.distinctOf few home)).2 (mem_rowsOf_iff.2 ⟨held, homed⟩)

theorem Describes.mem_ids_iff (d : l.Describes a) (sound : l.Sound)
    (few : l.rows.length < 2 ^ 63) {scope : Scope} {id : Int64} :
    id ∈ a.hierarchy.ids scope ↔
      ∃ method, (id, method) ∈ l.rows ∧ scope = l.methodScope method.uri := by
  unfold Hierarchy.ids
  simp only [List.mem_map, Prod.exists, exists_and_right, exists_eq_right,
    d.mem_methods_iff sound few]

theorem Describes.contains_calls_iff (d : l.Describes a) {relation : Relation} {pair : CallPair} :
    (a.calls.get relation).contains pair ↔ ∃ sites, l.pairSites? relation pair = some sites := by
  rw [SortedMap.contains_iff, ← d.calls]
  rfl

/-! ### Declaring a type -/

theorem Describes.promoted_of_external (d : l.Describes a) (sound : l.Sound)
    (few : l.rows.length < 2 ^ 63) {uri : Uri} (outside : l.scopeOf? uri = some .external) :
    (l.declare uri .placeholder).Describes (a.promoted uri) := by
  have undeclared := (scopeOf?_eq_external_iff.1 outside).1
  have held := d.type?_of_scope outside
  have shape : l.typeOf uri = { TypeDecl.placeholder with methods := .ofList (l.rowsOf uri) } := by
    unfold typeOf
    rw [get?_types_of_undeclared undeclared]
    rfl
  have ids {id : Int64} : id ∈ (l.typeOf uri).methods.ids ↔ id ∈ (l.rowsOf uri).map Prod.fst := by
    rw [MethodTable.mem_ids_iff, shape, List.mem_map]
    constructor
    · rintro ⟨method, row⟩
      exact ⟨_, (MethodTable.get?_ofList (sound.distinctOf few uri)).1 row, rfl⟩
    · rintro ⟨row, mem, rfl⟩
      exact ⟨row.2, (MethodTable.get?_ofList (sound.distinctOf few uri)).2 mem⟩
  rw [Assembler.promoted_of_outside ((d.scopeOf? uri).trans outside) (by simp) held]
  refine ⟨d.nextId, ?_, ?_⟩
  · intro scope home
    show Hierarchy.type? _ scope home = _
    rw [Hierarchy.type?_put, Hierarchy.type?_remove, d.types, scopeOf?_declare, typeOf_declare,
      ← shape]
    by_cases here : home = uri
    · subst here
      rw [outside]
      cases scope <;> simp
    · simp [here]
  · intro relation pair
    show (Assembler.internalize _ _).sites? relation pair = _
    rw [Assembler.sites?_internalize, sound.pairSites?_declare few]
    simp only [ids, d.calls]
    split
    · cases relation with
      | internal | external => rfl
      | resolved => exact l.pairSites?_resolved pair
    · rfl

/-- Nothing is called in a type that is unknown or internal. -/
theorem Sound.pairSites?_declare_of_not_external (sound : l.Sound) (few : l.rows.length < 2 ^ 63)
    {uri : Uri} (inside : l.scopeOf? uri ≠ some .external) (header : TypeDecl)
    (relation : Relation) (pair : CallPair) :
    (l.declare uri header).pairSites? relation pair = l.pairSites? relation pair := by
  rw [sound.pairSites?_declare few]
  by_cases called : pair.callee ∈ (l.rowsOf uri).map Prod.fst
  · obtain ⟨⟨id, callee⟩, mem, rfl⟩ := List.mem_map.1 called
    obtain ⟨held, homed⟩ := mem_rowsOf_iff.1 mem
    have declared : l.types.contains uri := by
      by_contra undeclared
      exact inside (scopeOf?_eq_external_iff.2
        ⟨Bool.eq_false_iff.2 undeclared, List.ne_nil_of_mem mem⟩)
    have internal : l.relationOf callee.uri = .internal := by
      unfold relationOf
      rw [isDeclared_of_home homed, if_pos declared]
    have nowhere (relation : Relation) (other : relation ≠ .internal) :
        l.pairSites? relation pair = none := by
      apply Option.eq_none_iff_forall_ne_some.2
      intro sites found
      obtain ⟨_, _, _, second, belongs, _⟩ := (sound.pairSites?_eq_some_iff few).1 found
      have same := ((sound.distinct few).row_eq second held).1 rfl
      cases same
      exact other (belongs.trans internal)
    rw [if_pos called]
    cases relation with
    | internal =>
      rw [nowhere .external (by simp)]
      rfl
    | external | resolved => exact (nowhere _ (by simp)).symm
  · rw [if_neg called]

theorem Describes.declared (d : l.Describes a) (sound : l.Sound) (few : l.rows.length < 2 ^ 63)
    {uri : Uri} (inside : l.scopeOf? uri ≠ some .external) (header : TypeDecl) :
    (l.declare uri header).Describes (a.declared uri header) := by
  have methods : ((a.hierarchy.type? .internal uri).map TypeDecl.methods).getD ∅ =
      .ofList (l.rowsOf uri) := by
    cases found : l.scopeOf? uri with
    | none =>
      rw [d.types, found, (scopeOf?_eq_none_iff.1 found).2]
      rfl
    | some scope =>
      cases scope with
      | internal =>
        rw [d.type?_of_scope found]
        rfl
      | external => exact absurd found inside
      | resolved => exact absurd found (l.scopeOf?_ne_resolved uri)
  have after : a.declared uri header =
      { a with
        hierarchy := ((a.hierarchy.remove .internal uri).insert .internal uri
          { header with methods := .ofList (l.rowsOf uri) }).2 } := by
    unfold Assembler.declared
    rw [methods]
  rw [after]
  refine ⟨d.nextId, ?_, ?_⟩
  · intro scope home
    show Hierarchy.type? _ scope home = _
    rw [(d.partitioned.remove .internal uri).type?_insert, Hierarchy.type?_remove, d.types,
      scopeOf?_declare, typeOf_declare]
    by_cases here : home = uri
    · subst here
      simp only [if_true, Option.some.injEq]
      cases scope <;> rfl
    · simp [here]
  · intro relation pair
    rw [sound.pairSites?_declare_of_not_external few inside]
    exact d.calls relation pair

theorem Describes.promoted_of_not_external (d : l.Describes a) {uri : Uri}
    (inside : l.scopeOf? uri ≠ some .external) : a.promoted uri = a := by
  apply Assembler.promoted_of_inside
  intro scope found
  rw [d.scopeOf?] at found
  cases scope with
  | internal => rfl
  | external => exact absurd found inside
  | resolved => exact absurd found (l.scopeOf?_ne_resolved uri)

theorem Describes.enterType (d : l.Describes a) (sound : l.Sound) (few : l.rows.length < 2 ^ 63)
    (uri : Uri) (header : TypeDecl) :
    (l.declare uri header).Describes (a.enterType uri header) := by
  unfold Assembler.enterType
  by_cases outside : l.scopeOf? uri = some .external
  · have promoted := d.promoted_of_external sound few outside
    have inside : (l.declare uri .placeholder).scopeOf? uri ≠ some .external := by
      simp [scopeOf?_declare]
    rw [← l.declare_declare uri .placeholder header]
    exact promoted.declared (sound.declare uri _) few inside header
  · rw [d.promoted_of_not_external outside]
    exact d.declared sound few outside header

end Ledger

end RevisionGraph
