import RevisionGraph.Proofs.Hierarchy.Built
import RevisionGraph.Proofs.Ordered.Distinct

/-!
# Placements

A hierarchy stands for one map, which holds every type together with its scope. Every operation of
the hierarchy does to its three maps what the same operation on the one map would do:
`Hierarchy.mapped_edits`.
-/

namespace RevisionGraph

/-- The types of a hierarchy by URI, each with the scope that holds it. -/
abbrev Placement := SortedMap Uri (Scope × TypeDecl)

namespace Placement

def scopeOf? (m : Placement) (uri : Uri) : Option Scope := (m.get? uri).map Prod.fst

def type? (m : Placement) (scope : Scope) (uri : Uri) : Option TypeDecl :=
  ((m.get? uri).filter fun (held, _) => held = scope).map Prod.snd

def insert (m : Placement) (scope : Scope) (uri : Uri) (type : TypeDecl) :
    Option TypeDecl × Placement :=
  ((m.get? uri).map Prod.snd, SortedMap.insert m uri (scope, type))

def remove (m : Placement) (scope : Scope) (uri : Uri) : Placement :=
  if m.scopeOf? uri = some scope then m.erase uri else m

def move (m : Placement) (uri : Uri) (source target : Scope) : Except Error Placement :=
  match m.type? source uri with
  | some type => .ok (SortedMap.insert m uri (target, type))
  | none => .error (.typeNotFound uri.text source)

def addMethod? (m : Placement) (scope : Scope) (uri : Uri) (method : Method) (candidate : Int64) :
    Option (Int64 × Placement) :=
  (m.type? scope uri).map fun type =>
    let (id, type) := type.addMethod method candidate
    (id, SortedMap.insert m uri (scope, type))

def edit (m : Placement) : Hierarchy.Edit → Placement
  | .insert scope uri type => (m.insert scope uri type).2
  | .remove scope uri => m.remove scope uri
  | .move uri source target => (m.move uri source target).toOption.getD m
  | .addMethod scope uri method candidate =>
    ((m.addMethod? scope uri method candidate).map Prod.snd).getD m

theorem type?_eq_some_iff {m : Placement} {scope : Scope} {uri : Uri} {type : TypeDecl} :
    m.type? scope uri = some type ↔ m.get? uri = some (scope, type) := by
  unfold type?
  constructor
  · intro held
    obtain ⟨⟨_, _⟩, found, rfl⟩ := Option.map_eq_some_iff.1 held
    obtain ⟨found, here⟩ := Option.filter_eq_some_iff.1 found
    rw [found, of_decide_eq_true here]
  · intro found
    simp [found]

end Placement

namespace Hierarchy

variable {h : Hierarchy}

def placed (h : Hierarchy) (scope : Scope) : List (Uri × Scope × TypeDecl) :=
  (h.get scope).toList.map fun (uri, type) => (uri, scope, type)

def placement (h : Hierarchy) : Placement := .ofList (Scope.all.flatMap h.placed)

theorem mem_placed_iff {scope held : Scope} {uri : Uri} {type : TypeDecl} :
    (uri, held, type) ∈ h.placed scope ↔ held = scope ∧ h.type? scope uri = some type := by
  unfold placed
  rw [List.mem_map]
  constructor
  · rintro ⟨⟨_, _⟩, mem, ⟨⟩⟩
    exact ⟨rfl, SortedMap.mem_toList_iff.1 mem⟩
  · rintro ⟨rfl, found⟩
    exact ⟨(uri, type), SortedMap.mem_toList_iff.2 found, rfl⟩

theorem keys_placed (h : Hierarchy) (scope : Scope) :
    (h.placed scope).map Prod.fst = (h.get scope).keys := by
  unfold placed
  rw [List.map_map]
  rfl

/-- The partition is what makes three maps one. -/
theorem Partitioned.nodup_placed (parted : h.Partitioned) :
    ((Scope.all.flatMap h.placed).map Prod.fst).Nodup := by
  rw [List.map_flatMap]
  simp only [keys_placed]
  refine List.nodup_flatMap.2 ⟨fun scope _ => (h.get scope).nodup_keys, ?_⟩
  have apart : Scope.all.Nodup := by decide
  refine apart.imp fun {scope other} differ uri here there => differ ?_
  exact parted scope other uri (SortedMap.mem_keys_iff.1 here) (SortedMap.mem_keys_iff.1 there)

theorem Partitioned.get?_placement (parted : h.Partitioned) {scope : Scope} {uri : Uri}
    {type : TypeDecl} :
    h.placement.get? uri = some (scope, type) ↔ h.type? scope uri = some type := by
  rw [← SortedMap.mem_toList_iff, placement, SortedMap.mem_toList_ofList parted.nodup_placed,
    List.mem_flatMap]
  constructor
  · rintro ⟨_, _, mem⟩
    obtain ⟨rfl, held⟩ := mem_placed_iff.1 mem
    exact held
  · intro held
    exact ⟨scope, scope.mem_all, mem_placed_iff.2 ⟨rfl, held⟩⟩

/-! ### What is looked up -/

theorem Partitioned.type?_placement (parted : h.Partitioned) (scope : Scope) (uri : Uri) :
    h.placement.type? scope uri = h.type? scope uri := by
  apply Option.ext
  intro type
  rw [Placement.type?_eq_some_iff, parted.get?_placement]

theorem Partitioned.scopeOf?_placement (parted : h.Partitioned) (uri : Uri) :
    h.placement.scopeOf? uri = h.scopeOf? uri := by
  apply Option.ext
  intro scope
  unfold Placement.scopeOf?
  rw [Option.map_eq_some_iff]
  constructor
  · rintro ⟨⟨_, type⟩, found, rfl⟩
    exact parted.scopeOf?_eq_some (parted.get?_placement.1 found)
  · intro found
    obtain ⟨type, held⟩ := type?_of_scopeOf? found
    exact ⟨(scope, type), parted.get?_placement.2 held, rfl⟩

theorem Partitioned.size_placement (parted : h.Partitioned) : h.placement.size = h.typeCount := by
  have length := (SortedMap.perm_toList_ofList parted.nodup_placed).length_eq
  rw [List.length_flatMap] at length
  simp only [placed, List.length_map] at length
  exact length

/-! ### What is changed -/

/-- The hierarchies hold the same under all other URIs. -/
def SameBut (uri : Uri) (h next : Hierarchy) : Prop :=
  ∀ scope other, other ≠ uri → next.type? scope other = h.type? scope other

def Edit.uri : Edit → Uri
  | .insert _ uri _ => uri
  | .remove _ uri => uri
  | .move uri _ _ => uri
  | .addMethod _ uri _ _ => uri

variable {next : Hierarchy} {scope : Scope} {uri : Uri} {type : TypeDecl}

theorem sameBut_put (h : Hierarchy) (scope : Scope) (uri : Uri) (type : TypeDecl) :
    h.SameBut uri (h.put scope uri type) := by
  intro scope' other apart
  rw [type?_put, if_neg fun both => apart both.2]

theorem sameBut_remove (h : Hierarchy) (scope : Scope) (uri : Uri) :
    h.SameBut uri (h.remove scope uri) := by
  intro scope' other apart
  rw [type?_remove, if_neg fun both => apart both.2]

theorem SameBut.put (same : h.SameBut uri next) (scope : Scope) (type : TypeDecl) :
    h.SameBut uri (next.put scope uri type) :=
  fun scope' other apart =>
    (next.sameBut_put scope uri type scope' other apart).trans (same scope' other apart)

theorem sameBut_insert (h : Hierarchy) (scope : Scope) (uri : Uri) (type : TypeDecl) :
    h.SameBut uri (h.insert scope uri type).2 := by
  unfold Hierarchy.insert
  split
  · exact (h.sameBut_remove _ uri).put scope type
  · exact h.sameBut_put scope uri type

theorem sameBut_move {uri : Uri} {source target : Scope} {moved : Hierarchy}
    (ok : h.move uri source target = .ok moved) : h.SameBut uri moved := by
  unfold Hierarchy.move at ok
  split at ok
  · cases ok
    exact (h.sameBut_remove source uri).put target _
  · cases ok

theorem sameBut_addMethod? {method : Method} {candidate id : Int64} {added : Hierarchy}
    (ok : h.addMethod? scope uri method candidate = some (id, added)) : h.SameBut uri added := by
  obtain ⟨type, _, made⟩ := Option.map_eq_some_iff.1 ok
  cases made
  exact h.sameBut_put scope uri _

theorem sameBut_edit (h : Hierarchy) (e : Edit) : h.SameBut e.uri (h.edit e) := by
  rcases h.edit_cases e with ⟨scope, uri, type, rfl, after⟩ | ⟨scope, uri, rfl, after⟩ |
    ⟨uri, source, target, rfl, moved⟩ | ⟨scope, uri, method, candidate, id, rfl, added⟩ | after
  · rw [after]
    exact h.sameBut_insert scope uri type
  · rw [after]
    exact h.sameBut_remove scope uri
  · exact sameBut_move moved
  · exact sameBut_addMethod? added
  · rw [after]
    exact fun _ _ _ => rfl

/-- A type that is held after a change of its URI alone is the one that was placed. -/
theorem Partitioned.placement_eq_insert (parted : h.Partitioned) (after : next.Partitioned)
    (same : h.SameBut uri next) (held : next.type? scope uri = some type) :
    next.placement = SortedMap.insert h.placement uri (scope, type) := by
  apply SortedMap.ext_get?
  intro other
  apply Option.ext
  rintro ⟨scope', type'⟩
  rw [SortedMap.get?_insert, after.get?_placement]
  by_cases here : other = uri
  · subst here
    rw [if_pos rfl, Option.some.injEq, Prod.mk.injEq]
    constructor
    · intro also
      obtain rfl := after.scope_eq held also
      exact ⟨rfl, Option.some.inj (held.symm.trans also)⟩
    · rintro ⟨rfl, rfl⟩
      exact held
  · rw [if_neg here, parted.get?_placement, same scope' other here]

theorem Partitioned.placement_eq_erase (parted : h.Partitioned) (after : next.Partitioned)
    (same : h.SameBut uri next) (absent : next.scopeOf? uri = none) :
    next.placement = h.placement.erase uri := by
  apply SortedMap.ext_get?
  intro other
  apply Option.ext
  rintro ⟨scope', type'⟩
  rw [SortedMap.get?_erase, after.get?_placement]
  by_cases here : other = uri
  · subst here
    rw [if_pos rfl, scopeOf?_eq_none_iff.1 absent]
    exact iff_of_false (by simp) (by simp)
  · rw [if_neg here, parted.get?_placement, same scope' other here]

/-! ### The operations -/

theorem Partitioned.placement_insert (parted : h.Partitioned) (scope : Scope) (uri : Uri)
    (type : TypeDecl) :
    (h.insert scope uri type).2.placement = (h.placement.insert scope uri type).2 :=
  parted.placement_eq_insert (parted.insert scope uri type) (h.sameBut_insert scope uri type)
    (h.type?_insert_self scope uri type)

theorem Partitioned.fst_insert_eq_some_iff (parted : h.Partitioned) {before : TypeDecl} :
    (h.insert scope uri type).1 = some before ↔ ∃ held, h.type? held uri = some before := by
  unfold Hierarchy.insert
  split <;> rename_i found
  · rename_i rival
    obtain ⟨apart, held⟩ := rival?_eq_some found
    obtain ⟨type', held⟩ := Option.isSome_iff_exists.1 held
    have absent : h.type? scope uri = none :=
      Option.eq_none_iff_forall_ne_some.2 fun _ also => apart (parted.scope_eq held also)
    show (h.type? scope uri).or (h.type? rival uri) = some before ↔ _
    rw [absent, Option.none_or]
    refine ⟨fun before => ⟨rival, before⟩, ?_⟩
    rintro ⟨other, before⟩
    exact parted.scope_eq before held ▸ before
  · refine ⟨fun before => ⟨scope, before⟩, ?_⟩
    rintro ⟨other, before⟩
    by_cases here : other = scope
    · exact here ▸ before
    · cases (rival?_eq_none_iff.1 found other here).symm.trans before

/-- What an insertion gives back is what was held before, in whatever scope. -/
theorem Partitioned.fst_insert (parted : h.Partitioned) (scope : Scope) (uri : Uri)
    (type : TypeDecl) :
    (h.insert scope uri type).1 = (h.placement.insert scope uri type).1 := by
  apply Option.ext
  intro before
  show _ ↔ (h.placement.get? uri).map Prod.snd = some before
  rw [parted.fst_insert_eq_some_iff, Option.map_eq_some_iff]
  constructor
  · rintro ⟨held, found⟩
    exact ⟨(held, before), parted.get?_placement.2 found, rfl⟩
  · rintro ⟨⟨held, _⟩, found, rfl⟩
    exact ⟨held, parted.get?_placement.1 found⟩

theorem remove_of_absent (absent : h.type? scope uri = none) : h.remove scope uri = h := by
  have same : (h.get scope).erase uri = h.get scope := by
    apply SortedMap.ext_get?
    intro other
    rw [SortedMap.get?_erase]
    split <;> rename_i here
    · rw [here]
      exact absent.symm
    · rfl
  unfold Hierarchy.remove
  rw [same]
  cases scope <;> rfl

theorem Partitioned.placement_remove (parted : h.Partitioned) (scope : Scope) (uri : Uri) :
    (h.remove scope uri).placement = h.placement.remove scope uri := by
  unfold Placement.remove
  rw [parted.scopeOf?_placement]
  split <;> rename_i found
  · refine parted.placement_eq_erase (parted.remove scope uri) (h.sameBut_remove scope uri) ?_
    rw [scopeOf?_eq_none_iff]
    intro other
    rw [type?_remove]
    split <;> rename_i here
    · rfl
    · refine Option.eq_none_iff_forall_ne_some.2 fun _ held => here ⟨?_, rfl⟩
      exact Option.some.inj ((parted.scopeOf?_eq_some held).symm.trans found)
  · have absent : h.type? scope uri = none :=
      Option.eq_none_iff_forall_ne_some.2 fun _ held => found (parted.scopeOf?_eq_some held)
    rw [remove_of_absent absent]

theorem Partitioned.placement_move (parted : h.Partitioned) (uri : Uri) (source target : Scope) :
    (h.move uri source target).map placement = h.placement.move uri source target := by
  unfold Placement.move
  rw [parted.type?_placement]
  cases held : h.type? source uri with
  | some type =>
    have ok := move_of_held held target
    have there : ((h.remove source uri).put target uri type).type? target uri = some type := by
      rw [type?_put, if_pos ⟨rfl, rfl⟩]
    rw [ok]
    exact congrArg Except.ok
      (parted.placement_eq_insert (parted.move ok) (sameBut_move ok) there)
  | none =>
    unfold Hierarchy.move
    rw [held]
    rfl

theorem Partitioned.placement_addMethod? (parted : h.Partitioned) (scope : Scope) (uri : Uri)
    (method : Method) (candidate : Int64) :
    (h.addMethod? scope uri method candidate).map (Prod.map id placement) =
      h.placement.addMethod? scope uri method candidate := by
  cases added : h.addMethod? scope uri method candidate with
  | some given =>
    have after := parted.addMethod? added
    have same := sameBut_addMethod? added
    obtain ⟨type, held, made⟩ := Option.map_eq_some_iff.1 added
    cases made
    unfold Placement.addMethod?
    rw [parted.type?_placement, held]
    have there : (h.put scope uri (type.addMethod method candidate).2).type? scope uri =
        some (type.addMethod method candidate).2 := by
      rw [type?_put, if_pos ⟨rfl, rfl⟩]
    exact congrArg (fun m => some ((type.addMethod method candidate).1, m))
      (parted.placement_eq_insert after same there)
  | none =>
    have absent := Option.map_eq_none_iff.1 added
    unfold Placement.addMethod?
    rw [parted.type?_placement, absent]
    rfl

theorem Partitioned.placement_edit (parted : h.Partitioned) (e : Edit) :
    (h.edit e).placement = h.placement.edit e := by
  cases e with
  | insert scope uri type => exact parted.placement_insert scope uri type
  | remove scope uri => exact parted.placement_remove scope uri
  | move uri source target =>
    show _ = (h.placement.move uri source target).toOption.getD h.placement
    rw [← parted.placement_move]
    show ((h.move uri source target).toOption.getD h).placement = _
    cases h.move uri source target <;> rfl
  | addMethod scope uri method candidate =>
    show _ = ((h.placement.addMethod? scope uri method candidate).map Prod.snd).getD h.placement
    rw [← parted.placement_addMethod?]
    show (((h.addMethod? scope uri method candidate).map Prod.snd).getD h).placement = _
    cases h.addMethod? scope uri method candidate <;> rfl

/-! ### Every hierarchy that is edited -/

/-- The hierarchy is the one map: every look-up, every operation and every failure agrees with it.
-/
structure Mapped (h : Hierarchy) : Prop where
  parted : h.Partitioned
  scopeOf? : ∀ uri, h.scopeOf? uri = h.placement.scopeOf? uri
  type? : ∀ scope uri, h.type? scope uri = h.placement.type? scope uri
  typeCount : h.typeCount = h.placement.size
  insert : ∀ scope uri type, (h.insert scope uri type).map id placement =
    h.placement.insert scope uri type
  remove : ∀ scope uri, (h.remove scope uri).placement = h.placement.remove scope uri
  move : ∀ uri source target,
    (h.move uri source target).map placement = h.placement.move uri source target
  addMethod? : ∀ scope uri method candidate,
    (h.addMethod? scope uri method candidate).map (Prod.map id placement) =
      h.placement.addMethod? scope uri method candidate
  elsewhere : ∀ e : Edit, h.SameBut e.uri (h.edit e)

theorem Partitioned.mapped (parted : h.Partitioned) : h.Mapped where
  parted := parted
  scopeOf? uri := (parted.scopeOf?_placement uri).symm
  type? scope uri := (parted.type?_placement scope uri).symm
  typeCount := parted.size_placement.symm
  insert scope uri type :=
    Prod.ext (parted.fst_insert scope uri type) (parted.placement_insert scope uri type)
  remove := parted.placement_remove
  move := parted.placement_move
  addMethod? := parted.placement_addMethod?
  elsewhere := h.sameBut_edit

theorem Partitioned.edits (parted : h.Partitioned) (edits : List Edit) :
    (edits.foldl Hierarchy.edit h).Partitioned ∧
      (edits.foldl Hierarchy.edit h).placement = edits.foldl Placement.edit h.placement := by
  induction edits generalizing h with
  | nil => exact ⟨parted, rfl⟩
  | cons e edits ih =>
    obtain ⟨after, placed⟩ := ih (parted.edit e)
    rw [parted.placement_edit] at placed
    exact ⟨after, placed⟩

/-- Edits of a new or checked hierarchy and of its one map go hand in hand. -/
theorem mapped_edits {start : Hierarchy}
    (made : start = ∅ ∨
      ∃ internal external resolved, ofScopes internal external resolved = .ok start)
    (edits : List Edit) :
    (edits.foldl Hierarchy.edit start).Mapped ∧
      (edits.foldl Hierarchy.edit start).placement =
        edits.foldl Placement.edit start.placement := by
  have parted : start.Partitioned := by
    rcases made with rfl | ⟨internal, external, resolved, ok⟩
    · exact partitioned_empty
    · exact partitioned_of_ofScopes ok
  obtain ⟨after, placed⟩ := parted.edits edits
  exact ⟨after.mapped, placed⟩

theorem mapped_edits_list :
    let list : Uri := ⟨"/lib/List", .local ⟨"lib".toList, some "List".toList⟩, by decide⟩
    let types : TypeMap := .ofList [(list, .placeholder)]
    ofScopes ∅ types ∅ = .ok ⟨∅, types, ∅⟩ ∧
      ([Edit.move list .external .internal, .move list .external .resolved].foldl Hierarchy.edit
        ⟨∅, types, ∅⟩).Mapped := by
  intro list types
  have made : ofScopes ∅ types ∅ = .ok ⟨∅, types, ∅⟩ := rfl
  exact ⟨made, (mapped_edits (.inr ⟨_, _, _, made⟩) _).1⟩

end Hierarchy

end RevisionGraph
