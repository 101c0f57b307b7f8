import RevisionGraph.Proofs.Assembly.Description

/-!
# Taking in entries

A method that is met goes to its type, and a call to its pair, where the ledger has them. So the
ledger decides whether an entry is taken in, and goes on to describe the assembler:
`Ledger.Describes.enter?_of_takes`.
-/

namespace RevisionGraph.Ledger

variable {l : Ledger} {a : Assembler}

/-! ### Meeting a method -/

/-- As `Describes`, but the assembler holds the type `home` in `scope` already, if only for a method
that is to come. -/
structure Ready (l : Ledger) (a : Assembler) (scope : Scope) (home : Uri) : Prop where
  nextId : a.nextId = Int64.ofNat l.rows.length
  types : ∀ scope' home', a.hierarchy.type? scope' home' =
    if (if home' = home then some scope else l.scopeOf? home') = some scope' then
      some (l.typeOf home')
    else none
  calls : ∀ relation pair, a.calls.sites? relation pair = l.pairSites? relation pair

theorem Describes.ready (d : l.Describes a) {scope : Scope} {home : Uri}
    (here : l.scopeOf? home = some scope) : l.Ready a scope home := by
  refine ⟨d.nextId, ?_, d.calls⟩
  intro scope' home'
  rw [d.types]
  by_cases same : home' = home
  · rw [if_pos same, same, here]
  · rw [if_neg same]

theorem Describes.ready_of_unknown (d : l.Describes a) {home : Uri}
    (unknown : l.scopeOf? home = none) (scope : Scope) :
    l.Ready { a with hierarchy := (a.hierarchy.insert scope home .placeholder).2 } scope home := by
  refine ⟨d.nextId, ?_, d.calls⟩
  intro scope' home'
  show Hierarchy.type? _ scope' home' = _
  rw [d.partitioned.type?_insert, d.types]
  by_cases same : home' = home
  · rw [if_pos same, if_pos same, same, typeOf_of_unknown unknown]
    simp only [Option.some.injEq, eq_comm]
  · rw [if_neg same, if_neg same]

theorem Ready.declare {home : Uri} (ready : l.Ready a .internal home) (sound : l.Sound)
    (few : l.rows.length < 2 ^ 63) (unknown : l.scopeOf? home = none) :
    (l.declare home .placeholder).Describes a := by
  refine ⟨ready.nextId, ?_, ?_⟩
  · intro scope home'
    rw [ready.types, scopeOf?_declare, typeOf_declare]
    by_cases here : home' = home
    · subst here
      simp only [if_true]
      rw [(scopeOf?_eq_none_iff.1 unknown).2, typeOf_of_unknown unknown]
      rfl
    · simp only [here, if_false]
  · intro relation pair
    rw [sound.pairSites?_declare_of_not_external few (by simp [unknown])]
    exact ready.calls relation pair

theorem Ready.type? {scope : Scope} {home : Uri} (ready : l.Ready a scope home) :
    a.hierarchy.type? scope home = some (l.typeOf home) := by
  rw [ready.types, if_pos rfl, if_pos rfl]

/-- A method that was met before keeps the id of its row, and nothing changes. -/
theorem Ready.added_of_met {scope : Scope} {home : Uri} (ready : l.Ready a scope home)
    (sound : l.Sound) (few : l.rows.length < 2 ^ 63) {method : Method}
    (homed : method.uri.home? = some home)
    (fits : scope = if l.types.contains home then .internal else .external)
    (met : method.uri ∈ l.uris) :
    ∃ row ∈ l.rows, row.2.uri = method.uri ∧
      ∃ next, a.added? scope home method = some (row.1, next) ∧ l.Describes next := by
  obtain ⟨row, mem, same⟩ := mem_uris_iff.1 met
  have mine : row ∈ l.rowsOf home := mem_rowsOf_iff.2 ⟨mem, same ▸ homed⟩
  have bound : (l.typeOf home).methods.idOf? method.uri = some row.1 :=
    (MethodTable.idOf?_ofList (sound.distinctOf few home)).2 ⟨row, mine, rfl, same⟩
  have kept : (l.typeOf home).addMethod method a.nextId = (row.1, l.typeOf home) := by
    unfold TypeDecl.addMethod
    rw [MethodTable.insert_of_bound bound]
  have old : row.1 ≠ a.nextId := ready.nextId ▸ sound.id_ne_next few mem
  have place : l.scopeOf? home = some scope := by
    have after := scopeOf?_enrol (l := l) homed home
    rw [enrol_of_mem met, if_pos rfl] at after
    rw [after, fits]
    split <;> rfl
  rw [Assembler.added?_of_held ready.type?, kept]
  refine ⟨row, mem, same, _, rfl, (if_neg old).trans ready.nextId, ?_, ready.calls⟩
  intro scope' home'
  show (a.hierarchy.put scope home (l.typeOf home)).type? scope' home' = _
  rw [Hierarchy.type?_put, ready.types]
  by_cases here : home' = home
  · subst here
    simp [place, eq_comm]
  · simp [here]

/-- A method that is just met has the next id. -/
theorem Ready.added_of_new {scope : Scope} {home : Uri} (ready : l.Ready a scope home)
    (sound : l.Sound) (few : l.rows.length + 1 < 2 ^ 63) {method : Method}
    (homed : method.uri.home? = some home)
    (fits : scope = if l.types.contains home then .internal else .external)
    (new : method.uri ∉ l.uris) :
    ∃ next, a.added? scope home method = some (a.nextId, next) ∧
      (l.enrol method).Describes next := by
  have unbound : (l.typeOf home).methods.idOf? method.uri = none := by
    apply (MethodTable.idOf?_ofList_eq_none (sound.distinctOf (by omega) home)).2
    intro mem
    obtain ⟨row, mine, same⟩ := List.mem_map.1 mem
    exact new (mem_uris_iff.2 ⟨row, (mem_rowsOf_iff.1 mine).1, same⟩)
  have next : ((l.typeOf home).addMethod method a.nextId).1 = a.nextId := by
    unfold TypeDecl.addMethod
    rw [MethodTable.insert_of_unbound unbound]
  have place : (if l.types.contains home then some Scope.internal else some .external) =
      some scope := by
    rw [fits]
    split <;> rfl
  rw [Assembler.added?_of_held ready.type?, next]
  refine ⟨_, rfl, ?_, ?_, ?_⟩
  · show (if a.nextId = a.nextId then a.nextId + 1 else a.nextId) = _
    rw [if_pos rfl, ready.nextId, rows_enrol_of_new new, List.length_append, Int64.ofNat_add]
    rfl
  · intro scope' home'
    show (a.hierarchy.put scope home _).type? scope' home' = _
    rw [Hierarchy.type?_put, ready.types, scopeOf?_enrol homed, typeOf_enrol_of_new new homed,
      ready.nextId, place]
    by_cases here : home' = home
    · subst here
      by_cases inside : scope = scope'
      · simp [inside]
      · simp [inside, Ne.symm inside]
    · simp [here]
  · intro relation pair
    rw [sound.pairSites?_enrol few homed]
    exact ready.calls relation pair

theorem Ready.added {scope : Scope} {home : Uri} (ready : l.Ready a scope home) (sound : l.Sound)
    (method : Method) (room : (l.enrol method).rows.length < 2 ^ 63)
    (homed : method.uri.home? = some home)
    (fits : scope = if l.types.contains home then .internal else .external) :
    ∃ next, (l.enrol method).Describes next ∧ ∃ row ∈ (l.enrol method).rows,
      row.2.uri = method.uri ∧ a.added? scope home method = some (row.1, next) := by
  by_cases met : method.uri ∈ l.uris
  · rw [enrol_of_mem met] at room ⊢
    obtain ⟨row, mem, same, next, added, describes⟩ := ready.added_of_met sound room homed fits met
    exact ⟨next, describes, row, mem, same, added⟩
  · have rows := rows_enrol_of_new met
    rw [rows, List.length_append, List.length_singleton] at room
    obtain ⟨next, added, describes⟩ := ready.added_of_new sound room homed fits met
    have last : (Int64.ofNat l.rows.length, method) ∈ (l.enrol method).rows := by
      rw [rows]
      exact List.mem_append_right _ (List.mem_singleton.2 rfl)
    rw [ready.nextId] at added
    exact ⟨next, describes, _, last, rfl, added⟩

theorem Describes.admitted_internal (d : l.Describes a) (sound : l.Sound)
    (few : l.rows.length < 2 ^ 63) (home : Uri) :
    (l.declareNew home).Describes (a.admitted .internal home) := by
  unfold Assembler.admitted
  rw [d.scopeOf?]
  cases found : l.scopeOf? home with
  | none =>
    rw [declareNew_of_new (scopeOf?_eq_none_iff.1 found).1]
    exact (d.ready_of_unknown found .internal).declare sound few found
  | some scope =>
    cases scope with
    | internal =>
      rw [declareNew_of_declared (scopeOf?_eq_internal_iff.1 found)]
      exact d
    | external =>
      rw [declareNew_of_new (scopeOf?_eq_external_iff.1 found).1]
      exact d.promoted_of_external sound few found
    | resolved => exact absurd found (l.scopeOf?_ne_resolved home)

theorem Describes.ready_internal (d : l.Describes a) (sound : l.Sound)
    (few : l.rows.length < 2 ^ 63) (home : Uri) :
    (l.declareNew home).Ready (a.admitted .internal home) .internal home :=
  (d.admitted_internal sound few home).ready
    (scopeOf?_eq_internal_iff.2 (l.contains_declareNew home))

theorem Describes.enterMethod? (d : l.Describes a) (sound : l.Sound) {method : Method}
    (room : (l.record (.method method)).rows.length < 2 ^ 63) {home : Uri}
    (homed : method.uri.home? = some home) :
    ∃ id next, (l.record (.method method)).idOf? method.uri = some id ∧
      a.enterMethod? method = some (id, next) ∧ (l.record (.method method)).Describes next ∧
      (l.record (.method method)).Sound := by
  have few := Nat.lt_of_le_of_lt (l.rows_prefix_record (.method method)).length_le room
  rw [record_method homed] at room ⊢
  have declared := l.contains_declareNew home
  have soundAfter := sound.declareNew home
  obtain ⟨next, describes, row, held, same, added⟩ :=
    (d.ready_internal sound few home).added soundAfter method room homed (by rw [declared]; rfl)
  have soundLast := soundAfter.enrol method homed
  refine ⟨row.1, next, same ▸ soundLast.idOf?_of_row held, ?_, describes, soundLast⟩
  unfold Assembler.enterMethod?
  rw [homed]
  exact added

/-! ### Adding a call -/

theorem Describes.row_of_idOf? (d : l.Describes a) (sound : l.Sound)
    (few : l.rows.length < 2 ^ 63) {scope : Scope} {uri : Uri} {id : Int64}
    (known : a.idOf? scope uri = some id) :
    ∃ row ∈ l.rows, row.1 = id ∧ row.2.uri = uri ∧
      ∃ home, uri.home? = some home ∧ l.scopeOf? home = some scope := by
  unfold Assembler.idOf? at known
  obtain ⟨home, homed, known⟩ := Option.bind_eq_some_iff.1 known
  obtain ⟨type, held, known⟩ := Option.bind_eq_some_iff.1 known
  obtain ⟨here, rfl⟩ := d.type?_eq_some_iff.1 held
  obtain ⟨row, mine, same, sameUri⟩ :=
    (MethodTable.idOf?_ofList (sound.distinctOf few home)).1 known
  exact ⟨row, (mem_rowsOf_iff.1 mine).1, same, sameUri, home, homed, here⟩

theorem Describes.idOf?_internal (d : l.Describes a) (sound : l.Sound)
    (few : l.rows.length < 2 ^ 63) {uri : Uri} (met : uri ∈ l.uris) (declared : l.isDeclared uri) :
    ∃ row ∈ l.rows, a.idOf? .internal uri = some row.1 ∧ row.2.uri = uri := by
  obtain ⟨row, held, same⟩ := mem_uris_iff.1 met
  obtain ⟨home, homed, declared⟩ := isDeclared_iff.1 declared
  have mine : row ∈ l.rowsOf home := mem_rowsOf_iff.2 ⟨held, same ▸ homed⟩
  have bound : (l.typeOf home).methods.idOf? uri = some row.1 :=
    (MethodTable.idOf?_ofList (sound.distinctOf few home)).2 ⟨row, mine, rfl, same⟩
  refine ⟨row, held, ?_, same⟩
  unfold Assembler.idOf?
  rw [homed, Option.bind_eq_bind, Option.bind_some,
    d.type?_of_scope (scopeOf?_eq_internal_iff.2 declared), Option.bind_eq_bind, Option.bind_some,
    bound]

theorem Describes.calleeScope (d : l.Describes a) (home : Uri) :
    a.calleeScope home = if l.types.contains home then .internal else .external := by
  unfold Assembler.calleeScope
  rw [d.scopeOf?]
  simp only [scopeOf?_eq_internal_iff]

theorem Describes.calleeRelation (d : l.Describes a) {callee home : Uri}
    (homed : callee.home? = some home) : a.calleeRelation home = l.relationOf callee := by
  unfold Assembler.calleeRelation relationOf
  rw [d.scopeOf?, isDeclared_of_home homed]
  simp only [scopeOf?_eq_internal_iff]

theorem Describes.admitted_callee (d : l.Describes a) (home : Uri) :
    l.Ready (a.admitted (a.calleeScope home) home) (a.calleeScope home) home := by
  rw [d.calleeScope]
  unfold Assembler.admitted
  rw [d.scopeOf?]
  cases found : l.scopeOf? home with
  | none => exact d.ready_of_unknown found _
  | some scope =>
    cases scope with
    | internal =>
      rw [if_pos (scopeOf?_eq_internal_iff.1 found)]
      exact d.ready found
    | external =>
      rw [(scopeOf?_eq_external_iff.1 found).1]
      exact d.ready found
    | resolved => exact absurd found (l.scopeOf?_ne_resolved home)

theorem Describes.addCall (d : l.Describes a) (sound : l.Sound) (few : l.rows.length < 2 ^ 63)
    {call : Call} {caller callee : Int64 × Method} (callerHeld : caller ∈ l.rows)
    (calleeHeld : callee ∈ l.rows) (callerIs : caller.2.uri = call.caller)
    (calleeIs : callee.2.uri = call.callee) :
    (l.note call).Describes
      { a with
        calls := a.calls.addCall (l.relationOf call.callee) ⟨caller.1, callee.1⟩ call.site
          call.metadata } := by
  refine ⟨d.nextId, d.types, ?_⟩
  intro relation pair
  show CallGraph.sites? _ relation pair = _
  rw [CallGraph.addCall, CallGraph.sites?_addSites,
    sound.pairSites?_note few callerHeld calleeHeld callerIs calleeIs, d.calls, d.calls]
  split <;> rename_i this
  · rw [this.1, this.2]
    rfl
  · rfl

theorem Describes.enterCall? (d : l.Describes a) (sound : l.Sound) {call : Call}
    (room : (l.record (.call call)).rows.length < 2 ^ 63) (takes : l.takes (.call call)) :
    ∃ next, a.enterCall? call = some next ∧ (l.record (.call call)).Describes next ∧
      (l.record (.call call)).Sound := by
  have few := Nat.lt_of_le_of_lt (l.rows_prefix_record (.call call)).length_le room
  obtain ⟨callerMet, callerDeclared, home, homed⟩ := takes_call_iff.1 takes
  obtain ⟨caller, callerHeld, known, callerIs⟩ :=
    d.idOf?_internal sound few callerMet callerDeclared
  obtain ⟨between, describes, callee, calleeHeld, calleeIs, added⟩ :=
    (d.admitted_callee home).added sound (.plain call.callee) room homed (d.calleeScope home)
  have soundAfter := sound.enrol (.plain call.callee) homed
  have callerHeldAfter : caller ∈ (l.enrol (.plain call.callee)).rows :=
    (mem_rows_enrol_of_met (callerIs ▸ callerMet)).2 callerHeld
  have noted := describes.addCall soundAfter room callerHeldAfter calleeHeld callerIs calleeIs
  rw [relationOf_enrol, ← d.calleeRelation homed] at noted
  refine ⟨_, ?_, noted, soundAfter.note (mem_uris_enrol.2 (.inl callerMet)) ?_
    (mem_uris_enrol.2 (.inr rfl))⟩
  · unfold Assembler.enterCall?
    rw [known, homed]
    show (((a.admitted _ home).added? _ home (.plain call.callee)).bind _) = _
    rw [added]
    rfl
  · rw [isDeclared_enrol]
    exact callerDeclared

/-! ### Entries -/

/-- An entry that the ledger takes in is taken in with the ledger's answer, and the ledger with it
describes what is then held. -/
theorem Describes.enter?_of_takes (d : l.Describes a) (sound : l.Sound) {entry : Entry}
    (room : (l.record entry).rows.length < 2 ^ 63) (takes : l.takes entry) :
    ∃ next, a.enter? entry = some ((l.record entry).answer? entry, next) ∧
      (l.record entry).Describes next ∧ (l.record entry).Sound := by
  cases entry with
  | type uri header =>
    exact ⟨_, rfl, d.enterType sound room uri header, sound.declare uri header⟩
  | method method =>
    obtain ⟨home, homed⟩ := Option.isSome_iff_exists.1 takes
    obtain ⟨id, next, answer, entered, rest⟩ := d.enterMethod? sound room homed
    refine ⟨next, ?_, rest⟩
    rw [Ledger.answer?, answer]
    exact Option.map_eq_some_iff.2 ⟨_, entered, rfl⟩
  | call call =>
    obtain ⟨next, entered, rest⟩ := d.enterCall? sound room takes
    exact ⟨next, Option.map_eq_some_iff.2 ⟨_, entered, rfl⟩, rest⟩

theorem Describes.enter?_of_not_takes (d : l.Describes a) (sound : l.Sound)
    (few : l.rows.length < 2 ^ 63) {entry : Entry} (refuses : l.takes entry = false) :
    a.enter? entry = none := by
  apply Option.eq_none_iff_forall_ne_some.2
  rintro ⟨id, next⟩ entered
  apply Bool.eq_false_iff.1 refuses
  cases entry with
  | type uri header => rfl
  | method method =>
    obtain ⟨_, entered, _⟩ := Option.map_eq_some_iff.1 entered
    obtain ⟨home, homed, _⟩ := Option.bind_eq_some_iff.1 entered
    exact Option.isSome_iff_exists.2 ⟨home, homed⟩
  | call call =>
    obtain ⟨_, entered, _⟩ := Option.map_eq_some_iff.1 entered
    obtain ⟨callerId, known, entered⟩ := Option.bind_eq_some_iff.1 entered
    obtain ⟨home, homed, _⟩ := Option.bind_eq_some_iff.1 entered
    obtain ⟨caller, held, _, callerIs, callerHome, callerHomed, inside⟩ :=
      d.row_of_idOf? sound few known
    refine takes_call_iff.2 ⟨mem_uris_iff.2 ⟨caller, held, callerIs⟩, ?_, home, homed⟩
    rw [isDeclared_of_home callerHomed]
    exact scopeOf?_eq_internal_iff.1 inside

end RevisionGraph.Ledger
