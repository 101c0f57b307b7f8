import RevisionGraph.Proofs.Assembly.Ledger
import RevisionGraph.Proofs.CallGraph.Moves

/-!
# Where a ledger puts types and calls

How the scope and the methods of a type, and the relation and the sites of a pair, change as a
ledger takes in a declaration, a method or a call.
-/

namespace RevisionGraph.Ledger

/-! ### Scopes of types -/

theorem scopeOf?_eq_internal_iff {l : Ledger} {home : Uri} :
    l.scopeOf? home = some .internal ↔ l.types.contains home := by
  unfold scopeOf?
  split <;> rename_i declared
  · simp [declared]
  · split <;> simp [declared]

theorem scopeOf?_eq_external_iff {l : Ledger} {home : Uri} :
    l.scopeOf? home = some .external ↔ l.types.contains home = false ∧ l.rowsOf home ≠ [] := by
  unfold scopeOf?
  split <;> rename_i declared
  · simp [declared]
  · split <;> rename_i rows <;> simp [declared, rows]

theorem scopeOf?_eq_none_iff {l : Ledger} {home : Uri} :
    l.scopeOf? home = none ↔ l.types.contains home = false ∧ l.rowsOf home = [] := by
  unfold scopeOf?
  split <;> rename_i declared
  · simp [declared]
  · split <;> rename_i rows <;> simp [declared, rows]

theorem scopeOf?_ne_resolved (l : Ledger) (home : Uri) : l.scopeOf? home ≠ some .resolved := by
  unfold scopeOf?
  split
  · simp
  · split <;> simp

theorem get?_types_of_undeclared {l : Ledger} {home : Uri}
    (undeclared : l.types.contains home = false) : l.types.get? home = none :=
  Option.not_isSome_iff_eq_none.1 (by simpa [SortedMap.contains] using undeclared)

theorem typeOf_of_unknown {l : Ledger} {home : Uri} (unknown : l.scopeOf? home = none) :
    l.typeOf home = .placeholder := by
  obtain ⟨undeclared, noRows⟩ := scopeOf?_eq_none_iff.1 unknown
  unfold typeOf
  rw [get?_types_of_undeclared undeclared, noRows]
  rfl

def methodScope (l : Ledger) (method : Uri) : Scope :=
  if l.isDeclared method then .internal else .external

theorem scopeOf?_of_row {l : Ledger} {row : Int64 × Method} (held : row ∈ l.rows) {home : Uri}
    (homed : row.2.uri.home? = some home) :
    l.scopeOf? home = some (l.methodScope row.2.uri) := by
  have rows : l.rowsOf home ≠ [] := List.ne_nil_of_mem (mem_rowsOf_iff.2 ⟨held, homed⟩)
  unfold scopeOf? methodScope
  rw [isDeclared_of_home homed, if_neg rows]
  split <;> rfl

/-! ### Declaring a type -/

theorem scopeOf?_declare (l : Ledger) (uri : Uri) (header : TypeDecl) (home : Uri) :
    (l.declare uri header).scopeOf? home =
      if home = uri then some .internal else l.scopeOf? home := by
  split <;> rename_i here
  · rw [scopeOf?_eq_internal_iff, contains_declare]
    simp [here]
  · unfold scopeOf?
    rw [contains_declare, decide_eq_false here, Bool.false_or, rowsOf_declare]

theorem typeOf_declare (l : Ledger) (uri : Uri) (header : TypeDecl) (home : Uri) :
    (l.declare uri header).typeOf home =
      if home = uri then { header with methods := .ofList (l.rowsOf uri) } else l.typeOf home := by
  unfold typeOf
  rw [rowsOf_declare]
  unfold declare
  rw [SortedMap.get?_insert]
  split <;> rename_i here
  · rw [here]
    rfl
  · rfl

theorem declare_declare (l : Ledger) (uri : Uri) (first header : TypeDecl) :
    (l.declare uri first).declare uri header = l.declare uri header := by
  have same : (l.types.insert uri first).insert uri header = l.types.insert uri header := by
    apply SortedMap.ext_get?
    intro home
    simp only [SortedMap.get?_insert]
    split <;> rfl
  unfold declare
  rw [same]

theorem relationOf_declare {l : Ledger} {uri callee home : Uri} (homed : callee.home? = some home)
    (header : TypeDecl) :
    (l.declare uri header).relationOf callee =
      if home = uri then .internal else l.relationOf callee := by
  unfold relationOf
  rw [isDeclared_of_home homed, isDeclared_of_home homed, contains_declare]
  by_cases here : home = uri <;> simp [here]

/-! ### Pairs -/

theorem pairSites?_of_rows {l : Ledger} {pair : CallPair} {caller callee : Method}
    (first : lookupEntry pair.caller l.rows = some caller)
    (second : lookupEntry pair.callee l.rows = some callee) (relation : Relation) :
    l.pairSites? relation pair =
      if relation = l.relationOf callee.uri then l.sites? caller.uri callee.uri else none := by
  unfold pairSites?
  rw [first, second]
  rfl

theorem pairSites?_of_no_caller {l : Ledger} {pair : CallPair}
    (absent : lookupEntry pair.caller l.rows = none) (relation : Relation) :
    l.pairSites? relation pair = none := by
  unfold pairSites?
  rw [absent]
  rfl

theorem pairSites?_of_no_callee {l : Ledger} {pair : CallPair}
    (absent : lookupEntry pair.callee l.rows = none) (relation : Relation) :
    l.pairSites? relation pair = none := by
  unfold pairSites?
  rw [absent]
  cases lookupEntry pair.caller l.rows <;> rfl

theorem relationOf_ne_resolved (l : Ledger) (callee : Uri) : l.relationOf callee ≠ .resolved := by
  unfold relationOf
  split <;> simp

theorem pairSites?_resolved (l : Ledger) (pair : CallPair) :
    l.pairSites? .resolved pair = none := by
  cases first : lookupEntry pair.caller l.rows with
  | none => exact pairSites?_of_no_caller first _
  | some caller =>
    cases second : lookupEntry pair.callee l.rows with
    | none => exact pairSites?_of_no_callee second _
    | some callee =>
      rw [pairSites?_of_rows first second, if_neg (relationOf_ne_resolved l _).symm]

/-- Only pairs of known methods between which there are calls have sites. -/
theorem pairSites?_eq_some {l : Ledger} {relation : Relation} {pair : CallPair} {sites : CallSites}
    (held : l.pairSites? relation pair = some sites) :
    ∃ caller callee, lookupEntry pair.caller l.rows = some caller ∧
      lookupEntry pair.callee l.rows = some callee ∧ relation = l.relationOf callee.uri ∧
      l.sites? caller.uri callee.uri = some sites := by
  cases first : lookupEntry pair.caller l.rows with
  | none => cases (pairSites?_of_no_caller first relation).symm.trans held
  | some caller =>
    cases second : lookupEntry pair.callee l.rows with
    | none => cases (pairSites?_of_no_callee second relation).symm.trans held
    | some callee =>
      rw [pairSites?_of_rows first second] at held
      split at held <;> rename_i belongs
      · exact ⟨caller, callee, rfl, rfl, belongs, held⟩
      · cases held

theorem Sound.lookupEntry_iff {l : Ledger} (sound : l.Sound) (few : l.rows.length < 2 ^ 63)
    {id : Int64} {method : Method} :
    lookupEntry id l.rows = some method ↔ (id, method) ∈ l.rows :=
  lookupEntry_eq_some_iff (sound.distinct few).ids

theorem Sound.mem_ids_of_type_iff {l : Ledger} (sound : l.Sound) (few : l.rows.length < 2 ^ 63)
    {row : Int64 × Method} (held : row ∈ l.rows) {home : Uri}
    (homed : row.2.uri.home? = some home) (uri : Uri) :
    row.1 ∈ (l.rowsOf uri).map Prod.fst ↔ home = uri := by
  constructor
  · intro mem
    obtain ⟨other, otherHeld, same⟩ := List.mem_map.1 mem
    obtain ⟨otherHeld, otherHome⟩ := mem_rowsOf_iff.1 otherHeld
    rw [((sound.distinct few).row_eq otherHeld held).1 same] at otherHome
    exact Option.some.inj (homed.symm.trans otherHome)
  · rintro rfl
    exact List.mem_map.2 ⟨_, mem_rowsOf_iff.2 ⟨held, homed⟩, rfl⟩

/-- A declaration makes the calls internal whose callees are of the type. -/
theorem Sound.pairSites?_declare {l : Ledger} (sound : l.Sound) (few : l.rows.length < 2 ^ 63)
    (uri : Uri) (header : TypeDecl) (relation : Relation) (pair : CallPair) :
    (l.declare uri header).pairSites? relation pair =
      if pair.callee ∈ (l.rowsOf uri).map Prod.fst then
        match relation with
        | .internal => CallGraph.merged (l.pairSites? .internal pair) (l.pairSites? .external pair)
        | _ => none
      else l.pairSites? relation pair := by
  cases second : lookupEntry pair.callee l.rows with
  | none =>
    have absent : pair.callee ∉ (l.rowsOf uri).map Prod.fst := by
      intro mem
      obtain ⟨row, held, same⟩ := List.mem_map.1 mem
      exact lookupEntry_eq_none_iff.1 second (List.mem_map.2 ⟨row, (mem_rowsOf_iff.1 held).1, same⟩)
    rw [if_neg absent, pairSites?_of_no_callee second]
    exact pairSites?_of_no_callee (l := l.declare uri header) second _
  | some callee =>
  have held := (sound.lookupEntry_iff few).1 second
  obtain ⟨home, homed⟩ := sound.homes _ held
  have inside : pair.callee ∈ (l.rowsOf uri).map Prod.fst ↔ home = uri :=
    sound.mem_ids_of_type_iff few held homed uri
  cases first : lookupEntry pair.caller l.rows with
  | none =>
    have nowhere (relation : Relation) := pairSites?_of_no_caller first relation
    have after : (l.declare uri header).pairSites? relation pair = none :=
      pairSites?_of_no_caller (l := l.declare uri header) first relation
    rw [after, nowhere, nowhere, nowhere]
    cases relation <;> simp [CallGraph.merged]
  | some caller =>
    have sites (relation : Relation) := pairSites?_of_rows first second relation
    have after : (l.declare uri header).pairSites? relation pair =
        if relation = (l.declare uri header).relationOf callee.uri then
          l.sites? caller.uri callee.uri
        else none := pairSites?_of_rows (l := l.declare uri header) first second relation
    rw [after, relationOf_declare homed]
    by_cases here : home = uri
    · rw [if_pos here, if_pos (inside.2 here)]
      cases relation with
      | internal =>
        rw [if_pos rfl, sites, sites]
        unfold relationOf
        cases l.isDeclared callee.uri with
        | true => rfl
        | false => exact (CallGraph.merged_none _).symm
      | external | resolved => rw [if_neg (by simp)]
    · rw [if_neg here, if_neg fun mem => here (inside.1 mem), sites]

/-! ### Enrolling a method and noting a call -/

theorem relationOf_enrol (l : Ledger) (method : Method) (callee : Uri) :
    (l.enrol method).relationOf callee = l.relationOf callee := by
  unfold relationOf
  rw [isDeclared_enrol]

theorem sites?_enrol (l : Ledger) (method : Method) (caller callee : Uri) :
    (l.enrol method).sites? caller callee = l.sites? caller callee := by
  unfold sites?
  rw [calls_enrol]

theorem rowsOf_enrol_of_new {l : Ledger} {method : Method} (new : method.uri ∉ l.uris)
    (home : Uri) :
    (l.enrol method).rowsOf home =
      if method.uri.home? = some home then
        l.rowsOf home ++ [(Int64.ofNat l.rows.length, method)]
      else l.rowsOf home := by
  unfold rowsOf
  rw [rows_enrol_of_new new, List.filter_append]
  by_cases here : method.uri.home? = some home <;> simp [here]

theorem typeOf_enrol_of_new {l : Ledger} {method : Method} {home : Uri}
    (new : method.uri ∉ l.uris) (homed : method.uri.home? = some home) (other : Uri) :
    (l.enrol method).typeOf other =
      if other = home then
        ((l.typeOf home).addMethod method (Int64.ofNat l.rows.length)).2
      else l.typeOf other := by
  unfold typeOf
  rw [types_enrol, rowsOf_enrol_of_new new, homed]
  by_cases here : other = home
  · subst here
    rw [if_pos rfl, if_pos rfl, MethodTable.ofList_concat]
    rfl
  · rw [if_neg here, if_neg fun same => here (Option.some.inj same).symm]

theorem scopeOf?_enrol {l : Ledger} {method : Method} {home : Uri}
    (homed : method.uri.home? = some home) (other : Uri) :
    (l.enrol method).scopeOf? other =
      if other = home then if l.types.contains home then some .internal else some .external
      else l.scopeOf? other := by
  by_cases met : method.uri ∈ l.uris
  · rw [enrol_of_mem met]
    by_cases here : other = home
    · obtain ⟨row, held, same⟩ := mem_uris_iff.1 met
      have rows : l.rowsOf home ≠ [] :=
        List.ne_nil_of_mem (mem_rowsOf_iff.2 ⟨held, same ▸ homed⟩)
      unfold scopeOf?
      rw [here, if_pos rfl, if_neg rows]
    · rw [if_neg here]
  · unfold scopeOf?
    rw [types_enrol, rowsOf_enrol_of_new met, homed]
    by_cases here : other = home
    · subst here
      simp
    · rw [if_neg here, if_neg fun same => here (Option.some.inj same).symm]

theorem Sound.pairSites?_eq_some_iff {l : Ledger} (sound : l.Sound) (few : l.rows.length < 2 ^ 63)
    {relation : Relation} {pair : CallPair} {sites : CallSites} :
    l.pairSites? relation pair = some sites ↔
      ∃ caller callee, (pair.caller, caller) ∈ l.rows ∧ (pair.callee, callee) ∈ l.rows ∧
        relation = l.relationOf callee.uri ∧ l.sites? caller.uri callee.uri = some sites := by
  constructor
  · intro held
    obtain ⟨caller, callee, first, second, rest⟩ := pairSites?_eq_some held
    exact ⟨caller, callee, (sound.lookupEntry_iff few).1 first,
      (sound.lookupEntry_iff few).1 second, rest⟩
  · rintro ⟨caller, callee, first, second, belongs, held⟩
    rw [pairSites?_of_rows ((sound.lookupEntry_iff few).2 first)
      ((sound.lookupEntry_iff few).2 second), if_pos belongs, held]

theorem mem_rows_enrol_of_met {l : Ledger} {method : Method} {row : Int64 × Method}
    (met : row.2.uri ∈ l.uris) : row ∈ (l.enrol method).rows ↔ row ∈ l.rows := by
  by_cases known : method.uri ∈ l.uris
  · rw [enrol_of_mem known]
  · rw [rows_enrol_of_new known, List.mem_append, List.mem_singleton]
    refine or_iff_left ?_
    rintro rfl
    exact known met

/-- A method that is just met has no calls yet. -/
theorem Sound.pairSites?_enrol {l : Ledger} (sound : l.Sound) (few : l.rows.length + 1 < 2 ^ 63)
    {method : Method} {home : Uri} (homed : method.uri.home? = some home) (relation : Relation)
    (pair : CallPair) : (l.enrol method).pairSites? relation pair = l.pairSites? relation pair := by
  have fewer : l.rows.length < 2 ^ 63 := by omega
  have fewAfter : (l.enrol method).rows.length < 2 ^ 63 :=
    Nat.lt_of_le_of_lt (l.length_enrol_le method) few
  apply Option.ext
  intro sites
  rw [(sound.enrol method homed).pairSites?_eq_some_iff fewAfter,
    sound.pairSites?_eq_some_iff fewer]
  have rows {caller callee : Method} (held : l.sites? caller.uri callee.uri = some sites) :
      caller.uri ∈ l.uris ∧ callee.uri ∈ l.uris := by
    obtain ⟨call, mem, left, right⟩ := exists_call_of_sites? held
    exact ⟨left ▸ (sound.callers call mem).1, right ▸ sound.callees call mem⟩
  simp only [relationOf_enrol, sites?_enrol]
  constructor
  · rintro ⟨caller, callee, first, second, belongs, held⟩
    obtain ⟨callerMet, calleeMet⟩ := rows held
    exact ⟨caller, callee, (mem_rows_enrol_of_met callerMet).1 first,
      (mem_rows_enrol_of_met calleeMet).1 second, belongs, held⟩
  · rintro ⟨caller, callee, first, second, belongs, held⟩
    obtain ⟨callerMet, calleeMet⟩ := rows held
    exact ⟨caller, callee, (mem_rows_enrol_of_met callerMet).2 first,
      (mem_rows_enrol_of_met calleeMet).2 second, belongs, held⟩

/-- Rows go with their ids as with their URIs, and so do pairs of them. -/
theorem Sound.pair_eq_iff {l : Ledger} (sound : l.Sound) (few : l.rows.length < 2 ^ 63)
    {caller callee source target : Int64 × Method} (callerHeld : caller ∈ l.rows)
    (calleeHeld : callee ∈ l.rows) (sourceHeld : source ∈ l.rows) (targetHeld : target ∈ l.rows) :
    (⟨source.1, target.1⟩ : CallPair) = ⟨caller.1, callee.1⟩ ↔
      caller.2.uri = source.2.uri ∧ callee.2.uri = target.2.uri := by
  have distinct := sound.distinct few
  rw [CallPair.mk.injEq]
  constructor
  · rintro ⟨left, right⟩
    rw [(distinct.row_eq callerHeld sourceHeld).1 left.symm,
      (distinct.row_eq calleeHeld targetHeld).1 right.symm]
    exact ⟨rfl, rfl⟩
  · rintro ⟨left, right⟩
    rw [(distinct.row_eq callerHeld sourceHeld).2 left,
      (distinct.row_eq calleeHeld targetHeld).2 right]
    exact ⟨rfl, rfl⟩

theorem Sound.pairSites?_note {l : Ledger} (sound : l.Sound) (few : l.rows.length < 2 ^ 63)
    {call : Call} {caller callee : Int64 × Method} (callerHeld : caller ∈ l.rows)
    (calleeHeld : callee ∈ l.rows) (callerIs : caller.2.uri = call.caller)
    (calleeIs : callee.2.uri = call.callee) (relation : Relation) (pair : CallPair) :
    (l.note call).pairSites? relation pair =
      if relation = l.relationOf call.callee ∧ pair = ⟨caller.1, callee.1⟩ then
        addSite (l.pairSites? relation pair) call
      else l.pairSites? relation pair := by
  cases first : lookupEntry pair.caller l.rows with
  | none =>
    have apart : pair ≠ ⟨caller.1, callee.1⟩ := by
      rintro rfl
      cases first.symm.trans ((sound.lookupEntry_iff few).2 callerHeld)
    rw [if_neg fun both => apart both.2, pairSites?_of_no_caller first]
    exact pairSites?_of_no_caller (l := l.note call) first relation
  | some source =>
  cases second : lookupEntry pair.callee l.rows with
  | none =>
    have apart : pair ≠ ⟨caller.1, callee.1⟩ := by
      rintro rfl
      cases second.symm.trans ((sound.lookupEntry_iff few).2 calleeHeld)
    rw [if_neg fun both => apart both.2, pairSites?_of_no_callee second]
    exact pairSites?_of_no_callee (l := l.note call) second relation
  | some target =>
    have sourceHeld := (sound.lookupEntry_iff few).1 first
    have targetHeld := (sound.lookupEntry_iff few).1 second
    have callOf : (call.caller = source.uri ∧ call.callee = target.uri) ↔
        pair = ⟨caller.1, callee.1⟩ := by
      rw [← callerIs, ← calleeIs]
      exact (sound.pair_eq_iff few callerHeld calleeHeld sourceHeld targetHeld).symm
    have after : (l.note call).pairSites? relation pair =
        if relation = l.relationOf target.uri then (l.note call).sites? source.uri target.uri
        else none := pairSites?_of_rows (l := l.note call) first second relation
    rw [after, pairSites?_of_rows first second, sites?_note]
    by_cases this : pair = ⟨caller.1, callee.1⟩
    · rw [if_pos (callOf.2 this), ← (callOf.2 this).2]
      by_cases belongs : relation = l.relationOf call.callee <;> simp [belongs, this]
    · have elsewhere : ¬(relation = l.relationOf call.callee ∧ pair = ⟨caller.1, callee.1⟩) :=
        fun both => this both.2
      rw [if_neg fun both => this (callOf.1 both), if_neg elsewhere]

end RevisionGraph.Ledger
