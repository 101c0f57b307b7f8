import RevisionGraph.Proofs.Assembly.Entry
import RevisionGraph.Proofs.Hierarchy.Lookup

/-!
# Outcomes of a step

A step takes in the entry of its fact or leaves the state alone: `Assembler.step_yields`.
-/

namespace RevisionGraph

namespace Assembly

variable {α β : Type}

def outcome (x : Assembly α) (a : Assembler) : Except Failure α × Assembler := x.run.run a

theorem outcome_bind (x : Assembly α) (f : α → Assembly β) (a : Assembler) :
    (x >>= f).outcome a =
      match x.outcome a with
      | (.ok v, next) => (f v).outcome next
      | (.error failure, next) => (.error failure, next) := by
  show (ExceptT.bind x f).run.run a = _
  simp only [outcome, ExceptT.bind, ExceptT.run, ExceptT.mk, StateT.run, bind, StateT.bind]
  rcases x a with ⟨_ | _, _⟩ <;> rfl

theorem outcome_get (a : Assembler) : (get : Assembly Assembler).outcome a = (.ok a, a) := rfl

theorem outcome_modify (f : Assembler → Assembler) (a : Assembler) :
    (modify f : Assembly PUnit).outcome a = (.ok (), f a) := rfl

/-- The step leaves a failure and the state that it was given. -/
def Refused (x : Assembly α) (a : Assembler) : Prop := ∃ failure, x.outcome a = (.error failure, a)

theorem refused_throw (failure : Failure) (a : Assembler) :
    (throw failure : Assembly α).Refused a :=
  ⟨failure, rfl⟩

/-- The step gives what `result` holds, or is refused where `result` holds nothing. -/
def Yields (x : Assembly α) (a : Assembler) : Option (α × Assembler) → Prop
  | some (v, next) => x.outcome a = (.ok v, next)
  | none => x.Refused a

theorem outcome_bind_of_ok {x : Assembly α} {f : α → Assembly β} {a next : Assembler} {v : α}
    (ok : x.outcome a = (.ok v, next)) : (x >>= f).outcome a = (f v).outcome next := by
  rw [outcome_bind, ok]

theorem yields_bind {x : Assembly α} {f : α → Assembly β} {a : Assembler} {v : α}
    (ok : x.outcome a = (.ok v, a)) {result : Option (β × Assembler)}
    (yields : (f v).Yields a result) : (x >>= f).Yields a result := by
  cases result with
  | none =>
    obtain ⟨failure, refused⟩ := yields
    exact ⟨failure, (outcome_bind_of_ok ok).trans refused⟩
  | some given => exact (outcome_bind_of_ok ok).trans yields

theorem Yields.map {x : Assembly α} {a : Assembler} {result : Option (α × Assembler)}
    (yields : x.Yields a result) (g : α → β) :
    (do return g (← x) : Assembly β).Yields a (result.map fun (v, next) => (g v, next)) := by
  cases result with
  | none =>
    obtain ⟨failure, refused⟩ := yields
    refine ⟨failure, ?_⟩
    rw [outcome_bind, refused]
  | some given => exact outcome_bind_of_ok yields

theorem throw_bind (failure : Failure) (f : α → Assembly β) :
    (throw failure >>= f) = (throw failure : Assembly β) := rfl

theorem check_ok (v : α) : Assembler.check (.ok v) = pure v := rfl

theorem check_error (error : Error) :
    Assembler.check (.error error : Except Error α) = throw (.ofError error) := rfl

theorem parseUris_ok {texts : List String} {uris : List Uri} (task : String)
    (ok : texts.mapM Uri.parse = .ok uris) : Assembler.parseUris task texts = pure uris := by
  unfold Assembler.parseUris
  rw [ok]
  rfl

theorem parseUris_error {texts : List String} {error : Error} (task : String)
    (failed : texts.mapM Uri.parse = .error error) :
    Assembler.parseUris task texts = throw ((Failure.ofError error).within task) := by
  unfold Assembler.parseUris
  rw [failed]
  rfl

end Assembly

namespace Assembler

open Assembly

theorem outcome_promote (uri : Uri) (a : Assembler) :
    (promote uri).outcome a = (.ok (), a.promoted uri) := by
  unfold promote
  rw [outcome_bind_of_ok (outcome_get a)]
  cases found : a.hierarchy.scopeOf? uri with
  | none =>
    rw [promoted_of_inside (by simp [found])]
    rfl
  | some scope =>
    obtain ⟨type, held⟩ := Hierarchy.type?_of_scopeOf? found
    have moved := Hierarchy.move_of_held held .internal
    have kept : ((a.hierarchy.remove scope uri).put .internal uri type).type? .internal uri =
        some type := by
      rw [Hierarchy.type?_put, if_pos ⟨rfl, rfl⟩]
    cases scope with
    | internal =>
      rw [promoted_of_inside (by simp [found])]
      rfl
    | external | resolved =>
      dsimp only
      rw [outcome_bind_of_ok (outcome_get a), moved, check_ok, pure_bind, outcome_modify, kept,
        promoted_of_outside found (by simp) held]
      rfl

/-- The last part of `register`, once `scope` holds the type. -/
theorem outcome_added (scope : Scope) (home : Uri) (method : Method) (failure : Failure)
    (a : Assembler) :
    (do
      let a ← get
      match a.hierarchy.addMethod? scope home method a.nextId with
      | none => throw failure
      | some (id, hierarchy) =>
        set { a with hierarchy, nextId := if id = a.nextId then a.nextId + 1 else a.nextId }
        return id : Assembly Int64).outcome a =
      match a.added? scope home method with
      | some (id, next) => (.ok id, next)
      | none => (.error failure, a) := by
  rw [outcome_bind_of_ok (outcome_get a)]
  unfold added?
  cases a.hierarchy.addMethod? scope home method a.nextId with
  | none => rfl
  | some added => rfl

theorem outcome_register (method : Method) {home : Uri} (ok : method.typeUri = .ok home)
    (scope : Scope) (a : Assembler) :
    (register scope method).outcome a =
      match (a.admitted scope home).added? scope home method with
      | some (id, next) => (.ok id, next)
      | none =>
        (.error (.plain ("Type " ++ home.text ++ " is not in " ++ scope.name)),
          a.admitted scope home) := by
  unfold register admitted
  rw [ok, check_ok, pure_bind, outcome_bind_of_ok (outcome_get a)]
  cases a.hierarchy.scopeOf? home with
  | none =>
    dsimp only
    rw [outcome_bind_of_ok (outcome_modify _ a)]
    exact outcome_added scope home method _ _
  | some held =>
    dsimp only
    by_cases promotes : held ≠ scope ∧ scope = .internal
    · rw [if_pos promotes, if_pos promotes, outcome_bind_of_ok (outcome_promote home a)]
      exact outcome_added scope home method _ _
    · rw [if_neg promotes, if_neg promotes]
      exact outcome_added scope home method _ _

theorem outcome_find? {a : Assembler} {scope : Scope} {uri : Uri} {id : Int64}
    (known : a.idOf? scope uri = some id) : (find? scope uri).outcome a = (.ok (some id), a) := by
  unfold idOf? Uri.home? at known
  unfold find?
  cases homed : (Method.plain uri).typeUri with
  | error => simp [homed, Except.toOption] at known
  | ok home =>
    rw [homed] at known
    rw [check_ok, pure_bind, outcome_bind_of_ok (outcome_get a)]
    exact congrArg (fun found => (Except.ok found, a)) known

/-- A step that needs a method which is not there fails and changes nothing. -/
theorem refused_of_unknown {a : Assembler} {scope : Scope} {uri : Uri}
    (unknown : a.idOf? scope uri = none) (failure : Failure) (f : Int64 → Assembly Unit) :
    (do
      let some id ← find? scope uri | throw failure
      f id : Assembly Unit).Refused a := by
  unfold idOf? Uri.home? at unknown
  unfold find?
  cases homed : (Method.plain uri).typeUri with
  | error => exact refused_throw _ a
  | ok home =>
    rw [homed] at unknown
    rw [check_ok, pure_bind]
    have nothing : (do
        return ((← get).hierarchy.type? scope home).bind fun type => type.methods.idOf? uri
        : Assembly (Option Int64)).outcome a = (.ok none, a) := by
      rw [outcome_bind_of_ok (outcome_get a)]
      exact congrArg (fun found => (Except.ok found, a)) unknown
    exact ⟨failure, outcome_bind_of_ok nothing⟩

/-! ### The steps -/

theorem type?_promoted {a : Assembler} {uri : Uri} {scope : Scope}
    (found : a.hierarchy.scopeOf? uri = some scope) :
    (a.promoted uri).hierarchy.type? .internal uri = a.hierarchy.type? scope uri := by
  by_cases inside : scope = .internal
  · rw [promoted_of_inside (by simp [found, inside]), inside]
  · obtain ⟨type, held⟩ := Hierarchy.type?_of_scopeOf? found
    rw [promoted_of_outside found inside held, held, Hierarchy.type?_put, if_pos ⟨rfl, rfl⟩]

/-- A type is ready for a method of `scope`, unless it is elsewhere and has to stay there. -/
theorem added?_admitted {a : Assembler} {scope : Scope} {home : Uri}
    (free : scope = .internal ∨ ∀ other, other ≠ scope → a.hierarchy.type? other home = none)
    (method : Method) :
    ∃ added, (a.admitted scope home).added? scope home method = some added := by
  have ready : ∃ type, (a.admitted scope home).hierarchy.type? scope home = some type := by
    unfold admitted
    cases found : a.hierarchy.scopeOf? home with
    | none => exact ⟨_, Hierarchy.type?_insert_self _ _ _ _⟩
    | some held =>
      obtain ⟨type, here⟩ := Hierarchy.type?_of_scopeOf? found
      dsimp only
      split <;> rename_i promotes
      · obtain ⟨_, rfl⟩ := promotes
        exact ⟨type, (type?_promoted found).trans here⟩
      · have same : held = scope := by
          by_contra apart
          rcases free with internal | free
          · exact promotes ⟨apart, internal⟩
          · cases here.symm.trans (free held apart)
        exact ⟨type, same ▸ here⟩
  obtain ⟨type, held⟩ := ready
  exact ⟨_, added?_of_held held method⟩

theorem addType_yields (fact : TypeFact) (a : Assembler) :
    (addType fact).Yields a
      (fact.header?.map fun (uri, header) => ((), a.enterType uri header)) := by
  unfold addType TypeFact.header?
  cases Uri.parse fact.uri with
  | error => exact refused_throw _ a
  | ok uri =>
  rw [check_ok, pure_bind]
  cases classes : fact.superClasses.mapM Uri.parse with
  | error =>
    rw [parseUris_error _ classes, throw_bind]
    exact refused_throw _ a
  | ok superClasses =>
  rw [parseUris_ok _ classes, pure_bind]
  cases interfaces : fact.superInterfaces.mapM Uri.parse with
  | error =>
    rw [parseUris_error _ interfaces, throw_bind]
    exact refused_throw _ a
  | ok superInterfaces =>
  rw [parseUris_ok _ interfaces, pure_bind]
  cases Access.ofName fact.access with
  | error => exact refused_throw _ a
  | ok access =>
    rw [check_ok, pure_bind]
    show Assembly.outcome _ a = _
    rw [outcome_bind_of_ok (outcome_promote uri a)]
    rfl

theorem addMethod_yields (fact : MethodFact) (a : Assembler) :
    (addMethod fact).Yields a (fact.method?.bind a.enterMethod?) := by
  unfold addMethod MethodFact.method?
  cases Uri.parse fact.uri with
  | error => exact refused_throw _ a
  | ok uri =>
  rw [check_ok, pure_bind]
  show (register .internal ⟨uri, fact.metadata⟩).Yields a (a.enterMethod? ⟨uri, fact.metadata⟩)
  unfold enterMethod? Uri.home?
  cases homed : (Method.plain uri).typeUri with
  | error =>
    unfold register
    rw [typeUri_eq, homed, check_error, throw_bind]
    exact refused_throw _ a
  | ok home =>
    have ready : ∃ added, (a.admitted .internal home).added? .internal home ⟨uri, fact.metadata⟩ =
        some added := added?_admitted (.inl rfl) _
    obtain ⟨added, found⟩ := ready
    have taken := outcome_register ⟨uri, fact.metadata⟩ homed .internal a
    rw [found] at taken
    show Yields _ a ((a.admitted .internal home).added? .internal home ⟨uri, fact.metadata⟩)
    rw [found]
    exact taken

/-- What is not internal is external or new, as nothing is resolved. -/
theorem calleeScope_free {a : Assembler}
    (unresolved : ∀ uri, a.hierarchy.type? .resolved uri = none) (home : Uri) :
    a.calleeScope home = .internal ∨
      ∀ other, other ≠ a.calleeScope home → a.hierarchy.type? other home = none := by
  unfold calleeScope
  split <;> rename_i inside
  · exact .inl rfl
  · right
    intro other apart
    cases other with
    | internal =>
      rw [Hierarchy.scopeOf?_eq_internal_iff] at inside
      exact Option.eq_none_iff_forall_ne_some.2 fun type held => inside ⟨type, held⟩
    | external => exact absurd rfl apart
    | resolved => exact unresolved home

theorem enterCall?_of_unknown {a : Assembler} {call : Call}
    (unknown : a.idOf? .internal call.caller = none) : a.enterCall? call = none := by
  unfold enterCall?
  rw [unknown]
  rfl

theorem addCall_yields {a : Assembler} (unresolved : ∀ uri, a.hierarchy.type? .resolved uri = none)
    (fact : CallFact) :
    (addCall fact).Yields a
      ((fact.call?.bind a.enterCall?).map fun next => ((), next)) := by
  unfold addCall CallFact.call?
  cases Uri.parse fact.caller with
  | error => exact refused_throw _ a
  | ok callerUri =>
  rw [check_ok, pure_bind]
  -- The caller is looked up before the callee is read, so both may be what the call fails at.
  cases known : a.idOf? .internal callerUri with
  | none =>
    cases Uri.parse fact.callee with
    | error => exact refused_of_unknown known _ _
    | ok callee =>
      show Yields _ a (Option.map _ (a.enterCall? _))
      rw [enterCall?_of_unknown known]
      exact refused_of_unknown known _ _
  | some caller =>
  refine yields_bind (outcome_find? known) ?_
  cases Uri.parse fact.callee with
  | error => exact refused_throw _ a
  | ok callee =>
  show Yields _ a (Option.map _ (a.enterCall? _))
  unfold enterCall? Uri.home?
  dsimp only
  rw [known, check_ok, pure_bind]
  cases homed : (Method.plain callee).typeUri with
  | error => exact refused_throw _ a
  | ok home =>
    obtain ⟨⟨id, next⟩, added⟩ := added?_admitted (calleeScope_free unresolved home) (.plain callee)
    have taken := outcome_register _ homed (a.calleeScope home) a
    rw [added] at taken
    rw [check_ok, pure_bind]
    refine yields_bind (outcome_get a) ?_
    show Yields _ a (Option.map _ (((a.admitted _ home).added? (a.calleeScope home) home _).bind _))
    rw [added]
    exact outcome_bind_of_ok taken

/-- A step takes in what its fact says, or fails and leaves everything as it was. -/
theorem step_yields {a : Assembler} (unresolved : ∀ uri, a.hierarchy.type? .resolved uri = none)
    (fact : Fact) : (step fact).Yields a (fact.entry?.bind a.enter?) := by
  cases fact with
  | type f =>
    have yields := (addType_yields f a).map fun _ => (none : Option Int64)
    show Yields _ a ((f.header?.map _).bind a.enter?)
    cases read : f.header? <;> rw [read] at yields <;> exact yields
  | method f =>
    have yields := (addMethod_yields f a).map some
    show Yields _ a ((f.method?.map _).bind a.enter?)
    cases read : f.method? <;> rw [read] at yields <;> exact yields
  | call f =>
    have yields := (addCall_yields unresolved f).map fun _ => (none : Option Int64)
    show Yields _ a ((f.call?.map _).bind a.enter?)
    cases read : f.call? with
    | none =>
      rw [read] at yields
      exact yields
    | some call =>
      rw [read, Option.bind_some, Option.map_map] at yields
      exact yields

end Assembler

end RevisionGraph
