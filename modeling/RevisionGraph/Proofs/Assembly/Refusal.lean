import RevisionGraph.Proofs.Assembly.Kept
import RevisionGraph.Proofs.Assembly.Run

/-!
# Refused facts

`register` changes the state before its last check, and `addType` before it rebuilds the type. Still
a fact is taken in whole or not at all: in a state that a run leads to, nothing fails so late
(`Assembler.atomic_run`).
-/

namespace RevisionGraph

/-- What can be wrong with a fact: a text in it, or a caller that was not met. -/
inductive Cause.OfFact : Cause → Prop
  | uri (text : String) (flaw : Uri.Flaw) : OfFact (.error (.malformedUri text flaw))
  | access (name : String) : OfFact (.error (.unknownAccess name))
  | caller (text : String) : OfFact (.plain ("Caller is not an internal method: " ++ text))

theorem Cause.OfFact.ne_typeNotFound {cause : Cause} (blamed : cause.OfFact) (text : String)
    (scope : Scope) : cause ≠ .error (.typeNotFound text scope) := by
  rintro rfl
  cases blamed

theorem Cause.OfFact.ne_unplaced {cause : Cause} (blamed : cause.OfFact) (text : String)
    (scope : Scope) : cause ≠ .plain ("Type " ++ text ++ " is not in " ++ scope.name) := by
  intro same
  cases blamed with
  | uri | access => cases same
  | caller =>
    have texts := congrArg String.toList (Cause.plain.inj same)
    simp at texts

theorem Uri.ofFact_of_parse {text : String} {error : Error}
    (failed : Uri.parse text = .error error) : (Cause.error error).OfFact := by
  unfold Uri.parse at failed
  split at failed
  · cases failed
  · cases failed
    exact .uri _ _

theorem Uri.ofFact_of_mapM_parse {texts : List String} {error : Error}
    (failed : texts.mapM Uri.parse = .error error) : (Cause.error error).OfFact := by
  induction texts with
  | nil => cases failed
  | cons text texts ih =>
    rw [List.mapM_cons] at failed
    cases read : Uri.parse text with
    | error =>
      rw [read] at failed
      cases failed
      exact Uri.ofFact_of_parse read
    | ok uri =>
      cases rest : texts.mapM Uri.parse with
      | error =>
        rw [read, rest] at failed
        cases failed
        exact ih rest
      | ok uris =>
        rw [read, rest] at failed
        cases failed

theorem Access.ofFact_of_ofName {name : String} {error : Error}
    (failed : Access.ofName name = .error error) : (Cause.error error).OfFact := by
  unfold Access.ofName at failed
  split at failed
  · cases failed
  · cases failed
    exact .access name

theorem Method.ofFact_of_typeUri {method : Method} {error : Error}
    (failed : method.typeUri = .error error) : (Cause.error error).OfFact := by
  unfold Method.typeUri at failed
  split at failed
  · cases failed
    exact .uri _ _
  · split at failed
    · cases failed
      exact .uri _ _
    · exact Uri.ofFact_of_parse failed

namespace Assembly

variable {α β : Type}

/-- If the step fails, its fact is to blame. -/
def Blamed (x : Assembly α) (a : Assembler) : Prop :=
  ∀ failure next, x.outcome a = (.error failure, next) → failure.cause.OfFact

theorem blamed_of_ok {x : Assembly α} {a next : Assembler} {v : α}
    (ok : x.outcome a = (.ok v, next)) : x.Blamed a := by
  intro failure other failed
  cases ok.symm.trans failed

theorem blamed_throw {failure : Failure} (blamed : failure.cause.OfFact) (a : Assembler) :
    (throw failure : Assembly α).Blamed a := by
  rintro _ _ ⟨⟩
  exact blamed

theorem Blamed.bind {x : Assembly α} {f : α → Assembly β} {a : Assembler} (first : x.Blamed a)
    (rest : ∀ v next, x.outcome a = (.ok v, next) → (f v).Blamed next) : (x >>= f).Blamed a := by
  intro failure next failed
  rw [outcome_bind] at failed
  rcases taken : x.outcome a with ⟨_ | v, between⟩
  · rw [taken] at failed
    cases failed
    exact first _ _ taken
  · rw [taken] at failed
    exact rest v between taken failure next failed

theorem blamed_check {result : Except Error α}
    (blamed : ∀ error, result = .error error → (Cause.error error).OfFact) (a : Assembler) :
    (Assembler.check result).Blamed a := by
  cases result with
  | ok v => exact blamed_of_ok rfl
  | error error => exact blamed_throw (blamed error rfl) a

theorem check_eq_ok {result : Except Error α} {a next : Assembler} {v : α}
    (ok : (Assembler.check result).outcome a = (.ok v, next)) : result = .ok v ∧ a = next := by
  cases result with
  | ok =>
    cases ok
    exact ⟨rfl, rfl⟩
  | error => cases ok

theorem blamed_parseUris (task : String) (texts : List String) (a : Assembler) :
    (Assembler.parseUris task texts).Blamed a := by
  cases read : texts.mapM Uri.parse with
  | ok uris =>
    rw [Assembly.parseUris_ok task read]
    exact blamed_of_ok rfl
  | error error =>
    rw [Assembly.parseUris_error task read]
    exact blamed_throw (Uri.ofFact_of_mapM_parse read) a

/-- What a step gives up at is its fact's fault, and the state is the one that it was given. -/
def Spares (x : Assembly α) (a : Assembler) : Prop :=
  ∀ failure next, x.outcome a = (.error failure, next) → next = a ∧ failure.cause.OfFact

theorem Yields.spares {x : Assembly α} {a : Assembler} {result : Option (α × Assembler)}
    (yields : x.Yields a result) (blamed : x.Blamed a) : x.Spares a := by
  intro failure next failed
  refine ⟨?_, blamed failure next failed⟩
  cases result with
  | none =>
    obtain ⟨_, refused⟩ := yields
    exact congrArg Prod.snd (failed.symm.trans refused)
  | some given => cases failed.symm.trans yields

theorem Spares.map {x : Assembly α} {a : Assembler} (spares : x.Spares a) (g : α → β) :
    (do return g (← x) : Assembly β).Spares a := by
  intro failure next failed
  rw [outcome_bind] at failed
  rcases taken : x.outcome a with ⟨_ | v, between⟩ <;> rw [taken] at failed
  · cases failed
    exact spares _ _ taken
  · cases failed

end Assembly

namespace Assembler

open Assembly

variable {a : Assembler}

theorem register_ok {scope : Scope} {method : Method} {home : Uri}
    (homed : method.typeUri = .ok home)
    (free : scope = .internal ∨ ∀ other, other ≠ scope → a.hierarchy.type? other home = none) :
    ∃ id next, (register scope method).outcome a = (.ok id, next) := by
  obtain ⟨⟨id, next⟩, added⟩ := added?_admitted free method
  refine ⟨id, next, ?_⟩
  rw [outcome_register method homed, added]

theorem blamed_register {scope : Scope} {method : Method}
    (free : ∀ home, method.typeUri = .ok home →
      scope = .internal ∨ ∀ other, other ≠ scope → a.hierarchy.type? other home = none) :
    (register scope method).Blamed a := by
  cases homed : method.typeUri with
  | ok home =>
    obtain ⟨id, next, ok⟩ := register_ok homed (free home homed)
    exact blamed_of_ok ok
  | error error =>
    unfold register
    rw [homed, check_error, throw_bind]
    exact blamed_throw (Method.ofFact_of_typeUri homed) a

theorem blamed_addType (fact : TypeFact) (a : Assembler) : (addType fact).Blamed a := by
  refine (blamed_check (fun _ => Uri.ofFact_of_parse) a).bind fun uri a _ => ?_
  refine (blamed_parseUris _ _ a).bind fun superClasses a _ => ?_
  refine (blamed_parseUris _ _ a).bind fun superInterfaces a _ => ?_
  refine (blamed_check (fun _ => Access.ofFact_of_ofName) a).bind fun access a _ => ?_
  exact (blamed_of_ok (outcome_promote uri a)).bind fun _ a _ => blamed_of_ok rfl

theorem blamed_addMethod (fact : MethodFact) (a : Assembler) : (addMethod fact).Blamed a :=
  (blamed_check (fun _ => Uri.ofFact_of_parse) a).bind fun _ _ _ =>
    blamed_register fun _ _ => .inl rfl

theorem find?_reads {scope : Scope} {uri : Uri} {found : Option Int64} {next : Assembler}
    (ok : (find? scope uri).outcome a = (.ok found, next)) : a = next := by
  unfold find? at ok
  cases homed : (Method.plain uri).typeUri with
  | error =>
    rw [homed, check_error, throw_bind] at ok
    cases ok
  | ok home =>
    rw [homed, check_ok, pure_bind, outcome_bind_of_ok (outcome_get a)] at ok
    exact congrArg Prod.snd ok

theorem blamed_find? (scope : Scope) (uri : Uri) (a : Assembler) : (find? scope uri).Blamed a :=
  (blamed_check (fun _ => Method.ofFact_of_typeUri) a).bind fun _ _ _ => blamed_of_ok rfl

theorem blamed_addCall (kept : a.Kept) (fact : CallFact) : (addCall fact).Blamed a := by
  refine (blamed_check (fun _ => Uri.ofFact_of_parse) a).bind fun callerUri _ read => ?_
  obtain ⟨_, rfl⟩ := check_eq_ok read
  refine (blamed_find? .internal callerUri a).bind fun found _ read => ?_
  obtain rfl := find?_reads read
  cases found with
  | none => exact blamed_throw (.caller fact.caller) a
  | some caller =>
  refine (blamed_check (fun _ => Uri.ofFact_of_parse) a).bind fun callee _ read => ?_
  obtain ⟨_, rfl⟩ := check_eq_ok read
  refine (blamed_check (fun _ => Method.ofFact_of_typeUri) a).bind fun home _ read => ?_
  obtain ⟨homed, rfl⟩ := check_eq_ok read
  refine Blamed.bind (blamed_of_ok (outcome_get a)) fun _ _ read => ?_
  cases read
  refine Blamed.bind (blamed_register fun other otherHomed => ?_) fun _ _ _ => blamed_of_ok rfl
  cases homed.symm.trans otherHomed
  exact calleeScope_free kept.unresolved home

/-- A fact is taken in whole or not at all. The steps that change the state before their last check
do not fail there. -/
structure Atomic (a : Assembler) : Prop where
  addType : ∀ fact, (addType fact).Spares a
  addMethod : ∀ fact, (addMethod fact).Spares a
  addCall : ∀ fact, (addCall fact).Spares a
  step : ∀ fact failure next, (step fact).outcome a = (.error failure, next) → ∀ text scope,
    failure.cause ≠ .error (.typeNotFound text scope) ∧
      failure.cause ≠ .plain ("Type " ++ text ++ " is not in " ++ scope.name)
  promote : ∀ uri, ∃ next, (promote uri).outcome a = (.ok (), next)
  registerMethod : ∀ method home, method.typeUri = .ok home →
    ∃ id next, (register .internal method).outcome a = (.ok id, next)
  registerCallee : ∀ method home, method.typeUri = .ok home →
    ∃ id next, (register (a.calleeScope home) method).outcome a = (.ok id, next)

theorem Kept.atomic (kept : a.Kept) : a.Atomic := by
  have addType (fact : TypeFact) : (addType fact).Spares a :=
    (addType_yields fact a).spares (blamed_addType fact a)
  have addMethod (fact : MethodFact) : (addMethod fact).Spares a :=
    (addMethod_yields fact a).spares (blamed_addMethod fact a)
  have addCall (fact : CallFact) : (addCall fact).Spares a :=
    (addCall_yields kept.unresolved fact).spares (blamed_addCall kept fact)
  have step (fact : Fact) : (Assembler.step fact).Spares a := by
    cases fact with
    | type fact => exact (addType fact).map _
    | method fact => exact (addMethod fact).map some
    | call fact => exact (addCall fact).map _
  refine ⟨addType, addMethod, addCall, ?_, ?_, ?_, ?_⟩
  · intro fact failure next failed text scope
    have blamed := (step fact failure next failed).2
    exact ⟨blamed.ne_typeNotFound text scope, blamed.ne_unplaced text scope⟩
  · exact fun uri => ⟨_, outcome_promote uri a⟩
  · exact fun _ _ homed => register_ok homed (.inl rfl)
  · exact fun _ home homed => register_ok homed (calleeScope_free kept.unresolved home)

/-- Wherever a run leads to, a fact that is refused there leaves the state as it was. -/
theorem atomic_run (facts : List Fact) : (empty.run facts).Atomic :=
  (kept_run kept_empty facts).atomic

theorem atomic_run_late :
    ∃ failure, (addCall ⟨"/app/Main.none()V", "/lib/List.add()V", 7, "static", ∅⟩).outcome
      (empty.run lateFacts) = (.error failure, empty.run lateFacts) := by
  generalize made : (addCall ⟨"/app/Main.none()V", "/lib/List.add()V", 7, "static", ∅⟩).outcome
      (empty.run lateFacts) = result
  rcases result with ⟨failure | _, next⟩
  · obtain ⟨rfl, _⟩ := (atomic_run lateFacts).addCall _ _ _ made
    exact ⟨failure, rfl⟩
  · cases made

end Assembler

end RevisionGraph
