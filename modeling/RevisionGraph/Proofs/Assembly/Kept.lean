import RevisionGraph.Proofs.Assembly.Outcome
import RevisionGraph.Proofs.Hierarchy.Built

/-!
# What every run keeps

A run of any length keeps to the operations of a hierarchy and never resolves a type, so no step of
it is stopped half way: `Assembler.kept_run`.
-/

namespace RevisionGraph.Assembler

open Assembly

structure Kept (a : Assembler) : Prop where
  built : a.hierarchy.Built
  unresolved : ∀ uri, a.hierarchy.type? .resolved uri = none

theorem kept_empty : Assembler.empty.Kept := ⟨.empty, fun _ => rfl⟩

variable {a next : Assembler}

theorem unresolved_insert (kept : a.Kept) {scope : Scope} (apart : scope ≠ .resolved) (uri : Uri)
    (type : TypeDecl) (other : Uri) :
    (a.hierarchy.insert scope uri type).2.type? .resolved other = none := by
  rw [kept.built.partitioned.type?_insert, kept.unresolved, if_neg (Ne.symm apart), ite_self]

theorem Kept.promoted (kept : a.Kept) (uri : Uri) : (a.promoted uri).Kept := by
  by_cases inside : ∀ scope, a.hierarchy.scopeOf? uri = some scope → scope = .internal
  · rw [promoted_of_inside inside]
    exact kept
  · simp only [not_forall] at inside
    obtain ⟨scope, found, outside⟩ := inside
    obtain ⟨type, held⟩ := Hierarchy.type?_of_scopeOf? found
    rw [promoted_of_outside found outside held]
    refine ⟨kept.built.move (Hierarchy.move_of_held held .internal), ?_⟩
    intro other
    show Hierarchy.type? _ .resolved other = none
    rw [Hierarchy.type?_put, Hierarchy.type?_remove, kept.unresolved, ite_self]
    exact if_neg (by simp)

theorem Kept.declared (kept : a.Kept) (uri : Uri) (header : TypeDecl) :
    (a.declared uri header).Kept := by
  have methods : (((a.hierarchy.type? .internal uri).map TypeDecl.methods).getD ∅).Built := by
    cases held : a.hierarchy.type? .internal uri with
    | none => exact MethodTable.built_empty
    | some type => exact kept.built.tablesBuilt .internal uri type held
  have without : Kept { a with hierarchy := a.hierarchy.remove .internal uri } := by
    refine ⟨kept.built.remove .internal uri, ?_⟩
    intro other
    show Hierarchy.type? _ .resolved other = none
    rw [Hierarchy.type?_remove, kept.unresolved, ite_self]
  exact ⟨without.built.insert .internal uri methods, unresolved_insert without (by simp) uri _⟩

theorem Kept.admitted (kept : a.Kept) {scope : Scope} (apart : scope ≠ .resolved) (home : Uri) :
    (a.admitted scope home).Kept := by
  unfold Assembler.admitted
  cases a.hierarchy.scopeOf? home with
  | none =>
    exact ⟨kept.built.insert scope home MethodTable.built_empty,
      unresolved_insert kept apart home _⟩
  | some held =>
    dsimp only
    split
    · exact kept.promoted home
    · exact kept

theorem Kept.added? (kept : a.Kept) {scope : Scope} (apart : scope ≠ .resolved) {home : Uri}
    {method : Method} {id : Int64} (added : a.added? scope home method = some (id, next)) :
    next.Kept := by
  obtain ⟨⟨id, hierarchy⟩, ok, made⟩ := Option.map_eq_some_iff.1 added
  cases made
  refine ⟨kept.built.addMethod? ok, ?_⟩
  intro other
  obtain ⟨type, _, made⟩ := Option.map_eq_some_iff.1 ok
  cases made
  show Hierarchy.type? (a.hierarchy.put scope home _) .resolved other = none
  rw [Hierarchy.type?_put, kept.unresolved, if_neg fun both => apart both.1.symm]

theorem calleeScope_ne_resolved (a : Assembler) (home : Uri) : a.calleeScope home ≠ .resolved := by
  unfold calleeScope
  split <;> simp

theorem Kept.enter? (kept : a.Kept) {entry : Entry} {id : Option Int64}
    (entered : a.enter? entry = some (id, next)) : next.Kept := by
  cases entry with
  | type uri header =>
    cases entered
    exact (kept.promoted uri).declared uri header
  | method method =>
    obtain ⟨⟨id, next⟩, entered, made⟩ := Option.map_eq_some_iff.1 entered
    cases made
    obtain ⟨home, _, added⟩ := Option.bind_eq_some_iff.1 entered
    exact (kept.admitted (by simp) home).added? (by simp) added
  | call call =>
    obtain ⟨next, entered, made⟩ := Option.map_eq_some_iff.1 entered
    cases made
    obtain ⟨_, _, entered⟩ := Option.bind_eq_some_iff.1 entered
    obtain ⟨home, _, entered⟩ := Option.bind_eq_some_iff.1 entered
    obtain ⟨⟨_, between⟩, added, made⟩ := Option.bind_eq_some_iff.1 entered
    cases made
    have apart := a.calleeScope_ne_resolved home
    have before := (kept.admitted apart home).added? apart added
    exact ⟨before.built, before.unresolved⟩

/-- A step leaves the state alone or goes on to the state after the entry of its fact. -/
theorem Kept.step_cases (kept : a.Kept) (fact : Fact) :
    ((step fact).outcome a).2 = a ∨
      ∃ entry id, fact.entry? = some entry ∧
        a.enter? entry = some (id, ((step fact).outcome a).2) := by
  have yields := step_yields kept.unresolved fact
  cases taken : fact.entry?.bind a.enter? with
  | none =>
    rw [taken] at yields
    obtain ⟨_, refused⟩ := yields
    rw [refused]
    exact .inl rfl
  | some given =>
    rw [taken] at yields
    obtain ⟨entry, read, entered⟩ := Option.bind_eq_some_iff.1 taken
    rw [show (Assembler.step fact).outcome a = (.ok given.1, given.2) from yields]
    exact .inr ⟨entry, given.1, read, entered⟩

theorem Kept.step (kept : a.Kept) (fact : Fact) : ((step fact).outcome a).2.Kept := by
  rcases kept.step_cases fact with same | ⟨entry, id, _, entered⟩
  · rwa [same]
  · exact kept.enter? entered

theorem kept_run (kept : a.Kept) (facts : List Fact) : (a.run facts).Kept := by
  induction facts generalizing a with
  | nil => exact kept
  | cons fact facts ih => exact ih (kept.step fact)

theorem outcome_discard (x : Assembly (Option Int64)) (a : Assembler) :
    (discard x : Assembly PUnit).outcome a =
      ((x.outcome a).1.map fun _ => (), (x.outcome a).2) := by
  have discarded : (discard x : Assembly PUnit) = (do let _ ← x; return PUnit.unit) := rfl
  rw [discarded, outcome_bind]
  rcases x.outcome a with ⟨_ | _, _⟩ <;> rfl

theorem walk_cons (fact : Fact) (facts : List Fact) :
    ((fact :: facts).forM fun fact => discard (Assembler.step fact) : Assembly PUnit) = (do
      discard (Assembler.step fact)
      facts.forM fun fact => discard (Assembler.step fact)) := rfl

/-- What every step keeps is kept by a walk over facts that stops at the first failure. -/
theorem walk_invariant {P : Assembler → Prop} {facts : List Fact}
    (kept : ∀ fact ∈ facts, ∀ a, P a → P ((step fact).outcome a).2) (initially : P a) :
    P ((facts.forM fun fact => discard (Assembler.step fact)).outcome a).2 := by
  induction facts generalizing a with
  | nil => exact initially
  | cons fact facts ih =>
    have first := kept fact List.mem_cons_self a initially
    rw [walk_cons, outcome_bind, outcome_discard]
    rcases taken : (Assembler.step fact).outcome a with ⟨_ | _, next⟩
    · rw [taken] at first
      exact first
    · rw [taken] at first
      exact ih (fun fact mem => kept fact (List.mem_cons_of_mem _ mem)) first

theorem Kept.walk (kept : a.Kept) (facts : List Fact) :
    ((facts.forM fun fact => discard (Assembler.step fact)).outcome a).2.Kept :=
  walk_invariant (fun fact _ _ kept => kept.step fact) kept

end RevisionGraph.Assembler
