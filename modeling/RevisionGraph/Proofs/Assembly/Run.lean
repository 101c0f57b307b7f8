import RevisionGraph.Proofs.Assembly.Entering
import RevisionGraph.Proofs.Document.Walks

/-!
# Runs

A run leaves what the ledger of its accepted facts says: `Ledger.describes_run`.
-/

namespace RevisionGraph

namespace Assembler

open Assembly

/-- A call that is refused, and a call into a type that is declared after it. -/
def lateFacts : List Fact :=
  [.method ⟨"/app/Main.main()V", ∅⟩,
    .call ⟨"/app/Main.none()V", "/lib/List.add()V", 7, "static", ∅⟩,
    .call ⟨"/app/Main.main()V", "/lib/List.add()V", 3, "static", ∅⟩,
    .type ⟨"/lib/List", "List.java", [], [], "public", false⟩]

theorem exists_finish_late :
    ∃ r, (empty.run lateFacts).finish "mvn" "app" "1.0" "test" none = .ok r :=
  exists_eq_ok_of_isOk (by decide +kernel)

def accepted (a : Assembler) : List Fact → List Fact
  | [] => []
  | fact :: facts =>
    match (step fact).run.run a with
    | (.ok _, next) => fact :: next.accepted facts
    | (.error _, next) => next.accepted facts

theorem run_cons (a : Assembler) (fact : Fact) (facts : List Fact) :
    a.run (fact :: facts) = ((step fact).outcome a).2.run facts := rfl

theorem accepted_cons (a : Assembler) (fact : Fact) (facts : List Fact) :
    a.accepted (fact :: facts) =
      match (step fact).outcome a with
      | (.ok _, next) => fact :: next.accepted facts
      | (.error _, next) => next.accepted facts := rfl

variable {a next : Assembler} {fact : Fact}

theorem accepted_cons_of_ok {id : Option Int64} (ok : (step fact).outcome a = (.ok id, next))
    (facts : List Fact) : a.accepted (fact :: facts) = fact :: next.accepted facts := by
  rw [accepted_cons, ok]

theorem accepted_cons_of_refused (refused : (step fact).Refused a) (facts : List Fact) :
    a.accepted (fact :: facts) = a.accepted facts := by
  obtain ⟨failure, refused⟩ := refused
  rw [accepted_cons, refused]

theorem accepted_append (a : Assembler) (first second : List Fact) :
    a.accepted (first ++ second) = a.accepted first ++ (a.run first).accepted second := by
  induction first generalizing a with
  | nil => rfl
  | cons fact first ih =>
    rw [List.cons_append, run_cons, accepted_cons, accepted_cons]
    rcases (step fact).outcome a with ⟨_ | _, next⟩
    · exact ih next
    · exact congrArg (fact :: ·) (ih next)

end Assembler

namespace Ledger

open Assembler

variable {l : Ledger} {a : Assembler}

def recordAll (l : Ledger) (facts : List Fact) : Ledger :=
  (facts.filterMap Fact.entry?).foldl record l

theorem recordAll_cons (l : Ledger) {fact : Fact} {entry : Entry}
    (read : fact.entry? = some entry) (facts : List Fact) :
    l.recordAll (fact :: facts) = (l.record entry).recordAll facts := by
  unfold recordAll
  rw [List.filterMap_cons, read]
  rfl

/-- What a new assembler is told by the facts that it accepts. -/
def ofRun (facts : List Fact) : Ledger := empty.recordAll (Assembler.empty.accepted facts)

theorem length_record_le (l : Ledger) (entry : Entry) :
    (l.record entry).rows.length ≤ l.rows.length + 1 := by
  cases entry with
  | type => exact Nat.le_succ _
  | method method =>
    cases homed : method.uri.home? with
    | none =>
      simp only [record, homed]
      exact Nat.le_succ _
    | some home =>
      have enrolled := (l.declareNew home).length_enrol_le method
      rwa [rows_declareNew, ← record_method homed] at enrolled
  | call call => exact l.length_enrol_le (.plain call.callee)

/-- A fact whose entry the ledger takes in is answered as the ledger with it says. -/
theorem Describes.outcome_of_takes (d : l.Describes a) (sound : l.Sound) {fact : Fact}
    {entry : Entry} (read : fact.entry? = some entry) (takes : l.takes entry)
    (room : (l.record entry).rows.length < 2 ^ 63) :
    ∃ next, (step fact).outcome a = (.ok ((l.record entry).answer? entry), next) ∧
      (l.record entry).Describes next ∧ (l.record entry).Sound := by
  have yields := step_yields d.unresolved fact
  obtain ⟨next, entered, rest⟩ := d.enter?_of_takes sound room takes
  rw [read, Option.bind_some, entered] at yields
  exact ⟨next, yields, rest⟩

theorem Describes.refused_of_not_takes (d : l.Describes a) (sound : l.Sound)
    (few : l.rows.length < 2 ^ 63) {fact : Fact}
    (refuses : ∀ entry, fact.entry? = some entry → l.takes entry = false) :
    (step fact).Refused a := by
  have yields := step_yields d.unresolved fact
  cases read : fact.entry? with
  | none =>
    rw [read] at yields
    exact yields
  | some entry =>
    rw [read, Option.bind_some, d.enter?_of_not_takes sound few (refuses entry read)] at yields
    exact yields

/-- A fact is refused, or the ledger takes in what it says. -/
theorem Describes.step_cases (d : l.Describes a) (sound : l.Sound)
    (few : l.rows.length + 1 < 2 ^ 63) (fact : Fact) :
    ((step fact).Refused a ∧ ∀ entry, fact.entry? = some entry → l.takes entry = false) ∨
      ∃ entry id next, fact.entry? = some entry ∧ l.takes entry ∧
        (step fact).outcome a = (.ok id, next) ∧ (l.record entry).Describes next ∧
        (l.record entry).Sound := by
  by_cases taken : ∃ entry, fact.entry? = some entry ∧ l.takes entry
  · obtain ⟨entry, read, takes⟩ := taken
    have room := Nat.lt_of_le_of_lt (l.length_record_le entry) few
    obtain ⟨next, rest⟩ := d.outcome_of_takes sound read takes room
    exact .inr ⟨entry, _, next, read, takes, rest⟩
  · have refuses (entry : Entry) (read : fact.entry? = some entry) : l.takes entry = false := by
      by_contra takes
      exact taken ⟨entry, read, by simpa using takes⟩
    exact .inl ⟨d.refused_of_not_takes sound (by omega) refuses, refuses⟩

/-- The ledger of the facts accepted so far goes on to describe the run. -/
theorem describes_run_from (d : l.Describes a) (sound : l.Sound) (facts : List Fact)
    (few : l.rows.length + facts.length < 2 ^ 63) :
    (l.recordAll (a.accepted facts)).Describes (a.run facts) ∧
      (l.recordAll (a.accepted facts)).Sound ∧
      (l.recordAll (a.accepted facts)).rows.length ≤ l.rows.length + facts.length := by
  -- A fact adds at most one row, so the bound on the facts keeps the ids apart all along.
  induction facts generalizing l a with
  | nil => exact ⟨d, sound, Nat.le_refl _⟩
  | cons fact facts ih =>
    rw [List.length_cons] at few ⊢
    rw [run_cons]
    rcases d.step_cases sound (by omega) fact with
      ⟨refused, _⟩ | ⟨entry, id, next, read, _, ok, describes, soundAfter⟩
    · rw [accepted_cons_of_refused refused]
      obtain ⟨_, refused⟩ := refused
      rw [refused]
      obtain ⟨describes, soundAfter, length⟩ := ih d sound (by omega)
      exact ⟨describes, soundAfter, by omega⟩
    · rw [accepted_cons_of_ok ok, ok]
      have length := l.length_record_le entry
      rw [l.recordAll_cons read]
      obtain ⟨describes, soundAfter, lengthAfter⟩ := ih describes soundAfter (by omega)
      exact ⟨describes, soundAfter, by omega⟩

/-- A run from a new assembler leaves what the ledger of the accepted facts says. -/
theorem describes_run (facts : List Fact) (few : facts.length < 2 ^ 63) :
    (ofRun facts).Describes (Assembler.empty.run facts) ∧ (ofRun facts).Sound ∧
      (ofRun facts).rows.length ≤ facts.length := by
  have start : Ledger.empty.rows.length = 0 := rfl
  unfold ofRun
  obtain ⟨describes, sound, length⟩ :=
    describes_run_from describes_empty sound_empty facts (by omega)
  exact ⟨describes, sound, by omega⟩

end Ledger

end RevisionGraph
