import RevisionGraph.Proofs.Assembly.Bindings

/-!
# Runs that never fail

If no fact of a run fails, then the ledger of all its facts tells what the run leaves and what each
fact is answered: `Ledger.Describes.tells_of_succeeds`.
-/

namespace RevisionGraph

namespace Assembler

open Assembly

/-- What the steps of a run are answered, one after the other. -/
def answers (a : Assembler) : List Fact → List (Except Failure (Option Int64))
  | [] => []
  | fact :: facts => ((step fact).outcome a).1 :: ((step fact).outcome a).2.answers facts

/-- No step of a run fails. -/
def Succeeds (a : Assembler) (facts : List Fact) : Prop := ∀ answer ∈ a.answers facts, answer.isOk

instance (a : Assembler) (facts : List Fact) : Decidable (a.Succeeds facts) :=
  inferInstanceAs (Decidable (∀ answer ∈ a.answers facts, answer.isOk))

/-- A type is called, and declared after that, and then declared again together with the method. -/
def settledFacts : List Fact :=
  [.method ⟨"/app/Main.main()V", SortedMap.empty.insert "start" (.bool true)⟩,
    .call ⟨"/app/Main.main()V", "/lib/List.add()V", 3, "static", ∅⟩,
    .type ⟨"/lib/List", "List.java", [], [], "public", false⟩,
    .call ⟨"/app/Main.main()V", "/lib/List.add()V", 3, "virtual",
      SortedMap.empty.insert "line" (.int 7)⟩,
    .method ⟨"/lib/List.add()V", SortedMap.empty.insert "first" (.int 4)⟩,
    .type ⟨"/lib/List", "List.kt", [], ["/lib/Any"], "public", true⟩]

theorem succeeds_settled : empty.Succeeds settledFacts := by decide +kernel

def mainUri : Uri :=
  ⟨"/app/Main.main()V", .local ⟨"app".toList, some "Main.main()V".toList⟩, by decide⟩

def addUri : Uri :=
  ⟨"/lib/List.add()V", .local ⟨"lib".toList, some "List.add()V".toList⟩, by decide⟩

theorem succeeds_cons {a : Assembler} {fact : Fact} {facts : List Fact} :
    a.Succeeds (fact :: facts) ↔
      ((step fact).outcome a).1.isOk ∧ ((step fact).outcome a).2.Succeeds facts :=
  List.forall_mem_cons

end Assembler

namespace Ledger

open Assembler

variable {l l' : Ledger} {a : Assembler}

/-! ### Many entries -/

theorem within_recordAll (l : Ledger) (facts : List Fact) : l.Within (l.recordAll facts) where
  uris uri met := (mem_uris_foldl_record _ l uri).2 (.inl met)
  types uri declared := (contains_foldl_record _ l uri).2 (.inl declared)

/-- An entry that was taken in keeps its answer if rows are added. -/
theorem answer?_of_more_rows {entry : Entry} (takes : l.takes entry)
    (more : (l.record entry).rows <+: l'.rows) :
    l'.answer? entry = (l.record entry).answer? entry := by
  cases entry with
  | type | call => rfl
  | method method =>
    obtain ⟨home, homed⟩ := Option.isSome_iff_exists.1 takes
    have meets : (Entry.method method).meets? = some method.uri := by
      rw [Entry.meets?, homed]
      rfl
    exact idOf?_of_more_rows more ((mem_uris_record l _ _).2 (.inr meets))

theorem answer?_congr (rows : l.rows = l'.rows) : l.answer? = l'.answer? := by
  funext entry
  unfold answer? Ledger.idOf?
  rw [rows]

theorem nodup_uris_record (distinct : l.uris.Nodup) (entry : Entry) :
    (l.record entry).uris.Nodup := by
  cases entry with
  | type => exact distinct
  | method method =>
    cases homed : method.uri.home? with
    | none =>
      simp only [record, homed]
      exact distinct
    | some home =>
      rw [record_method homed]
      exact nodup_uris_enrol (uris_declareNew l home ▸ distinct) method
  | call call => exact nodup_uris_enrol distinct (.plain call.callee)

theorem nodup_uris_recordAll (distinct : l.uris.Nodup) (facts : List Fact) :
    (l.recordAll facts).uris.Nodup := by
  unfold recordAll
  induction facts.filterMap Fact.entry? generalizing l with
  | nil => exact distinct
  | cons entry entries ih => exact ih (nodup_uris_record distinct entry)

/-- The ledger of facts has no more rows than methods that the facts register. -/
theorem length_recordAll_le (facts : List Fact) :
    (empty.recordAll facts).rows.length ≤ (registered facts).card := by
  have distinct := nodup_uris_recordAll (l := empty) List.nodup_nil facts
  have counted :
      (empty.recordAll facts).rows.length = (empty.recordAll facts).uris.toFinset.card := by
    rw [List.toFinset_card_of_nodup distinct]
    exact (List.length_map _).symm
  rw [counted]
  apply Finset.card_le_card
  intro uri met
  rcases (mem_uris_foldl_record _ empty uri).1 (List.mem_toFinset.1 met) with
    none | ⟨entry, mem, meets⟩
  · cases none
  · obtain ⟨fact, mem, read⟩ := List.mem_filterMap.1 mem
    exact List.mem_toFinset.2
      (List.mem_filterMap.2 ⟨fact, mem, Fact.registers?_of_meets read meets⟩)

theorem card_registered_le (facts : List Fact) : (registered facts).card ≤ facts.length :=
  (List.toFinset_card_le _).trans (List.length_filterMap_le _ _)

/-! ### Success -/

/-- A fact that does not fail has an entry, which the ledger takes in. -/
theorem Describes.takes_of_isOk (d : l.Describes a) (sound : l.Sound) (few : l.rows.length < 2 ^ 63)
    {fact : Fact} (ok : ((step fact).outcome a).1.isOk) :
    ∃ entry, fact.entry? = some entry ∧ l.takes entry := by
  by_contra refuses
  simp only [not_exists, not_and, Bool.not_eq_true] at refuses
  obtain ⟨_, refused⟩ := d.refused_of_not_takes sound few refuses
  rw [refused] at ok
  cases ok

/-- What the ledger of a run tells: the state that is left, and each answer. -/
structure Tells (l : Ledger) (a : Assembler) (facts : List Fact) : Prop where
  describes : (l.recordAll facts).Describes (a.run facts)
  sound : (l.recordAll facts).Sound
  taken : ∀ fact ∈ facts, ∃ entry, fact.entry? = some entry ∧ (l.recordAll facts).takes entry
  answers : a.answers facts =
    facts.map fun fact => .ok (fact.entry?.bind (l.recordAll facts).answer?)

/-- The ledger of all facts tells a run of them if none fails. It has to have room for ids only as
far as the run needs new ones. -/
theorem Describes.tells_of_succeeds (d : l.Describes a) (sound : l.Sound) {facts : List Fact}
    (room : (l.recordAll facts).rows.length < 2 ^ 63) (succeeds : a.Succeeds facts) :
    l.Tells a facts := by
  induction facts generalizing l a with
  | nil => exact ⟨d, sound, by simp, rfl⟩
  | cons fact facts ih =>
    obtain ⟨ok, rest⟩ := succeeds_cons.1 succeeds
    have few := Nat.lt_of_le_of_lt (l.rows_prefix_recordAll (fact :: facts)).length_le room
    obtain ⟨entry, read, takes⟩ := d.takes_of_isOk sound few ok
    have later := l.recordAll_cons read facts
    have more := (l.record entry).rows_prefix_recordAll facts
    rw [later] at room
    obtain ⟨next, outcome, describes, soundAfter⟩ :=
      d.outcome_of_takes sound read takes (Nat.lt_of_le_of_lt more.length_le room)
    rw [outcome] at rest
    have tells := ih describes soundAfter room rest
    refine ⟨?_, later ▸ tells.sound, ?_, ?_⟩
    · rw [later, run_cons, outcome]
      exact tells.describes
    · rw [later]
      refine List.forall_mem_cons.2 ⟨⟨entry, read, ?_⟩, tells.taken⟩
      exact (within_recordAll _ facts).takes ((l.within_record entry).takes takes)
    · rw [later, List.map_cons, read, Option.bind_some, answer?_of_more_rows takes more,
        ← tells.answers, Assembler.answers, outcome]

/-- Facts whose entries the ledger takes in from the start do not fail. -/
theorem Describes.succeeds_of_takes (d : l.Describes a) (sound : l.Sound) {facts : List Fact}
    (room : (l.recordAll facts).rows.length < 2 ^ 63)
    (taken : ∀ fact ∈ facts, ∃ entry, fact.entry? = some entry ∧ l.takes entry) :
    a.Succeeds facts := by
  induction facts generalizing l a with
  | nil => exact fun _ mem => by cases mem
  | cons fact facts ih =>
    obtain ⟨⟨entry, read, takes⟩, rest⟩ := List.forall_mem_cons.1 taken
    rw [l.recordAll_cons read] at room
    have more := (l.record entry).rows_prefix_recordAll facts
    obtain ⟨next, outcome, describes, soundAfter⟩ :=
      d.outcome_of_takes sound read takes (Nat.lt_of_le_of_lt more.length_le room)
    rw [succeeds_cons, outcome]
    refine ⟨rfl, ih describes soundAfter room ?_⟩
    intro fact mem
    obtain ⟨other, readOther, takesOther⟩ := rest fact mem
    exact ⟨other, readOther, (l.within_record entry).takes takesOther⟩

theorem tells_of_succeeds {facts : List Fact} (few : (registered facts).card < 2 ^ 63)
    (succeeds : Assembler.empty.Succeeds facts) : Ledger.empty.Tells .empty facts :=
  describes_empty.tells_of_succeeds sound_empty
    (Nat.lt_of_le_of_lt (length_recordAll_le facts) few) succeeds

end Ledger

end RevisionGraph
