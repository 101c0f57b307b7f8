import RevisionGraph.Proofs.Assembly.Success

/-!
# Running facts again

What facts say is not changed by saying it again: a run of the same facts on the assembler that they
left gives the same answers and leaves it as it is (`Assembler.run_again`).
-/

namespace RevisionGraph

namespace Entry

/-- The header that an entry gives to a type. -/
def header? (home : Uri) : Entry → Option TypeDecl
  | .type uri header => if home = uri then some header else none
  | .method _ | .call _ => none

/-- The header that a type has after an entry if it had none before. -/
def fallback? (home : Uri) : Entry → Option TypeDecl
  | .method m => if m.uri.home? = some home then some .placeholder else none
  | .type .. | .call _ => none

end Entry

namespace Ledger

variable {l l' : Ledger} {a a' : Assembler}

/-! ### Recording again -/

theorem get?_types_declareNew (l : Ledger) (uri home : Uri) :
    (l.declareNew uri).types.get? home =
      (l.types.get? home).or (if uri = home then some .placeholder else none) := by
  cases declared : l.types.contains uri with
  | true =>
    rw [declareNew_of_declared declared]
    split <;> rename_i here
    · obtain ⟨header, held⟩ := SortedMap.contains_iff.1 declared
      rw [← here, held]
      rfl
    · exact Option.or_none.symm
  | false =>
    rw [declareNew_of_new declared]
    show (l.types.insert uri .placeholder).get? home = _
    rw [SortedMap.get?_insert]
    by_cases here : uri = home
    · rw [if_pos here.symm, if_pos here, ← here, get?_types_of_undeclared declared]
      rfl
    · rw [if_neg (Ne.symm here), if_neg here, Option.or_none]

theorem get?_types_record (l : Ledger) (entry : Entry) (home : Uri) :
    (l.record entry).types.get? home =
      ((entry.header? home).or (l.types.get? home)).or (entry.fallback? home) := by
  cases entry with
  | type uri header =>
    show (l.types.insert uri header).get? home = _
    rw [SortedMap.get?_insert, Entry.header?, Entry.fallback?, Option.or_none]
    split <;> rfl
  | method method =>
    cases homed : method.uri.home? with
    | none => simp [record, homed, Entry.header?, Entry.fallback?]
    | some uri =>
      rw [record_method homed, types_enrol, get?_types_declareNew]
      simp [Entry.header?, Entry.fallback?, homed]
  | call call =>
    show (l.enrol _).types.get? home = _
    rw [types_enrol]
    simp [Entry.header?, Entry.fallback?]

/-- What entries make of the header of a type: they give one, or leave it, or have one to fall back
on. -/
theorem exists_get?_types_foldl (entries : List Entry) (home : Uri) :
    ∃ given fallback, ∀ l : Ledger, (entries.foldl record l).types.get? home =
      (Option.or given (l.types.get? home)).or fallback := by
  induction entries with
  | nil => exact ⟨none, none, fun l => by simp⟩
  | cons entry entries ih =>
    obtain ⟨given, fallback, after⟩ := ih
    refine ⟨given.or (entry.header? home), (entry.fallback? home).or fallback, fun l => ?_⟩
    rw [List.foldl_cons, after, get?_types_record]
    simp only [Option.or_assoc]

theorem types_recordAll_again (l : Ledger) (facts : List Fact) :
    ((l.recordAll facts).recordAll facts).types = (l.recordAll facts).types := by
  apply SortedMap.ext_get?
  intro home
  obtain ⟨given, fallback, after⟩ := exists_get?_types_foldl (facts.filterMap Fact.entry?) home
  unfold recordAll
  rw [after, after]
  cases given <;> cases l.types.get? home <;> cases fallback <;> rfl

theorem rows_foldl_record_of_met {entries : List Entry}
    (met : ∀ entry ∈ entries, ∀ uri, entry.meets? = some uri → uri ∈ l.uris) :
    (entries.foldl record l).rows = l.rows := by
  induction entries generalizing l with
  | nil => rfl
  | cons entry entries ih =>
    obtain ⟨head, rest⟩ := List.forall_mem_cons.1 met
    rw [List.foldl_cons, ih, rows_record_of_met head]
    intro other mem uri meets
    exact (l.within_record entry).uris uri (rest other mem uri meets)

theorem rows_recordAll_again (l : Ledger) (facts : List Fact) :
    ((l.recordAll facts).recordAll facts).rows = (l.recordAll facts).rows := by
  apply rows_foldl_record_of_met
  intro entry mem uri meets
  exact (mem_uris_foldl_record _ l uri).2 (.inr ⟨entry, mem, meets⟩)

theorem foldl_addSite (held : Option CallSites) (calls : List Call) :
    calls.foldl addSite held = CallGraph.merged held (calls.foldl addSite none) := by
  induction calls generalizing held with
  | nil => rfl
  | cons call calls ih =>
    have step (held : Option CallSites) : addSite held call =
        CallGraph.merged held (some (SortedMap.empty.insert call.site call.metadata)) := rfl
    rw [List.foldl_cons, List.foldl_cons, ih (addSite held call), ih (addSite none call), step,
      step none, CallGraph.merged_none, CallGraph.merged_assoc]

/-- Calls that are noted twice leave the sites that they leave when they are noted once. -/
theorem sites?_of_calls_again {calls : List Call} (once : l.calls = calls)
    (again : l'.calls = calls ++ calls) (caller callee : Uri) :
    l'.sites? caller callee = l.sites? caller callee := by
  unfold sites?
  rw [once, again, List.filter_append, List.foldl_append, foldl_addSite, CallGraph.merged_self]

theorem sites?_recordAll_again (facts : List Fact) (caller callee : Uri) :
    ((empty.recordAll facts).recordAll facts).sites? caller callee =
      (empty.recordAll facts).sites? caller callee := by
  have calls := calls_foldl_record (facts.filterMap Fact.entry?)
  apply sites?_of_calls_again (calls empty)
  unfold recordAll
  rw [calls, calls]
  rfl

/-! ### What a ledger determines -/

/-- Types, rows and sites of a ledger determine what the ledger describes. -/
theorem Describes.unique (d : l.Describes a) (d' : l'.Describes a') (types : l.types = l'.types)
    (rows : l.rows = l'.rows)
    (sites : ∀ caller callee, l.sites? caller callee = l'.sites? caller callee) : a = a' := by
  have ids : a.nextId = a'.nextId := by rw [d.nextId, d'.nextId, rows]
  have hierarchies : a.hierarchy = a'.hierarchy := by
    apply Hierarchy.ext_type?
    intro scope home
    rw [d.types, d'.types]
    unfold Ledger.scopeOf? typeOf rowsOf
    rw [types, rows]
  have graphs : a.calls = a'.calls := by
    apply CallGraph.ext_sites?
    intro relation pair
    rw [d.calls, d'.calls]
    unfold pairSites? relationOf isDeclared
    rw [types, rows]
    simp only [sites]
  obtain ⟨nextId, hierarchy, calls⟩ := a
  exact congr (congr (congrArg Assembler.mk ids) hierarchies) graphs

end Ledger

namespace Assembler

open Ledger

/-- A run of facts that all succeed can be made again: no fact fails, each is answered as it was at
first, and the assembler stays as it is. -/
theorem run_again {facts : List Fact} (few : facts.length < 2 ^ 63)
    (succeeds : empty.Succeeds facts) :
    (empty.run facts).Succeeds facts ∧ (empty.run facts).answers facts = empty.answers facts ∧
      (empty.run facts).run facts = empty.run facts := by
  have once := Ledger.tells_of_succeeds (Nat.lt_of_le_of_lt (card_registered_le facts) few) succeeds
  have rows := Ledger.empty.rows_recordAll_again facts
  have room : ((Ledger.empty.recordAll facts).recordAll facts).rows.length < 2 ^ 63 := by
    rw [rows]
    exact Nat.lt_of_le_of_lt
      ((length_recordAll_le facts).trans (card_registered_le facts)) few
  have succeedsAgain := once.describes.succeeds_of_takes once.sound room once.taken
  have twice := once.describes.tells_of_succeeds once.sound room succeedsAgain
  refine ⟨succeedsAgain, ?_, ?_⟩
  · rw [twice.answers, once.answers, answer?_congr rows]
  · exact twice.describes.unique once.describes (types_recordAll_again _ facts) rows
      (sites?_recordAll_again facts)

theorem run_again_settled :
    settledFacts.length < 2 ^ 63 ∧ empty.Succeeds settledFacts ∧
      (empty.run settledFacts).answers settledFacts = empty.answers settledFacts ∧
      (empty.run settledFacts).run settledFacts = empty.run settledFacts := by
  have few : settledFacts.length < 2 ^ 63 := by decide
  exact ⟨few, succeeds_settled, (run_again few succeeds_settled).2⟩

end Assembler

end RevisionGraph
