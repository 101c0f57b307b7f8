import RevisionGraph.Proofs.Assembly.Success

/-!
# What is noted about methods

A method keeps what was noted about it when it was met first: what its first declaration notes, or
nothing if it was called before that (`Assembler.carries_run`).
-/

namespace RevisionGraph

open Json (Metadata)

namespace Entry

/-- The method that an entry meets, with what the entry notes about it. -/
def method? : Entry → Option Method
  | .type .. => none
  | .method m => m.uri.home?.map fun _ => m
  | .call c => some (.plain c.callee)

end Entry

def Fact.method? (fact : Fact) : Option Method := fact.entry?.bind Entry.method?

theorem Fact.method?_type (f : TypeFact) : Fact.method? (.type f) = none := by
  show (f.header?.map _).bind Entry.method? = none
  cases f.header? <;> rfl

theorem Fact.method?_declared {f : MethodFact} {method : Method}
    (met : Fact.method? (.method f) = some method) :
    f.uri = method.uri.text ∧ f.metadata = method.metadata := by
  obtain ⟨_, read, met⟩ := Option.bind_eq_some_iff.1 met
  obtain ⟨declared, fields, rfl⟩ := Option.map_eq_some_iff.1 read
  obtain ⟨_, _, rfl⟩ := Option.map_eq_some_iff.1 met
  obtain ⟨uri, parsed, rfl⟩ := Option.map_eq_some_iff.1 fields
  exact ⟨parse_toOption_eq_some_iff.1 parsed, rfl⟩

theorem Fact.method?_called {f : CallFact} {method : Method}
    (met : Fact.method? (.call f) = some method) :
    f.callee = method.uri.text ∧ method.metadata = ∅ := by
  obtain ⟨_, read, met⟩ := Option.bind_eq_some_iff.1 met
  obtain ⟨call, fields, rfl⟩ := Option.map_eq_some_iff.1 read
  cases met
  exact ⟨parse_toOption_eq_some_iff.1 (CallFact.call?_eq_some fields).2.1, rfl⟩

/-! ### The first that is met -/

/-- What facts note about a method where they meet it first. -/
def Fact.firstMet? (facts : List Fact) (uri : Uri) : Option Method :=
  (facts.filterMap Fact.method?).find? fun method => decide (method.uri = uri)

theorem Fact.uri_of_firstMet? {facts : List Fact} {uri : Uri} {method : Method}
    (met : Fact.firstMet? facts uri = some method) : method.uri = uri := by
  simpa using List.find?_some met

theorem Fact.isSome_firstMet? {facts : List Fact} {fact : Fact} {method : Method}
    (mem : fact ∈ facts) (meets : fact.method? = some method) :
    (Fact.firstMet? facts method.uri).isSome := by
  unfold Fact.firstMet?
  rw [List.find?_isSome]
  exact ⟨method, List.mem_filterMap.2 ⟨fact, mem, meets⟩, decide_eq_true rfl⟩

theorem Fact.firstMet?_append_cons {fact : Fact} {method : Method} (before after : List Fact)
    (meets : fact.method? = some method) :
    Fact.firstMet? (before ++ fact :: after) method.uri =
      (Fact.firstMet? before method.uri).or (some method) := by
  unfold Fact.firstMet?
  rw [List.filterMap_append, List.filterMap_cons_some meets, List.find?_append,
    List.find?_cons_of_pos (by simp)]

/-- What facts meet and do not declare they call, and they note nothing about it. -/
theorem Fact.called_of_firstMet? {facts : List Fact} {uri : Uri} {method : Method}
    (undeclared : ∀ f, Fact.method f ∈ facts → f.uri ≠ uri.text)
    (met : Fact.firstMet? facts uri = some method) :
    method.metadata = ∅ ∧ ∃ f, Fact.call f ∈ facts ∧ f.callee = uri.text := by
  have same := Fact.uri_of_firstMet? met
  obtain ⟨fact, mem, meets⟩ := List.mem_filterMap.1 (List.mem_of_find?_eq_some met)
  cases fact with
  | type f => cases (Fact.method?_type f).symm.trans meets
  | method f => exact absurd (same ▸ (Fact.method?_declared meets).1) (undeclared f mem)
  | call f =>
    obtain ⟨callee, metadata⟩ := Fact.method?_called meets
    exact ⟨metadata, f, mem, same ▸ callee⟩

theorem Fact.firstMet?_eq_none {facts : List Fact} {uri : Uri}
    (undeclared : ∀ f, Fact.method f ∈ facts → f.uri ≠ uri.text)
    (uncalled : ∀ f, Fact.call f ∈ facts → f.callee ≠ uri.text) :
    Fact.firstMet? facts uri = none := by
  cases met : Fact.firstMet? facts uri with
  | none => rfl
  | some method =>
    obtain ⟨_, f, mem, calls⟩ := Fact.called_of_firstMet? undeclared met
    exact absurd calls (uncalled f mem)

theorem Fact.firstMet?_of_called {facts : List Fact} {f : CallFact} {method : Method}
    (mem : Fact.call f ∈ facts) (meets : Fact.method? (.call f) = some method)
    (undeclared : ∀ f, Fact.method f ∈ facts → f.uri ≠ method.uri.text) :
    ∃ first, Fact.firstMet? facts method.uri = some first ∧ first.metadata = ∅ := by
  obtain ⟨first, met⟩ := Option.isSome_iff_exists.1 (Fact.isSome_firstMet? mem meets)
  exact ⟨first, met, (Fact.called_of_firstMet? undeclared met).1⟩

namespace Ledger

variable {l : Ledger} {a : Assembler}

/-! ### What a ledger holds about a method -/

def methodNamed? (l : Ledger) (uri : Uri) : Option Method :=
  (l.rows.map Prod.snd).find? fun method => decide (method.uri = uri)

theorem exists_row_of_methodNamed? {uri : Uri} {method : Method}
    (named : l.methodNamed? uri = some method) :
    ∃ id, (id, method) ∈ l.rows ∧ method.uri = uri := by
  obtain ⟨row, held, rfl⟩ := List.mem_map.1 (List.mem_of_find?_eq_some named)
  exact ⟨row.1, held, by simpa using List.find?_some named⟩

theorem methodNamed?_enrol (l : Ledger) (method : Method) (uri : Uri) :
    (l.enrol method).methodNamed? uri =
      (l.methodNamed? uri).or ([method].find? fun method => decide (method.uri = uri)) := by
  by_cases met : method.uri ∈ l.uris
  · rw [enrol_of_mem met]
    by_cases here : method.uri = uri
    · obtain ⟨row, held, same⟩ := mem_uris_iff.1 met
      cases named : l.methodNamed? uri with
      | some first => rfl
      | none =>
        have unnamed := List.find?_eq_none.1 named row.2 (List.mem_map_of_mem held)
        exact absurd (decide_eq_true (same.trans here)) unnamed
    · simp [here]
  · unfold methodNamed?
    rw [rows_enrol_of_new met, List.map_append, List.find?_append]
    rfl

theorem methodNamed?_record (l : Ledger) (entry : Entry) (uri : Uri) :
    (l.record entry).methodNamed? uri =
      (l.methodNamed? uri).or (entry.method?.toList.find? fun method => decide (method.uri = uri))
    := by
  cases entry with
  | type => exact Option.or_none.symm
  | method method =>
    cases homed : method.uri.home? with
    | none =>
      simp only [record, Entry.method?, homed, Option.map_none]
      exact Option.or_none.symm
    | some home =>
      have before : (l.declareNew home).methodNamed? uri = l.methodNamed? uri := by
        unfold methodNamed?
        rw [rows_declareNew]
      rw [record_method homed, methodNamed?_enrol, before, Entry.method?, homed]
      rfl
  | call call => exact l.methodNamed?_enrol (.plain call.callee) uri

/-- Of all that facts note about a method the first counts. -/
theorem methodNamed?_recordAll (l : Ledger) (facts : List Fact) (uri : Uri) :
    (l.recordAll facts).methodNamed? uri =
      (l.methodNamed? uri).or (Fact.firstMet? facts uri) := by
  have flat : facts.filterMap Fact.method? =
      (facts.filterMap Fact.entry?).filterMap Entry.method? := List.filterMap_filterMap.symm
  unfold recordAll Fact.firstMet?
  rw [flat]
  induction facts.filterMap Fact.entry? generalizing l with
  | nil => exact Option.or_none.symm
  | cons entry entries ih =>
    rw [List.foldl_cons, ih, methodNamed?_record, Option.or_assoc, ← List.find?_append,
      List.filterMap_cons]
    cases entry.method? <;> rfl

theorem Tells.declared {facts : List Fact} (tells : l.Tells a facts) {f : MethodFact}
    (mem : Fact.method f ∈ facts) :
    ∃ method, Fact.method? (.method f) = some method ∧
      (l.recordAll facts).isDeclared method.uri := by
  obtain ⟨entry, read, takes⟩ := tells.taken _ mem
  obtain ⟨method, _, rfl⟩ := Option.map_eq_some_iff.1 read
  obtain ⟨home, homed⟩ := Option.isSome_iff_exists.1 takes
  refine ⟨method, ?_, isDeclared_iff.2 ⟨home, homed, ?_⟩⟩
  · unfold Fact.method?
    rw [read, Option.bind_some, Entry.method?, homed]
    rfl
  · exact (contains_foldl_record _ l home).2 (.inr ⟨_, List.mem_filterMap.2 ⟨_, mem, read⟩, homed⟩)

theorem Tells.called {facts : List Fact} (tells : l.Tells a facts) {c : CallFact}
    (mem : Fact.call c ∈ facts) : ∃ method, Fact.method? (.call c) = some method := by
  obtain ⟨entry, read, _⟩ := tells.taken _ mem
  obtain ⟨call, _, rfl⟩ := Option.map_eq_some_iff.1 read
  refine ⟨.plain call.callee, ?_⟩
  unfold Fact.method?
  rw [read]
  rfl

end Ledger

/-! ### What is held -/

namespace Assembler

open Ledger

/-- The method is internal and carries this metadata, and stands nowhere with another. -/
structure Carries (a : Assembler) (uri : Uri) (metadata : Metadata) : Prop where
  held : ∃ id, (id, ⟨uri, metadata⟩) ∈ a.hierarchy.methods .internal
  only : ∀ scope id method, (id, method) ∈ a.hierarchy.methods scope → method.uri = uri →
    method.metadata = metadata

/-- A declared method carries in the end what was noted where it was met first. -/
theorem carries_of_firstMet? {facts : List Fact} (few : (registered facts).card < 2 ^ 63)
    (tells : Ledger.empty.Tells .empty facts) {uri : Uri} {method : Method}
    (met : Fact.firstMet? facts uri = some method)
    (declared : (Ledger.empty.recordAll facts).isDeclared uri) :
    (empty.run facts).Carries uri method.metadata := by
  have room := Nat.lt_of_le_of_lt (length_recordAll_le facts) few
  obtain ⟨id, row, rfl⟩ := exists_row_of_methodNamed?
    ((Ledger.empty.methodNamed?_recordAll facts uri).trans met)
  constructor
  · refine ⟨id, (tells.describes.mem_methods_iff tells.sound room).2 ⟨row, ?_⟩⟩
    unfold methodScope
    rw [if_pos declared]
  · intro scope id' method' also same
    obtain ⟨also, _⟩ := (tells.describes.mem_methods_iff tells.sound room).1 also
    cases ((tells.sound.distinct room).row_eq also row).2 same
    rfl

theorem undeclared_settled : ∀ g, Fact.method g ∈ settledFacts.take 4 → g.uri ≠ addUri.text := by
  intro g mem
  simp only [settledFacts, List.take_succ_cons, List.take_zero, List.mem_cons, Fact.method.injEq,
    reduceCtorEq, List.not_mem_nil, or_false] at mem
  rw [mem]
  decide

/-- What the first declaration of a method notes about it is what the method carries, whatever is
declared after that; but a method that is called before its first declaration carries nothing. -/
theorem carries_run {before after : List Fact} {f : MethodFact}
    (few : (registered (before ++ .method f :: after)).card < 2 ^ 63)
    (succeeds : empty.Succeeds (before ++ .method f :: after))
    (first : ∀ g, Fact.method g ∈ before → g.uri ≠ f.uri) :
    ∃ uri : Uri, uri.text = f.uri ∧
      ((∀ c, Fact.call c ∈ before → c.callee ≠ f.uri) →
        (empty.run (before ++ .method f :: after)).Carries uri f.metadata) ∧
      ((∃ c, Fact.call c ∈ before ∧ c.callee = f.uri) →
        (empty.run (before ++ .method f :: after)).Carries uri ∅) := by
  have tells := tells_of_succeeds few succeeds
  obtain ⟨method, declares, declared⟩ :=
    tells.declared (List.mem_append_right before List.mem_cons_self)
  obtain ⟨text, metadata⟩ := Fact.method?_declared declares
  have met := Fact.firstMet?_append_cons before after declares
  rw [text] at first ⊢
  refine ⟨method.uri, rfl, ?_, ?_⟩
  · intro uncalled
    rw [Fact.firstMet?_eq_none first uncalled] at met
    exact metadata ▸ carries_of_firstMet? few tells met declared
  · rintro ⟨c, mem, calls⟩
    obtain ⟨called, meets⟩ := tells.called (List.mem_append_left _ mem)
    have same : method.uri = called.uri :=
      Uri.text_injective.1 (calls.symm.trans (Fact.method?_called meets).1)
    rw [same] at first met declared ⊢
    obtain ⟨earliest, earlier, nothing⟩ := Fact.firstMet?_of_called mem meets first
    rw [earlier] at met
    exact nothing ▸ carries_of_firstMet? few tells met declared

theorem carries_run_settled :
    (registered settledFacts).card < 2 ^ 63 ∧ empty.Succeeds settledFacts ∧
      (∀ g, Fact.method g ∈ settledFacts.take 4 → g.uri ≠ addUri.text) ∧
      (empty.run settledFacts).Carries mainUri (SortedMap.empty.insert "start" (.bool true)) ∧
      (empty.run settledFacts).Carries addUri ∅ := by
  have few : (registered settledFacts).card < 2 ^ 63 :=
    Nat.lt_of_le_of_lt (card_registered_le settledFacts) (by decide)
  obtain ⟨uri, text, uncalled, _⟩ :=
    @carries_run [] settledFacts.tail _ few succeeds_settled (by simp)
  obtain rfl : uri = mainUri := Uri.ext_text text
  obtain ⟨uri, text, _, called⟩ := @carries_run (settledFacts.take 4) (settledFacts.drop 5)
    ⟨addUri.text, SortedMap.empty.insert "first" (.int 4)⟩ few succeeds_settled undeclared_settled
  obtain rfl : uri = addUri := Uri.ext_text text
  have mem : Fact.call ⟨mainUri.text, addUri.text, 3, "static", ∅⟩ ∈ settledFacts.take 4 :=
    List.mem_cons_of_mem _ List.mem_cons_self
  exact ⟨few, succeeds_settled, undeclared_settled, uncalled (by simp), called ⟨_, mem, rfl⟩⟩

/-- A method that is called first does not come to carry what its first declaration notes. -/
theorem not_carries_first_declared :
    ¬∀ (before after : List Fact) (f : MethodFact) (uri : Uri),
      empty.Succeeds (before ++ .method f :: after) →
      (∀ g, Fact.method g ∈ before → g.uri ≠ f.uri) → uri.text = f.uri →
      (empty.run (before ++ .method f :: after)).Carries uri f.metadata := by
  intro all
  have carries := all (settledFacts.take 4) (settledFacts.drop 5)
    ⟨addUri.text, SortedMap.empty.insert "first" (.int 4)⟩ addUri succeeds_settled
    undeclared_settled rfl
  obtain ⟨id, held⟩ := carries.held
  have nothing : ∀ row ∈ (empty.run settledFacts).hierarchy.methods .internal,
      row.2.uri = addUri → row.2.metadata.size = 0 := by decide +kernel
  cases nothing _ held rfl

end Assembler

end RevisionGraph
