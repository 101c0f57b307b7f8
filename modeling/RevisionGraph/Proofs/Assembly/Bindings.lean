import Mathlib.Data.Finset.Card
import Mathlib.Data.Finset.Dedup
import RevisionGraph.Proofs.Assembly.Meaning

/-!
# Bindings of methods to ids

A method is bound to the number of the methods that were registered before it, and stays bound to
that id whatever the run goes on with: `Assembler.binds_run`.
-/

namespace RevisionGraph

/-- The method that a fact registers if it is accepted. -/
def Fact.registers? : Fact → Option Uri
  | .type _ => none
  | .method f => (Uri.parse f.uri).toOption
  | .call f => (Uri.parse f.callee).toOption

/-- A fact registers what its entry meets. -/
theorem Fact.registers?_of_meets {fact : Fact} {entry : Entry} (read : fact.entry? = some entry)
    {uri : Uri} (meets : entry.meets? = some uri) : fact.registers? = some uri := by
  cases fact with
  | type f =>
    obtain ⟨_, _, rfl⟩ := Option.map_eq_some_iff.1 read
    cases meets
  | method f =>
    obtain ⟨method, fields, rfl⟩ := Option.map_eq_some_iff.1 read
    obtain ⟨home, _, rfl⟩ := Option.map_eq_some_iff.1 meets
    exact MethodFact.method?_eq_some fields
  | call f =>
    obtain ⟨call, fields, rfl⟩ := Option.map_eq_some_iff.1 read
    cases meets
    exact (CallFact.call?_eq_some fields).2.1

theorem Fact.registers?_of_takes {fact : Fact} {entry : Entry} {l : Ledger}
    (read : fact.entry? = some entry) (takes : l.takes entry) :
    fact.registers? = entry.meets? := by
  cases meets : entry.meets? with
  | some uri => exact Fact.registers?_of_meets read meets
  | none =>
    cases fact with
    | type => rfl
    | method f =>
      obtain ⟨method, _, rfl⟩ := Option.map_eq_some_iff.1 read
      obtain ⟨home, homed⟩ := Option.isSome_iff_exists.1 takes
      rw [Entry.meets?, homed] at meets
      cases meets
    | call f =>
      obtain ⟨_, _, rfl⟩ := Option.map_eq_some_iff.1 read
      cases meets

/-- The methods that the facts register, each counted once. -/
def registered (facts : List Fact) : Finset Uri := (facts.filterMap Fact.registers?).toFinset

namespace Ledger

open Assembler

variable {l : Ledger} {a : Assembler}

/-! ### Rows stay -/

theorem rows_prefix_recordAll (l : Ledger) (facts : List Fact) :
    l.rows <+: (l.recordAll facts).rows := by
  unfold recordAll
  induction facts.filterMap Fact.entry? generalizing l with
  | nil => exact List.prefix_rfl
  | cons entry entries ih => exact (l.rows_prefix_record entry).trans (ih (l.record entry))

/-- An entry that meets nothing new adds no row. -/
theorem rows_record_of_met {entry : Entry}
    (met : ∀ uri, entry.meets? = some uri → uri ∈ l.uris) : (l.record entry).rows = l.rows := by
  cases entry with
  | type => rfl
  | method method =>
    cases homed : method.uri.home? with
    | none => simp only [record, homed]
    | some home =>
      have meets : (Entry.method method).meets? = some method.uri := by
        rw [Entry.meets?, homed]
        rfl
      have known := met _ meets
      rw [← uris_declareNew l home] at known
      rw [record_method homed, enrol_of_mem known, rows_declareNew]
  | call call =>
    show (l.enrol (.plain call.callee)).rows = _
    rw [enrol_of_mem (met _ rfl)]

theorem rows_record_of_new {entry : Entry} {uri : Uri} (meets : entry.meets? = some uri)
    (new : uri ∉ l.uris) :
    ∃ method : Method, method.uri = uri ∧
      (l.record entry).rows = l.rows ++ [(Int64.ofNat l.rows.length, method)] := by
  cases entry with
  | type => cases meets
  | method method =>
    obtain ⟨home, homed, rfl⟩ := Option.map_eq_some_iff.1 meets
    rw [← uris_declareNew l home] at new
    refine ⟨method, rfl, ?_⟩
    rw [record_method homed, rows_enrol_of_new new, rows_declareNew]
  | call call =>
    cases meets
    exact ⟨.plain call.callee, rfl, rows_enrol_of_new new⟩

theorem recordAll_append (l : Ledger) (first second : List Fact) :
    l.recordAll (first ++ second) = (l.recordAll first).recordAll second := by
  unfold recordAll
  rw [List.filterMap_append, List.foldl_append]

/-! ### What is bound -/

theorem Describes.idOf?_eq_some_iff (d : l.Describes a) (sound : l.Sound)
    (few : l.rows.length < 2 ^ 63) {scope : Scope} {uri : Uri} {id : Int64} :
    a.idOf? scope uri = some id ↔
      scope = l.methodScope uri ∧ ∃ row ∈ l.rows, row.1 = id ∧ row.2.uri = uri := by
  constructor
  · intro known
    obtain ⟨row, held, same, rfl, home, homed, here⟩ := d.row_of_idOf? sound few known
    exact ⟨Option.some.inj (here.symm.trans (scopeOf?_of_row held homed)), row, held, same, rfl⟩
  · rintro ⟨rfl, row, held, rfl, rfl⟩
    obtain ⟨home, homed⟩ := sound.homes row held
    have mine : row ∈ l.rowsOf home := mem_rowsOf_iff.2 ⟨held, homed⟩
    have bound : (l.typeOf home).methods.idOf? row.2.uri = some row.1 :=
      (MethodTable.idOf?_ofList (sound.distinctOf few home)).2 ⟨row, mine, rfl, rfl⟩
    unfold Assembler.idOf?
    rw [homed, Option.bind_eq_bind, Option.bind_some,
      d.type?_of_scope (scopeOf?_of_row held homed), Option.bind_eq_bind, Option.bind_some, bound]

/-! ### What was registered -/

theorem mem_uris_ofRun {facts : List Fact} (few : facts.length < 2 ^ 63) {uri : Uri} :
    uri ∈ (ofRun facts).uris ↔ uri ∈ registered (Assembler.empty.accepted facts) := by
  have start : Ledger.empty.rows.length = 0 := rfl
  have taken := describes_empty.taken_of_accepted sound_empty facts (by omega)
  unfold ofRun recordAll registered
  rw [mem_uris_foldl_record, List.mem_toFinset, List.mem_filterMap]
  constructor
  · rintro (none | ⟨entry, mem, meets⟩)
    · cases none
    · obtain ⟨fact, mem, read⟩ := List.mem_filterMap.1 mem
      obtain ⟨_, again, _, takes⟩ := taken fact mem
      cases read.symm.trans again
      exact ⟨fact, mem, (Fact.registers?_of_takes read takes).trans meets⟩
  · rintro ⟨fact, mem, registers⟩
    obtain ⟨entry, read, _, takes⟩ := taken fact mem
    exact .inr ⟨entry, List.mem_filterMap.2 ⟨fact, mem, read⟩,
      (Fact.registers?_of_takes read takes).symm.trans registers⟩

theorem length_rows_ofRun {facts : List Fact} (few : facts.length < 2 ^ 63) :
    (ofRun facts).rows.length = (registered (Assembler.empty.accepted facts)).card := by
  obtain ⟨_, sound, _⟩ := describes_run facts few
  have same : (ofRun facts).uris.toFinset = registered (Assembler.empty.accepted facts) := by
    ext uri
    rw [List.mem_toFinset, mem_uris_ofRun few]
  rw [← same, List.toFinset_card_of_nodup sound.uris]
  exact (List.length_map _).symm

end Ledger

namespace Assembler

open Ledger Assembly

variable {a : Assembler} {l : Ledger}

/-- The method has the id in the type that holds it, in no type another one, and it would be given
the id again. -/
structure Binds (a : Assembler) (uri : Uri) (id : Int64) : Prop where
  held : ∃ scope, a.idOf? scope uri = some id
  only : ∀ scope other, a.idOf? scope uri = some other → other = id
  again : ∀ f : MethodFact, f.uri = uri.text → ∃ next, (addMethod f).outcome a = (.ok id, next)

theorem given_of_new (d : l.Describes a) (sound : l.Sound) (few : l.rows.length + 1 < 2 ^ 63)
    {f : MethodFact} {entry : Entry} {uri : Uri} (read : Fact.entry? (.method f) = some entry)
    (takes : l.takes entry) (registers : (Fact.method f).registers? = some uri)
    (new : uri ∉ l.uris) :
    ∃ next, (step (.method f)).outcome a = (.ok (some (Int64.ofNat l.rows.length)), next) := by
  have room := Nat.lt_of_le_of_lt (l.length_record_le entry) few
  obtain ⟨next, ok, _, soundAfter⟩ := d.outcome_of_takes sound read takes room
  have meets := (Fact.registers?_of_takes read takes).symm.trans registers
  obtain ⟨method, rfl, rows⟩ := rows_record_of_new meets new
  have held : (Int64.ofNat l.rows.length, method) ∈ (l.record entry).rows := by
    rw [rows]
    exact List.mem_append_right _ (List.mem_singleton.2 rfl)
  obtain ⟨declared, fields, rfl⟩ := Option.map_eq_some_iff.1 read
  have same : declared.uri = method.uri :=
    Option.some.inj ((MethodFact.method?_eq_some fields).symm.trans registers)
  rw [answer?, same, soundAfter.idOf?_of_row held] at ok
  exact ⟨next, ok⟩

/-- A method that was met is answered with the id of its row. -/
theorem given_of_row (d : l.Describes a) (sound : l.Sound) (few : l.rows.length < 2 ^ 63)
    {row : Int64 × Method} (held : row ∈ l.rows) {f : MethodFact} (same : f.uri = row.2.uri.text) :
    ∃ next, (addMethod f).outcome a = (.ok row.1, next) := by
  obtain ⟨home, homed⟩ := sound.homes row held
  have met : row.2.uri ∈ l.uris := mem_uris_iff.2 ⟨row, held, rfl⟩
  generalize declared : (⟨row.2.uri, f.metadata⟩ : Method) = method
  have uri : method.uri = row.2.uri := declared ▸ rfl
  rw [← uri] at homed met
  have rows : (l.record (.method method)).rows = l.rows := by
    apply rows_record_of_met
    intro uri meets
    rw [Entry.meets?, homed] at meets
    cases meets
    exact met
  obtain ⟨id, next, known, entered, _⟩ := d.enterMethod? sound (rows ▸ few) homed
  rw [idOf?_of_more_rows (l.rows_prefix_record _) met, uri, sound.idOf?_of_row held] at known
  have yields := addMethod_yields f a
  have read : f.method? = some method := by
    unfold MethodFact.method?
    rw [parse_toOption_eq_some_iff.2 same, ← declared]
    rfl
  rw [read, Option.bind_some, entered, ← Option.some.inj known] at yields
  exact ⟨next, yields⟩

theorem binds_of_row (d : l.Describes a) (sound : l.Sound) (few : l.rows.length < 2 ^ 63)
    {row : Int64 × Method} (held : row ∈ l.rows) : a.Binds row.2.uri row.1 where
  held := ⟨_, (d.idOf?_eq_some_iff sound few).2 ⟨rfl, row, held, rfl, rfl⟩⟩
  only scope other known := by
    obtain ⟨_, row', held', rfl, same⟩ := (d.idOf?_eq_some_iff sound few).1 known
    rw [((sound.distinct few).row_eq held' held).2 same]
  again f same := given_of_row d sound few held same

theorem ofRun_append_of_ok {before after : List Fact} {fact : Fact} {entry : Entry}
    {given : Option Int64} {next : Assembler} (read : fact.entry? = some entry)
    (ok : (step fact).outcome (empty.run before) = (.ok given, next)) :
    ofRun (before ++ fact :: after) =
      ((ofRun before).record entry).recordAll (next.accepted after) := by
  unfold ofRun
  rw [accepted_append, recordAll_append, accepted_cons_of_ok ok, recordAll_cons _ read]

theorem binds_of_new {before after : List Fact} {fact : Fact} {entry : Entry} {uri : Uri}
    (few : (before ++ fact :: after).length < 2 ^ 63) (read : fact.entry? = some entry)
    (meets : entry.meets? = some uri) (new : uri ∉ (ofRun before).uris) {given : Option Int64}
    {next : Assembler} (ok : (step fact).outcome (empty.run before) = (.ok given, next)) :
    (empty.run (before ++ fact :: after)).Binds uri (Int64.ofNat (ofRun before).rows.length) := by
  obtain ⟨d, sound, length⟩ := describes_run _ few
  obtain ⟨method, rfl, rows⟩ := rows_record_of_new meets new
  have kept := ((ofRun before).record entry).rows_prefix_recordAll (next.accepted after)
  rw [← ofRun_append_of_ok read ok] at kept
  have held : (Int64.ofNat (ofRun before).rows.length, method) ∈
      (ofRun (before ++ fact :: after)).rows := by
    apply kept.subset
    rw [rows]
    exact List.mem_append_right _ (List.mem_singleton.2 rfl)
  exact binds_of_row d sound (Nat.lt_of_le_of_lt length few) held

/-- The first fact that registers a method binds it to the number of the methods before it, and
whatever comes after leaves it bound to that id. -/
theorem binds_run {before after : List Fact} {fact : Fact} {uri : Uri}
    (few : (before ++ fact :: after).length < 2 ^ 63) (registers : fact.registers? = some uri)
    (first : uri ∉ registered (empty.accepted before)) {given : Option Int64} {next : Assembler}
    (ok : (step fact).outcome (empty.run before) = (.ok given, next)) :
    ∃ id : Int64, id.toInt = (registered (empty.accepted before)).card ∧
      (∀ scope, (empty.run before).idOf? scope uri = none) ∧
      (∀ f, fact = .method f → given = some id) ∧
      (empty.run (before ++ fact :: after)).Binds uri id := by
  have room := few
  rw [List.length_append, List.length_cons] at room
  obtain ⟨d, sound, length⟩ := describes_run before (by omega)
  have counted : (ofRun before).rows.length = (registered (empty.accepted before)).card :=
    length_rows_ofRun (by omega)
  have new : uri ∉ (ofRun before).uris := fun met => first ((mem_uris_ofRun (by omega)).1 met)
  rcases d.step_cases sound (by omega) fact with
    ⟨⟨_, refused⟩, _⟩ | ⟨entry, _, _, read, takes, _, _, _⟩
  · cases ok.symm.trans refused
  have meets := (Fact.registers?_of_takes read takes).symm.trans registers
  refine ⟨Int64.ofNat (ofRun before).rows.length, ?_, ?_, ?_, ?_⟩
  · rw [Int64.toInt_ofNat_of_lt (by omega), counted]
  · intro scope
    apply Option.eq_none_iff_forall_ne_some.2
    intro id known
    obtain ⟨_, row, held, _, same⟩ := (d.idOf?_eq_some_iff sound (by omega)).1 known
    exact new (mem_uris_iff.2 ⟨row, held, same⟩)
  · rintro f rfl
    obtain ⟨after, stepped⟩ := given_of_new d sound (by omega) read takes registers new
    cases ok.symm.trans stepped
    rfl
  · exact binds_of_new few read meets new ok

/-- A callee whose type is declared after the call, which makes the type internal. -/
theorem binds_run_late :
    let path : Uri.Path := ⟨"lib".toList, some "List.add()V".toList⟩
    let add : Uri := ⟨"/lib/List.add()V", .local path, by decide⟩
    lateFacts.length < 2 ^ 63 ∧ (empty.run (lateFacts.take 3)).idOf? .external add = some 1 ∧
      (empty.run lateFacts).idOf? .internal add = some 1 ∧ (empty.run lateFacts).Binds add 1 := by
  intro path add
  have few : (lateFacts.take 2 ++ lateFacts[2] :: lateFacts.drop 3).length < 2 ^ 63 := by decide
  have parsed : (Uri.parse add.text).toOption = some add := parse_toOption_eq_some_iff.2 rfl
  have registers : lateFacts[2].registers? = some add := parsed
  have first : add ∉ registered (empty.accepted (lateFacts.take 2)) := by decide +kernel
  have one : (registered (empty.accepted (lateFacts.take 2))).card = 1 := by decide +kernel
  generalize made : (step lateFacts[2]).outcome (empty.run (lateFacts.take 2)) = result
  rcases result with ⟨_ | given, next⟩
  · cases made
  obtain ⟨id, count, _, _, binds⟩ := binds_run few registers first made
  rw [one] at count
  obtain rfl : id = 1 := Int64.toInt_inj.1 count
  exact ⟨few, by decide +kernel, by decide +kernel, binds⟩

end Assembler

end RevisionGraph
