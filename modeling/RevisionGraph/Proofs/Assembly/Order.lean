import RevisionGraph.Proofs.Assembly.Meaning

/-!
# The order of facts

The types and the calls of an assembler follow from the facts that it accepted, wherever among them
a type is declared.
-/

namespace RevisionGraph

open Json (Metadata)

namespace Assembler

def idNamed? (a : Assembler) (uri : Uri) : Option Int64 :=
  (a.hierarchy.allMethods.find? fun row => decide (row.2.uri = uri)).map Prod.fst

/-- What is held at a site between two methods that are given by their URIs. -/
def siteOf? (a : Assembler) (relation : Relation) (caller callee : Uri) (site : Int64) :
    Option Metadata := do
  let caller ← a.idNamed? caller
  let callee ← a.idNamed? callee
  let sites ← a.calls.sites? relation ⟨caller, callee⟩
  sites.get? site

end Assembler

namespace Ledger

open Assembler

variable {l : Ledger} {a : Assembler}

theorem Describes.idNamed?_eq_some_iff (d : l.Describes a) (sound : l.Sound)
    (few : l.rows.length < 2 ^ 63) {uri : Uri} {id : Int64} :
    a.idNamed? uri = some id ↔ ∃ row ∈ l.rows, row.1 = id ∧ row.2.uri = uri := by
  have perm := d.perm_allMethods sound few
  unfold idNamed?
  constructor
  · intro named
    obtain ⟨row, found, rfl⟩ := Option.map_eq_some_iff.1 named
    have same : row.2.uri = uri := by simpa using List.find?_some found
    exact ⟨row, perm.mem_iff.1 (List.mem_of_find?_eq_some found), rfl, same⟩
  · rintro ⟨row, held, rfl, same⟩
    cases found : a.hierarchy.allMethods.find? fun row => decide (row.2.uri = uri) with
    | none =>
      have unnamed := List.find?_eq_none.1 found row (perm.mem_iff.2 held)
      exact absurd (decide_eq_true same) unnamed
    | some other =>
      have otherHeld := perm.mem_iff.1 (List.mem_of_find?_eq_some found)
      have otherSame : other.2.uri = uri := by simpa using List.find?_some found
      rw [((sound.distinct few).row_eq otherHeld held).2 (otherSame.trans same.symm)]
      rfl

theorem Describes.idNamed?_eq_none_iff (d : l.Describes a) (sound : l.Sound)
    (few : l.rows.length < 2 ^ 63) {uri : Uri} : a.idNamed? uri = none ↔ uri ∉ l.uris := by
  rw [Option.eq_none_iff_forall_ne_some, mem_uris_iff]
  constructor
  · rintro unnamed ⟨row, held, same⟩
    exact unnamed row.1 ((d.idNamed?_eq_some_iff sound few).2 ⟨row, held, rfl, same⟩)
  · intro unmet id named
    obtain ⟨row, held, _, same⟩ := (d.idNamed?_eq_some_iff sound few).1 named
    exact unmet ⟨row, held, same⟩

theorem noted?_eq_none {caller callee : Uri}
    (absent : ∀ call ∈ l.calls, ¬(call.caller = caller ∧ call.callee = callee)) (site : Int64) :
    l.noted? caller callee site = none := by
  rw [← get?_sites?, sites?_eq_none absent]
  rfl

/-- The sites of an assembler are those of its ledger, in the relation that the callee asks for. -/
theorem Describes.siteOf?_eq (d : l.Describes a) (sound : l.Sound) (few : l.rows.length < 2 ^ 63)
    (relation : Relation) (caller callee : Uri) (site : Int64) :
    a.siteOf? relation caller callee site =
      if relation = l.relationOf callee then l.noted? caller callee site else none := by
  unfold siteOf?
  cases first : a.idNamed? caller with
  | none =>
    have unmet := (d.idNamed?_eq_none_iff sound few).1 first
    have absent : ∀ call ∈ l.calls, ¬(call.caller = caller ∧ call.callee = callee) := by
      rintro call mem ⟨rfl, _⟩
      exact unmet (sound.callers call mem).1
    rw [noted?_eq_none absent, ite_self]
    rfl
  | some callerId =>
  cases second : a.idNamed? callee with
  | none =>
    have unmet := (d.idNamed?_eq_none_iff sound few).1 second
    have absent : ∀ call ∈ l.calls, ¬(call.caller = caller ∧ call.callee = callee) := by
      rintro call mem ⟨_, rfl⟩
      exact unmet (sound.callees call mem)
    rw [noted?_eq_none absent, ite_self]
    rfl
  | some calleeId =>
    obtain ⟨caller, callerHeld, rfl, rfl⟩ := (d.idNamed?_eq_some_iff sound few).1 first
    obtain ⟨callee, calleeHeld, rfl, rfl⟩ := (d.idNamed?_eq_some_iff sound few).1 second
    show (a.calls.sites? relation ⟨caller.1, callee.1⟩).bind (fun sites => sites.get? site) = _
    rw [d.calls, pairSites?_of_rows ((sound.lookupEntry_iff few).2 callerHeld)
      ((sound.lookupEntry_iff few).2 calleeHeld)]
    split
    · exact l.get?_sites? _ _ site
    · rfl

end Ledger

/-! ### What follows from accepted facts -/

namespace Assembler

open Ledger

def Declared (accepted : List Fact) (uri : Uri) : Prop :=
  ∃ fact ∈ accepted, fact.declares? = some uri

def HomeDeclared (accepted : List Fact) (method : Uri) : Prop :=
  ∃ home, method.home? = some home ∧ Declared accepted home

/-- The types and calls of an assembler are those of the facts that it accepted. -/
structure Follows (accepted : List Fact) (a : Assembler) : Prop where
  internal : ∀ uri, a.hierarchy.internal.contains uri ↔ Declared accepted uri
  external : ∀ uri, a.hierarchy.external.contains uri ↔
    ¬Declared accepted uri ∧ ∃ fact ∈ accepted, fact.calls? = some uri
  /-- Every end of a call is the id of one method. -/
  named : ∀ relation pair, (a.calls.get relation).contains pair →
    (∃ caller, a.idNamed? caller = some pair.caller) ∧
      ∃ callee, a.idNamed? callee = some pair.callee
  oneName : ∀ uri uri' id, a.idNamed? uri = some id → a.idNamed? uri' = some id → uri = uri'
  sites : ∀ relation caller callee site, (a.siteOf? relation caller callee site).isSome ↔
    (∃ f, Fact.call f ∈ accepted ∧ f.caller = caller.text ∧ f.callee = callee.text ∧
      f.site = site) ∧
    match relation with
    | .internal => HomeDeclared accepted callee
    | .external => ¬HomeDeclared accepted callee
    | .resolved => False
  metadata : ∀ relation caller callee site metadata,
    a.siteOf? relation caller callee site = some metadata →
      ∀ key, metadata.get? key =
        (accepted.filterMap (Fact.notes? caller callee site)).reverse.findSome? fun noted =>
          noted.get? key

structure SameTypesAndCalls (a b : Assembler) : Prop where
  internal : ∀ uri, a.hierarchy.internal.contains uri = b.hierarchy.internal.contains uri
  external : ∀ uri, a.hierarchy.external.contains uri = b.hierarchy.external.contains uri
  sites : ∀ relation caller callee site,
    a.siteOf? relation caller callee site = b.siteOf? relation caller callee site

variable {l : Ledger} {a : Assembler}

theorem contains_types_iff (d : l.Describes a) (scope : Scope) (uri : Uri) :
    (a.hierarchy.get scope).contains uri ↔ l.scopeOf? uri = some scope := by
  rw [Hierarchy.contains_iff]
  simp only [d.type?_eq_some_iff, exists_and_left, exists_eq, and_true]

theorem calls_ofRun (facts : List Fact) :
    (ofRun facts).calls =
      (empty.accepted facts).filterMap fun fact => fact.entry?.bind Entry.call? := by
  unfold ofRun recordAll
  rw [calls_foldl_record, List.filterMap_filterMap]
  rfl

theorem grounded_ofRun (facts : List Fact) : (ofRun facts).Grounded :=
  grounded_empty.foldl_record _

section Read

variable {facts : List Fact}
  (read : ∀ fact ∈ empty.accepted facts, ∃ entry, fact.entry? = some entry)

include read

theorem contains_ofRun (uri : Uri) :
    (ofRun facts).types.contains uri ↔ Declared (empty.accepted facts) uri := by
  unfold ofRun recordAll Declared
  rw [contains_foldl_record]
  constructor
  · rintro (held | ⟨entry, mem, declares⟩)
    · cases held
    · obtain ⟨fact, mem, read⟩ := List.mem_filterMap.1 mem
      exact ⟨fact, mem, (Fact.entry?_eq_some read).1.trans declares⟩
  · rintro ⟨fact, mem, declares⟩
    obtain ⟨entry, read⟩ := read fact mem
    exact .inr ⟨entry, List.mem_filterMap.2 ⟨fact, mem, read⟩,
      (Fact.entry?_eq_some read).1.symm.trans declares⟩

theorem filterMap_notes_ofRun (caller callee : Uri) (site : Int64) :
    (ofRun facts).calls.filterMap (Call.notes? caller callee site) =
      (empty.accepted facts).filterMap (Fact.notes? caller callee site) := by
  rw [calls_ofRun, List.filterMap_filterMap]
  apply List.filterMap_congr
  intro fact mem
  obtain ⟨entry, read⟩ := read fact mem
  rw [(Fact.entry?_eq_some read).2.2, read]
  rfl

theorem isDeclared_ofRun (method : Uri) :
    (ofRun facts).isDeclared method ↔ HomeDeclared (empty.accepted facts) method := by
  rw [isDeclared_iff]
  simp only [contains_ofRun read]
  rfl

theorem exists_call_ofRun (home : Uri) :
    (∃ call ∈ (ofRun facts).calls, call.callee.home? = some home) ↔
      ∃ fact ∈ empty.accepted facts, fact.calls? = some home := by
  simp only [calls_ofRun, List.mem_filterMap]
  constructor
  · rintro ⟨call, ⟨fact, mem, joins⟩, homed⟩
    obtain ⟨entry, read, joins⟩ := Option.bind_eq_some_iff.1 joins
    refine ⟨fact, mem, ?_⟩
    rw [(Fact.entry?_eq_some read).2.1, joins]
    exact homed
  · rintro ⟨fact, mem, calls⟩
    obtain ⟨entry, read⟩ := read fact mem
    rw [(Fact.entry?_eq_some read).2.1] at calls
    obtain ⟨call, joins, homed⟩ := Option.bind_eq_some_iff.1 calls
    refine ⟨call, ⟨fact, mem, ?_⟩, homed⟩
    rw [read]
    exact joins

theorem noted?_ofRun (caller callee : Uri) (site : Int64) :
    (ofRun facts).noted? caller callee site =
      CallSites.joinAll ((empty.accepted facts).filterMap (Fact.notes? caller callee site)) := by
  unfold noted?
  rw [filterMap_notes_ofRun read]

end Read

theorem exists_notes_iff {accepted : List Fact} {caller callee : Uri} {site : Int64} :
    accepted.filterMap (Fact.notes? caller callee site) ≠ [] ↔
      ∃ f, Fact.call f ∈ accepted ∧ f.caller = caller.text ∧ f.callee = callee.text ∧
        f.site = site := by
  rw [Ne, List.filterMap_eq_nil_iff]
  constructor
  · intro some
    by_contra none
    apply some
    intro fact mem
    cases fact with
    | type | method => rfl
    | call f => exact if_neg fun joins => none ⟨f, mem, joins⟩
  · rintro ⟨f, mem, joins⟩ none
    have notes : Fact.notes? caller callee site (.call f) =
        some (f.metadata.insert "type" (.text f.kind)) := if_pos joins
    cases notes.symm.trans (none _ mem)

theorem follows_of_describes {facts : List Fact} (d : (ofRun facts).Describes a)
    (sound : (ofRun facts).Sound) (few : (ofRun facts).rows.length < 2 ^ 63)
    (read : ∀ fact ∈ empty.accepted facts, ∃ entry, fact.entry? = some entry) :
    Follows (empty.accepted facts) a := by
  refine ⟨?_, ?_, ?_, ?_, ?_, ?_⟩
  · intro uri
    rw [← contains_ofRun read]
    exact (contains_types_iff d .internal uri).trans scopeOf?_eq_internal_iff
  · intro uri
    refine (contains_types_iff d .external uri).trans ?_
    rw [scopeOf?_eq_external_iff_called sound (grounded_ofRun facts), contains_ofRun read,
      exists_call_ofRun read]
  · intro relation pair held
    obtain ⟨sites, held⟩ := d.contains_calls_iff.1 held
    obtain ⟨caller, callee, callerHeld, calleeHeld, _⟩ := (sound.pairSites?_eq_some_iff few).1 held
    exact ⟨⟨caller.uri, (d.idNamed?_eq_some_iff sound few).2 ⟨_, callerHeld, rfl, rfl⟩⟩,
      callee.uri, (d.idNamed?_eq_some_iff sound few).2 ⟨_, calleeHeld, rfl, rfl⟩⟩
  · intro uri uri' id named also
    obtain ⟨row, held, rfl, rfl⟩ := (d.idNamed?_eq_some_iff sound few).1 named
    obtain ⟨row', held', same, rfl⟩ := (d.idNamed?_eq_some_iff sound few).1 also
    rw [((sound.distinct few).row_eq held' held).1 same]
  · intro relation caller callee site
    rw [d.siteOf?_eq sound few, ← exists_notes_iff, ← CallSites.joinAll_isSome,
      ← noted?_ofRun read]
    unfold relationOf
    rw [← isDeclared_ofRun read]
    cases (ofRun facts).isDeclared callee <;> cases relation <;> simp
  · intro relation caller callee site metadata held key
    rw [d.siteOf?_eq sound few] at held
    split at held
    · rw [← CallSites.get?_joinAll, ← noted?_ofRun read, held]
      rfl
    · cases held

theorem sameTypesAndCalls_of_ledgers {facts facts' : List Fact}
    (few : facts.length < 2 ^ 63) (few' : facts'.length < 2 ^ 63)
    (types : ∀ uri, (ofRun facts).types.contains uri ↔ (ofRun facts').types.contains uri)
    (calls : (ofRun facts).calls = (ofRun facts').calls) :
    SameTypesAndCalls (empty.run facts) (empty.run facts') := by
  obtain ⟨d, sound, length⟩ := describes_run facts few
  obtain ⟨d', sound', length'⟩ := describes_run facts' few'
  refine ⟨?_, ?_, ?_⟩
  · intro uri
    apply Bool.eq_iff_iff.2
    exact (contains_types_iff d .internal uri).trans <| scopeOf?_eq_internal_iff.trans <|
      (types uri).trans <| scopeOf?_eq_internal_iff.symm.trans
        (contains_types_iff d' .internal uri).symm
  · intro uri
    apply Bool.eq_iff_iff.2
    refine (contains_types_iff d .external uri).trans
      (Iff.trans ?_ (contains_types_iff d' .external uri).symm)
    rw [scopeOf?_eq_external_iff_called sound (grounded_ofRun facts),
      scopeOf?_eq_external_iff_called sound' (grounded_ofRun facts'), types, calls]
  · intro relation caller callee site
    have declared : (ofRun facts).isDeclared callee = (ofRun facts').isDeclared callee := by
      apply Bool.eq_iff_iff.2
      rw [isDeclared_iff, isDeclared_iff]
      simp only [types]
    rw [d.siteOf?_eq sound (Nat.lt_of_le_of_lt length few),
      d'.siteOf?_eq sound' (Nat.lt_of_le_of_lt length' few')]
    unfold relationOf noted?
    rw [declared, calls]

theorem ofRun_append {before after : List Fact} (few : (before ++ after).length < 2 ^ 63) :
    ofRun (before ++ after) =
      ((ofRun before).taken (after.filterMap Fact.entry?)).foldl record (ofRun before) := by
  rw [List.length_append] at few
  obtain ⟨d, sound, length⟩ := describes_run before (by omega)
  have taken := d.filterMap_accepted sound after (by omega)
  show (List.filterMap _ _).foldl record Ledger.empty = _
  rw [accepted_append, List.filterMap_append, List.foldl_append, taken]
  rfl

/-- It makes no difference whether a type or method is declared before or after facts that are
accepted anyway. -/
theorem sameTypesAndCalls_late {before between after : List Fact} {declaration : Fact}
    (few : (before ++ (between ++ declaration :: after)).length < 2 ^ 63)
    (noCall : ∀ f, declaration ≠ .call f)
    (all : (empty.run before).accepted between = between) :
    SameTypesAndCalls (empty.run (before ++ (between ++ declaration :: after)))
      (empty.run (before ++ declaration :: (between ++ after))) := by
  have few' : (before ++ declaration :: (between ++ after)).length < 2 ^ 63 := by
    simp only [List.length_append, List.length_cons] at few ⊢
    omega
  have fewBefore : before.length + between.length < 2 ^ 63 := by
    simp only [List.length_append, List.length_cons] at few
    omega
  obtain ⟨d, sound, length⟩ := describes_run before (by omega)
  have takesAll := d.filterMap_accepted sound between (by omega)
  rw [all] at takesAll
  have late := ofRun_append few
  have early := ofRun_append few'
  simp only [List.filterMap_append, List.filterMap_cons] at late early
  cases read : declaration.entry? with
  | none =>
    rw [read] at late early
    have same := late.trans early.symm
    apply sameTypesAndCalls_of_ledgers few few'
    · intro uri
      rw [same]
    · rw [same]
  | some entry =>
    rw [read] at late early
    have noEntryCall := Fact.call?_of_entry? read noCall
    obtain ⟨perm, calls⟩ := taken_late noEntryCall takesAll.symm (after.filterMap Fact.entry?)
    apply sameTypesAndCalls_of_ledgers few few'
    · intro uri
      rw [late, early, contains_foldl_record, contains_foldl_record]
      simp only [perm.mem_iff]
    · rw [late, early, calls_foldl_record, calls_foldl_record, calls]

theorem follows_run {facts : List Fact} (few : facts.length < 2 ^ 63) :
    Follows (empty.accepted facts) (empty.run facts) ∧
      ∀ before between after declaration, facts = before ++ (between ++ declaration :: after) →
        (∀ f, declaration ≠ .call f) → (empty.run before).accepted between = between →
        SameTypesAndCalls (empty.run facts)
          (empty.run (before ++ declaration :: (between ++ after))) := by
  constructor
  · obtain ⟨d, sound, length⟩ := describes_run facts few
    have start : Ledger.empty.rows.length = 0 := rfl
    have read := describes_empty.read_of_accepted sound_empty facts (by omega)
    exact follows_of_describes d sound (Nat.lt_of_le_of_lt length few) read
  · rintro before between after declaration rfl noCall all
    exact sameTypesAndCalls_late few noCall all

theorem follows_run_late :
    lateFacts.length < 2 ^ 63 ∧
      Follows (empty.accepted lateFacts) (empty.run lateFacts) ∧
      SameTypesAndCalls (empty.run lateFacts)
        (empty.run (lateFacts.take 2 ++ (lateFacts.drop 3 ++ (lateFacts.drop 2).take 1))) := by
  have few : lateFacts.length < 2 ^ 63 := by decide
  obtain ⟨follows, late⟩ := follows_run few
  refine ⟨few, follows, late (lateFacts.take 2) ((lateFacts.drop 2).take 1) [] _ rfl ?_ rfl⟩
  intro f same
  cases same

end Assembler

end RevisionGraph
