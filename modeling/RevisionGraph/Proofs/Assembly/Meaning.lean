import RevisionGraph.Proofs.Assembly.Acceptance
import RevisionGraph.Proofs.Assembly.Numbering

/-!
# What a fact means

A fact declares, calls and notes what its entry does: `Fact.entry?_eq_some`. A method is met only in
a declared type or by a call: `Ledger.Grounded`.
-/

namespace RevisionGraph

open Json (Metadata)

namespace Fact

/-- The type that a fact declares, itself or through a method. -/
def declares? : Fact → Option Uri
  | .type f => (Uri.parse f.uri).toOption
  | .method f => (Uri.parse f.uri).toOption.bind Uri.home?
  | .call _ => none

/-- The type that a fact calls a method of. -/
def calls? : Fact → Option Uri
  | .call f => (Uri.parse f.callee).toOption.bind Uri.home?
  | _ => none

def notes? (caller callee : Uri) (site : Int64) : Fact → Option Metadata
  | .call f =>
    if f.caller = caller.text ∧ f.callee = callee.text ∧ f.site = site then
      some (f.metadata.insert "type" (.text f.kind))
    else none
  | _ => none

end Fact

def Call.notes? (caller callee : Uri) (site : Int64) (call : Call) : Option Metadata :=
  if call.caller = caller ∧ call.callee = callee ∧ call.site = site then some call.metadata
  else none

/-! ### Facts and their entries -/

theorem parse_toOption_eq_some_iff {text : String} {uri : Uri} :
    (Uri.parse text).toOption = some uri ↔ text = uri.text := by
  constructor
  · intro parsed
    cases ok : Uri.parse text with
    | error => simp [ok, Except.toOption] at parsed
    | ok other =>
      rw [ok] at parsed
      cases parsed
      exact (Uri.text_of_parse ok).symm
  · rintro rfl
    rw [Uri.parse_text]
    rfl

theorem TypeFact.header?_eq_some {f : TypeFact} {uri : Uri} {header : TypeDecl}
    (read : f.header? = some (uri, header)) : (Uri.parse f.uri).toOption = some uri := by
  unfold header? at read
  obtain ⟨parsed, ok, read⟩ := Option.bind_eq_some_iff.1 read
  obtain ⟨_, _, read⟩ := Option.bind_eq_some_iff.1 read
  obtain ⟨_, _, read⟩ := Option.bind_eq_some_iff.1 read
  obtain ⟨_, _, read⟩ := Option.bind_eq_some_iff.1 read
  cases read
  exact ok

theorem MethodFact.method?_eq_some {f : MethodFact} {method : Method}
    (read : f.method? = some method) : (Uri.parse f.uri).toOption = some method.uri := by
  obtain ⟨uri, ok, rfl⟩ := Option.map_eq_some_iff.1 read
  exact ok

theorem CallFact.call?_eq_some {f : CallFact} {call : Call} (read : f.call? = some call) :
    (Uri.parse f.caller).toOption = some call.caller ∧
      (Uri.parse f.callee).toOption = some call.callee ∧ f.site = call.site ∧
      f.metadata.insert "type" (.text f.kind) = call.metadata := by
  unfold call? at read
  obtain ⟨caller, callerRead, read⟩ := Option.bind_eq_some_iff.1 read
  obtain ⟨callee, calleeRead, read⟩ := Option.bind_eq_some_iff.1 read
  cases read
  exact ⟨callerRead, calleeRead, rfl, rfl⟩

/-- The entry of a fact says the same as the fact. -/
theorem Fact.entry?_eq_some {fact : Fact} {entry : Entry} (read : fact.entry? = some entry) :
    fact.declares? = entry.declares? ∧
      fact.calls? = entry.call?.bind (fun call => call.callee.home?) ∧
      ∀ caller callee site,
        fact.notes? caller callee site = entry.call?.bind (Call.notes? caller callee site) := by
  cases fact with
  | type f =>
    obtain ⟨⟨uri, header⟩, fields, rfl⟩ := Option.map_eq_some_iff.1 read
    exact ⟨TypeFact.header?_eq_some fields, rfl, fun _ _ _ => rfl⟩
  | method f =>
    obtain ⟨method, fields, rfl⟩ := Option.map_eq_some_iff.1 read
    refine ⟨?_, rfl, fun _ _ _ => rfl⟩
    show ((Uri.parse f.uri).toOption.bind Uri.home?) = _
    rw [MethodFact.method?_eq_some fields]
    rfl
  | call f =>
    obtain ⟨call, fields, rfl⟩ := Option.map_eq_some_iff.1 read
    obtain ⟨caller, callee, site, metadata⟩ := CallFact.call?_eq_some fields
    refine ⟨rfl, ?_, ?_⟩
    · show ((Uri.parse f.callee).toOption.bind Uri.home?) = _
      rw [callee]
      rfl
    · intro caller' callee' site'
      show (if _ then _ else _) = if _ then _ else _
      rw [parse_toOption_eq_some_iff.1 caller, parse_toOption_eq_some_iff.1 callee, site, metadata]
      simp only [Uri.text_injective]

theorem Fact.call?_of_entry? {fact : Fact} {entry : Entry} (read : fact.entry? = some entry)
    (noCall : ∀ f, fact ≠ .call f) : entry.call? = none := by
  cases fact with
  | type f =>
    obtain ⟨_, _, rfl⟩ := Option.map_eq_some_iff.1 read
    rfl
  | method f =>
    obtain ⟨_, _, rfl⟩ := Option.map_eq_some_iff.1 read
    rfl
  | call f => exact absurd rfl (noCall f)

namespace Ledger

variable {l : Ledger} {a : Assembler}

/-- A fact that is accepted has an entry, which the ledger takes in when the fact comes. -/
theorem Describes.taken_of_accepted (d : l.Describes a) (sound : l.Sound) (facts : List Fact)
    (few : l.rows.length + facts.length < 2 ^ 63) :
    ∀ fact ∈ a.accepted facts, ∃ entry, fact.entry? = some entry ∧
      ∃ earlier : Ledger, earlier.takes entry := by
  induction facts generalizing l a with
  | nil => simp [Assembler.accepted]
  | cons head facts ih =>
    rw [List.length_cons] at few
    intro fact mem
    rcases d.step_cases sound (by omega) head with
      ⟨refused, _⟩ | ⟨entry, id, next, read, takes, ok, describes, soundAfter⟩
    · rw [Assembler.accepted_cons_of_refused refused] at mem
      exact ih d sound (by omega) fact mem
    · rw [Assembler.accepted_cons_of_ok ok] at mem
      have length := l.length_record_le entry
      rcases List.mem_cons.1 mem with rfl | mem
      · exact ⟨entry, read, l, takes⟩
      · exact ih describes soundAfter (by omega) fact mem

theorem Describes.read_of_accepted (d : l.Describes a) (sound : l.Sound) (facts : List Fact)
    (few : l.rows.length + facts.length < 2 ^ 63) :
    ∀ fact ∈ a.accepted facts, ∃ entry, fact.entry? = some entry := by
  intro fact mem
  obtain ⟨entry, read, _⟩ := d.taken_of_accepted sound facts few fact mem
  exact ⟨entry, read⟩

/-! ### What was met -/

/-- Every method that was met is of a declared type or was called. -/
def Grounded (l : Ledger) : Prop :=
  ∀ uri ∈ l.uris, l.isDeclared uri ∨ ∃ call ∈ l.calls, call.callee = uri

theorem grounded_empty : Ledger.empty.Grounded := by
  intro uri met
  cases met

theorem Grounded.record (grounded : l.Grounded) (entry : Entry) : (l.record entry).Grounded := by
  intro uri met
  have before {uri : Uri} (declared : l.isDeclared uri) : (l.record entry).isDeclared uri := by
    obtain ⟨home, homed, declared⟩ := isDeclared_iff.1 declared
    exact isDeclared_iff.2 ⟨home, homed, (l.within_record entry).types home declared⟩
  rw [calls_record]
  rcases (mem_uris_record l entry uri).1 met with met | meets
  · rcases grounded uri met with declared | ⟨call, mem, same⟩
    · exact .inl (before declared)
    · exact .inr ⟨call, List.mem_append_left _ mem, same⟩
  · cases entry with
    | type => cases meets
    | method method =>
      obtain ⟨home, homed, rfl⟩ := Option.map_eq_some_iff.1 meets
      exact .inl (isDeclared_iff.2 ⟨home, homed, (contains_record l _ home).2 (.inr homed)⟩)
    | call call =>
      cases meets
      exact .inr ⟨call, List.mem_append_right _ (List.mem_singleton.2 rfl), rfl⟩

theorem Grounded.foldl_record (grounded : l.Grounded) (entries : List Entry) :
    (entries.foldl Ledger.record l).Grounded := by
  induction entries generalizing l with
  | nil => exact grounded
  | cons entry entries ih => exact ih (grounded.record entry)

theorem scopeOf?_eq_external_iff_called (sound : l.Sound) (grounded : l.Grounded) {home : Uri} :
    l.scopeOf? home = some .external ↔
      ¬l.types.contains home ∧ ∃ call ∈ l.calls, call.callee.home? = some home := by
  rw [scopeOf?_eq_external_iff, Bool.not_eq_true]
  apply and_congr_right
  intro undeclared
  constructor
  · intro rows
    obtain ⟨row, mine⟩ := List.exists_mem_of_ne_nil _ rows
    obtain ⟨held, homed⟩ := mem_rowsOf_iff.1 mine
    rcases grounded row.2.uri (mem_uris_iff.2 ⟨row, held, rfl⟩) with declared | ⟨call, mem, same⟩
    · rw [isDeclared_of_home homed, undeclared] at declared
      cases declared
    · exact ⟨call, mem, same ▸ homed⟩
  · rintro ⟨call, mem, homed⟩
    obtain ⟨row, held, same⟩ := mem_uris_iff.1 (sound.callees call mem)
    exact List.ne_nil_of_mem (mem_rowsOf_iff.2 ⟨held, same ▸ homed⟩)

/-! ### What is noted at a site -/

theorem get?_foldl_addSite (caller callee : Uri) (site : Int64) (calls : List Call)
    (sites : Option CallSites) :
    ((calls.filter fun call => decide (call.caller = caller ∧ call.callee = callee)).foldl addSite
        sites).bind (fun sites => sites.get? site) =
      (calls.filterMap (Call.notes? caller callee site)).foldl
        (fun held added => CallSites.joined held (some added))
        (sites.bind fun sites => sites.get? site) := by
  induction calls generalizing sites with
  | nil => rfl
  | cons call calls ih =>
    have before : (sites.getD ∅).get? site = sites.bind fun sites => sites.get? site := by
      cases sites <;> rfl
    rw [List.filter_cons, List.filterMap_cons, Call.notes?]
    by_cases joins : call.caller = caller ∧ call.callee = callee
    · rw [if_pos (decide_eq_true joins), List.foldl_cons, ih, addSite, Option.bind_some,
        CallSites.get?_merge, SortedMap.get?_insert, before]
      by_cases here : call.site = site
      · simp [joins, here]
      · simp only [joins, here, Ne.symm here, and_false, if_false]
        rfl
    · have elsewhere : ¬(call.caller = caller ∧ call.callee = callee ∧ call.site = site) :=
        fun all => joins ⟨all.1, all.2.1⟩
      rw [if_neg (by simpa using joins), if_neg elsewhere, ih]

def noted? (l : Ledger) (caller callee : Uri) (site : Int64) : Option Metadata :=
  CallSites.joinAll (l.calls.filterMap (Call.notes? caller callee site))

theorem get?_sites? (l : Ledger) (caller callee : Uri) (site : Int64) :
    (l.sites? caller callee).bind (fun sites => sites.get? site) = l.noted? caller callee site :=
  get?_foldl_addSite caller callee site l.calls none

end Ledger

end RevisionGraph
