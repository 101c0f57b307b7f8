import RevisionGraph.Proofs.Assembly.Walk
import RevisionGraph.Proofs.Document.Acceptance
import RevisionGraph.Proofs.Method.TypeUri

/-!
# Which facts are assembled

`Facts.Acceptable` says what facts have to be, without an assembler and its state. Just one of the
conditions looks back: a call needs a caller that a method fact or an earlier call has named. By
`Facts.assemble_iff_acceptable` just these facts are assembled.
-/

namespace RevisionGraph

/-! ### Acceptable facts -/

namespace Uri

/-- The text is the URI of a method, which says what type the method belongs to. -/
def IsMethod (text : String) : Prop := ∃ uri, Uri.parse text = .ok uri ∧ uri.HasClass

/-- The type that a method of this URI belongs to. -/
def typeOf? (text : String) : Option Uri := (Uri.parse text).toOption.bind Uri.home?

end Uri

structure TypeFact.Acceptable (f : TypeFact) : Prop where
  uri : ∃ uri, Uri.parse f.uri = .ok uri
  superClasses : Document.AllUris f.superClasses
  superInterfaces : Document.AllUris f.superInterfaces
  access : f.access ∈ Access.all.map Access.name

namespace Facts

/-- The type of a method is declared, itself or through one of its methods. -/
def DeclaresTypeOf (f : Facts) (method : String) : Prop :=
  ∃ home, Uri.typeOf? method = some home ∧
    (home.text ∈ f.types.map TypeFact.uri ∨ ∃ m ∈ f.methods, Uri.typeOf? m.uri = some home)

/-- What may call after these calls: a method that is declared, or one that was called and belongs
to a declared type. -/
def MayCall (f : Facts) (before : List CallFact) (method : String) : Prop :=
  method ∈ f.methods.map MethodFact.uri ∨
    (method ∈ before.map CallFact.callee ∧ f.DeclaresTypeOf method)

structure Acceptable (f : Facts) : Prop where
  types : ∀ type ∈ f.types, type.Acceptable
  methods : ∀ method ∈ f.methods, Uri.IsMethod method.uri
  calls : ∀ call ∈ f.calls, Uri.IsMethod call.caller ∧ Uri.IsMethod call.callee
  callers : AllAfter (fun before call => f.MayCall before call.caller) f.calls
  named : ∀ timestamp nodeCount hierarchy calls, ∃ r,
    Revision.new f.forge f.product f.version timestamp nodeCount f.generator hierarchy calls = .ok r

end Facts

/-! ### Entries of facts -/

theorem Uri.isMethod_iff {text : String} :
    Uri.IsMethod text ↔ ∃ uri home, Uri.parse text = .ok uri ∧ uri.home? = some home := by
  constructor
  · rintro ⟨uri, read, hasClass⟩
    obtain ⟨home, ok, _⟩ := Method.exists_typeUri (m := .plain uri) hasClass
    exact ⟨uri, home, read, typeUri_eq_ok_iff.1 ok⟩
  · rintro ⟨uri, home, read, homed⟩
    have ok : (Method.plain uri).typeUri = .ok home := typeUri_eq_ok_iff.2 homed
    exact ⟨uri, read, Method.hasClass_of_typeUri ok⟩

theorem Access.mem_names_iff {name : String} :
    name ∈ Access.all.map Access.name ↔ ∃ access, Access.ofName name = .ok access := by
  simp only [Access.ofName_eq_ok_iff, List.mem_map]
  constructor
  · rintro ⟨access, _, named⟩
    exact ⟨access, named⟩
  · rintro ⟨access, named⟩
    exact ⟨access, by cases access <;> decide, named⟩

theorem TypeFact.exists_header_iff {f : TypeFact} :
    (∃ told, f.header? = some told) ↔ f.Acceptable := by
  simp only [header?, Option.bind_eq_bind, Option.bind_eq_some_iff, toOption_eq_some_iff,
    Option.pure_def, Option.some.injEq]
  constructor
  · rintro ⟨_, uri, read, superClasses, classes, superInterfaces, interfaces, access, named, _⟩
    exact ⟨⟨uri, read⟩, exists_mapM_eq_ok_iff.1 ⟨_, classes⟩,
      exists_mapM_eq_ok_iff.1 ⟨_, interfaces⟩, Access.mem_names_iff.2 ⟨access, named⟩⟩
  · rintro ⟨⟨uri, read⟩, classes, interfaces, named⟩
    obtain ⟨superClasses, classes⟩ := exists_mapM_eq_ok_iff.2 classes
    obtain ⟨superInterfaces, interfaces⟩ := exists_mapM_eq_ok_iff.2 interfaces
    obtain ⟨access, named⟩ := Access.mem_names_iff.1 named
    exact ⟨_, uri, read, superClasses, classes, superInterfaces, interfaces, access, named, rfl⟩

theorem TypeFact.takes_iff {f : TypeFact} {l : Ledger} :
    (∃ entry, Fact.entry? (.type f) = some entry ∧ l.takes entry) ↔ f.Acceptable := by
  rw [← exists_header_iff]
  constructor
  · rintro ⟨entry, read, _⟩
    obtain ⟨told, read, _⟩ := Option.map_eq_some_iff.1 read
    exact ⟨told, read⟩
  · rintro ⟨told, read⟩
    exact ⟨_, Option.map_eq_some_iff.2 ⟨told, read, rfl⟩, rfl⟩

theorem MethodFact.entry?_of_parse {f : MethodFact} {uri : Uri} (read : Uri.parse f.uri = .ok uri) :
    Fact.entry? (.method f) = some (.method ⟨uri, f.metadata⟩) := by
  rw [Fact.entry?, method?, read]
  rfl

theorem MethodFact.takes_iff {f : MethodFact} {l : Ledger} :
    (∃ entry, Fact.entry? (.method f) = some entry ∧ l.takes entry) ↔ Uri.IsMethod f.uri := by
  rw [Uri.isMethod_iff]
  constructor
  · rintro ⟨entry, read, takes⟩
    obtain ⟨method, told, rfl⟩ := Option.map_eq_some_iff.1 read
    obtain ⟨home, homed⟩ := Option.isSome_iff_exists.1 takes
    exact ⟨method.uri, home, toOption_eq_some_iff.1 (method?_eq_some told), homed⟩
  · rintro ⟨uri, home, read, homed⟩
    exact ⟨_, entry?_of_parse read, Option.isSome_iff_exists.2 ⟨home, homed⟩⟩

/-- A call fact whose ends can be read has an entry with these ends. -/
theorem CallFact.exists_entry {f : CallFact} {caller callee : Uri}
    (callerRead : Uri.parse f.caller = .ok caller) (calleeRead : Uri.parse f.callee = .ok callee) :
    ∃ call, Fact.entry? (.call f) = some (.call call) ∧
      call.caller = caller ∧ call.callee = callee := by
  rw [Fact.entry?, call?, callerRead, calleeRead]
  exact ⟨_, rfl, rfl, rfl⟩

/-! ### Calls -/

namespace Facts

open Ledger (empty)

variable {f : Facts} {before : List CallFact}

theorem mem_toList_iff {fact : Fact} :
    fact ∈ f.toList ↔ (∃ type ∈ f.types, .type type = fact) ∨
      (∃ method ∈ f.methods, .method method = fact) ∨ ∃ call ∈ f.calls, .call call = fact := by
  simp only [toList, List.mem_append, List.mem_map, or_assoc]

/-- Types come first, then methods, and before a call stand all of them and the earlier calls. -/
theorem allAfter_toList {P : List Fact → Fact → Prop} :
    AllAfter P f.toList ↔
      AllAfter (fun before type => P (before.map .type) (.type type)) f.types ∧
      AllAfter (fun before method => P (f.types.map .type ++ before.map .method) (.method method))
        f.methods ∧
      AllAfter (fun before call => P { f with calls := before }.toList (.call call)) f.calls := by
  unfold toList
  simp only [allAfter_append, allAfter_map, and_assoc]

/-- What is met before a call: the methods that are declared and those that were called. -/
theorem met_of_mem_uris {text : String} {uri : Uri} (read : Uri.parse text = .ok uri)
    (met : uri ∈ (empty.recordAll { f with calls := before }.toList).uris) :
    text ∈ f.methods.map MethodFact.uri ∨ text ∈ before.map CallFact.callee := by
  obtain ⟨fact, listed, entry, told, meets⟩ := Ledger.mem_uris_recordAll.1 met
  have registers := Fact.registers?_of_meets told meets
  have same {other : String} (parsed : (Uri.parse other).toOption = some uri) : other = text := by
    rw [parse_toOption_eq_some_iff.1 parsed, Uri.text_of_parse read]
  rcases mem_toList_iff.1 listed with ⟨_, _, rfl⟩ | ⟨method, mem, rfl⟩ | ⟨call, mem, rfl⟩
  · cases registers
  · exact .inl (List.mem_map.2 ⟨method, mem, same registers⟩)
  · exact .inr (List.mem_map.2 ⟨call, mem, same registers⟩)

theorem declared_of_contains {home : Uri}
    (contains : (empty.recordAll { f with calls := before }.toList).types.contains home) :
    home.text ∈ f.types.map TypeFact.uri ∨ ∃ m ∈ f.methods, Uri.typeOf? m.uri = some home := by
  obtain ⟨fact, listed, entry, told, declares⟩ := Ledger.contains_recordAll.1 contains
  rw [← (Fact.entry?_eq_some told).1] at declares
  rcases mem_toList_iff.1 listed with ⟨type, mem, rfl⟩ | ⟨method, mem, rfl⟩ | ⟨_, _, rfl⟩
  · exact .inl (List.mem_map.2 ⟨type, mem, parse_toOption_eq_some_iff.1 declares⟩)
  · exact .inr ⟨method, mem, declares⟩
  · cases declares

theorem typeOf?_eq_some_iff {text : String} {home : Uri} :
    Uri.typeOf? text = some home ↔ ∃ uri, Uri.parse text = .ok uri ∧ uri.home? = some home := by
  simp only [Uri.typeOf?, Option.bind_eq_some_iff, toOption_eq_some_iff]

theorem mem_uris_of_method {method : MethodFact} (mem : method ∈ f.methods) {uri home : Uri}
    (read : Uri.parse method.uri = .ok uri) (homed : uri.home? = some home) :
    uri ∈ (empty.recordAll { f with calls := before }.toList).uris := by
  refine Ledger.mem_uris_recordAll.2
    ⟨.method method, mem_toList_iff.2 (.inr (.inl ⟨method, mem, rfl⟩)),
      .method ⟨uri, method.metadata⟩, MethodFact.entry?_of_parse read, ?_⟩
  rw [Entry.meets?, homed]
  rfl

theorem mem_uris_of_callee {call : CallFact} (mem : call ∈ before)
    (caller : Uri.IsMethod call.caller) {uri : Uri} (read : Uri.parse call.callee = .ok uri) :
    uri ∈ (empty.recordAll { f with calls := before }.toList).uris := by
  obtain ⟨callerUri, callerRead, _⟩ := caller
  obtain ⟨call', told, _, rfl⟩ := CallFact.exists_entry callerRead read
  exact Ledger.mem_uris_recordAll.2
    ⟨.call call, mem_toList_iff.2 (.inr (.inr ⟨call, mem, rfl⟩)), .call call', told, rfl⟩

theorem contains_of_declared (acceptable : ∀ type ∈ f.types, type.Acceptable) {home : Uri}
    (declared : home.text ∈ f.types.map TypeFact.uri ∨
      ∃ m ∈ f.methods, Uri.typeOf? m.uri = some home) :
    (empty.recordAll { f with calls := before }.toList).types.contains home := by
  rw [Ledger.contains_recordAll]
  rcases declared with declared | ⟨method, mem, typed⟩
  · obtain ⟨type, mem, named⟩ := List.mem_map.1 declared
    obtain ⟨⟨uri, header⟩, told⟩ := TypeFact.exists_header_iff.2 (acceptable type mem)
    have same := parse_toOption_eq_some_iff.1 (TypeFact.header?_eq_some told)
    obtain rfl : uri = home := Uri.ext_text (same.symm.trans named)
    exact ⟨.type type, mem_toList_iff.2 (.inl ⟨type, mem, rfl⟩), .type uri header,
      Option.map_eq_some_iff.2 ⟨_, told, rfl⟩, rfl⟩
  · obtain ⟨uri, read, homed⟩ := typeOf?_eq_some_iff.1 typed
    exact ⟨.method method, mem_toList_iff.2 (.inr (.inl ⟨method, mem, rfl⟩)),
      .method ⟨uri, method.metadata⟩, MethodFact.entry?_of_parse read, homed⟩

/-- The ledger of what comes before a call takes the call in just if its ends are methods and its
caller may call. -/
theorem takes_call_of_mayCall (types : ∀ type ∈ f.types, type.Acceptable)
    (ends : ∀ call ∈ before, Uri.IsMethod call.caller) {call : CallFact}
    (caller : Uri.IsMethod call.caller) (callee : Uri.IsMethod call.callee)
    (mayCall : f.MayCall before call.caller) :
    ∃ entry, Fact.entry? (.call call) = some entry ∧
      (empty.recordAll { f with calls := before }.toList).takes entry := by
  obtain ⟨callerUri, home, callerRead, homed⟩ := Uri.isMethod_iff.1 caller
  obtain ⟨calleeUri, calleeHome, calleeRead, calleeHomed⟩ := Uri.isMethod_iff.1 callee
  obtain ⟨call', told, rfl, rfl⟩ := CallFact.exists_entry callerRead calleeRead
  refine ⟨.call call', told, Ledger.takes_call_iff.2 ?_⟩
  rcases mayCall with declared | ⟨called, home', typed, declared⟩
  · obtain ⟨method, mem, named⟩ := List.mem_map.1 declared
    have read : Uri.parse method.uri = .ok call'.caller := named ▸ callerRead
    have typed : Uri.typeOf? method.uri = some home := typeOf?_eq_some_iff.2 ⟨_, read, homed⟩
    refine ⟨mem_uris_of_method mem read homed, Ledger.isDeclared_iff.2 ⟨home, homed, ?_⟩,
      calleeHome, calleeHomed⟩
    exact contains_of_declared types (.inr ⟨method, mem, typed⟩)
  · obtain ⟨earlier, mem, named⟩ := List.mem_map.1 called
    have read : Uri.parse earlier.callee = .ok call'.caller := named ▸ callerRead
    obtain ⟨uri, again, homed'⟩ := typeOf?_eq_some_iff.1 typed
    cases callerRead.symm.trans again
    refine ⟨mem_uris_of_callee mem (ends earlier mem) read,
      Ledger.isDeclared_iff.2 ⟨home', homed', ?_⟩, calleeHome, calleeHomed⟩
    exact contains_of_declared types declared

theorem mayCall_of_takes_call {call : CallFact} {entry : Entry}
    (told : Fact.entry? (.call call) = some entry)
    (takes : (empty.recordAll { f with calls := before }.toList).takes entry) :
    Uri.IsMethod call.caller ∧ Uri.IsMethod call.callee ∧ f.MayCall before call.caller := by
  obtain ⟨read, given, rfl⟩ := Option.map_eq_some_iff.1 told
  obtain ⟨callerRead, calleeRead, _⟩ := CallFact.call?_eq_some given
  rw [toOption_eq_some_iff] at callerRead calleeRead
  obtain ⟨met, declared, calleeHome, calleeHomed⟩ := Ledger.takes_call_iff.1 takes
  obtain ⟨home, homed, contains⟩ := Ledger.isDeclared_iff.1 declared
  refine ⟨Uri.isMethod_iff.2 ⟨_, home, callerRead, homed⟩,
    Uri.isMethod_iff.2 ⟨_, calleeHome, calleeRead, calleeHomed⟩, ?_⟩
  refine (met_of_mem_uris callerRead met).imp_right fun called => ⟨called, home, ?_, ?_⟩
  · exact typeOf?_eq_some_iff.2 ⟨_, callerRead, homed⟩
  · exact declared_of_contains contains

/-! ### The criterion -/

theorem succeeds_iff (few : (registered f.toList).card < 2 ^ 63) :
    Assembler.empty.Succeeds f.toList ↔
      (∀ type ∈ f.types, type.Acceptable) ∧ (∀ method ∈ f.methods, Uri.IsMethod method.uri) ∧
        (∀ call ∈ f.calls, Uri.IsMethod call.caller ∧ Uri.IsMethod call.callee) ∧
          AllAfter (fun before call => f.MayCall before call.caller) f.calls := by
  have room := Nat.lt_of_le_of_lt (Ledger.length_recordAll_le f.toList) few
  rw [Ledger.describes_empty.succeeds_iff Ledger.sound_empty room, allAfter_toList]
  -- Types and methods are taken in whatever stands before them, so just the calls look back.
  simp only [TypeFact.takes_iff, MethodFact.takes_iff, allAfter_forall]
  refine and_congr_right fun types => and_congr_right fun _ => ?_
  constructor
  · intro all
    constructor
    · intro call mem
      obtain ⟨before, after, parts⟩ := List.append_of_mem mem
      obtain ⟨entry, told, takes⟩ := all before call after parts
      obtain ⟨caller, callee, _⟩ := mayCall_of_takes_call told takes
      exact ⟨caller, callee⟩
    · intro before call after parts
      obtain ⟨entry, told, takes⟩ := all before call after parts
      exact (mayCall_of_takes_call told takes).2.2
  · rintro ⟨ends, callers⟩ before call after parts
    have here : call ∈ f.calls := parts ▸ List.mem_append_right before List.mem_cons_self
    refine takes_call_of_mayCall types (fun earlier mem => ?_) (ends call here).1 (ends call here).2
      (callers before call after parts)
    exact (ends earlier (parts ▸ List.mem_append_left _ mem)).1

theorem exists_finish_iff {a : Assembler} :
    (∃ r, a.finish f.forge f.product f.version f.generator f.timestamp = .ok r) ↔
      ∀ timestamp nodeCount hierarchy calls, ∃ r, Revision.new f.forge f.product f.version timestamp
        nodeCount f.generator hierarchy calls = .ok r := by
  simp only [Assembler.finish, during_eq_ok_iff, checked_eq_ok_iff, Revision.Draft.build,
    Revision.exists_new_iff]
  exact ⟨fun accepted _ _ _ _ => accepted, fun accepted => accepted 0 0 ∅ ∅⟩

theorem assemble_eq_ok_iff {r : Revision} :
    f.assemble = .ok r ↔ Assembler.empty.Succeeds f.toList ∧
      (Assembler.empty.run f.toList).finish f.forge f.product f.version f.generator f.timestamp =
        .ok r := by
  refine bind_eq_ok_iff.trans ?_
  constructor
  · rintro ⟨_, walked, finished⟩
    obtain ⟨succeeds, left⟩ := Assembler.walk_eq_ok_iff.1 (Prod.ext walked rfl)
    exact ⟨succeeds, left ▸ finished⟩
  · rintro ⟨succeeds, finished⟩
    have walked := Assembler.walk_eq_ok_iff.2 ⟨succeeds, rfl⟩
    exact ⟨(), congrArg Prod.fst walked, (congrArg Prod.snd walked).symm ▸ finished⟩

/-- Just the acceptable facts are assembled. The bound says that the ids, which are numbers of 64
bits with a sign, do not run out; no facts that are held in memory have so many methods. -/
theorem assemble_iff_acceptable (f : Facts) (few : (registered f.toList).card < 2 ^ 63) :
    (∃ r, f.assemble = .ok r) ↔ f.Acceptable := by
  simp only [assemble_eq_ok_iff, exists_and_left, exists_finish_iff, succeeds_iff few]
  constructor
  · rintro ⟨⟨types, methods, calls, callers⟩, named⟩
    exact ⟨types, methods, calls, callers, named⟩
  · rintro ⟨types, methods, calls, callers, named⟩
    exact ⟨⟨types, methods, calls, callers⟩, named⟩

/-- A method of a declared type is called and calls back, and may not call before it was called. -/
theorem assemble_iff_acceptable_back :
    ∃ f g : Facts, g = { f with calls := f.calls.reverse } ∧ f.Acceptable ∧ ¬g.Acceptable ∧
      ∃ call ∈ f.calls, call.caller ∉ f.methods.map MethodFact.uri := by
  let f : Facts := ⟨"mvn", "app", "1.0", "test", none,
    [⟨"/lib/List", "List.java", [], ["/lib/Any"], "public", false⟩],
    [⟨"/app/Main.main()V", ∅⟩],
    [⟨"/app/Main.main()V", "/lib/List.each()V", 3, "virtual", ∅⟩,
      ⟨"/lib/List.each()V", "/app/Main.main()V", 5, "static", ∅⟩]⟩
  let g : Facts := { f with calls := f.calls.reverse }
  have few (h : Facts) (short : h.toList.length < 2 ^ 63) : (registered h.toList).card < 2 ^ 63 :=
    Nat.lt_of_le_of_lt (Ledger.card_registered_le h.toList) short
  have assembles : f.assemble.isOk := by decide +kernel
  have fails : ¬g.assemble.isOk := by decide +kernel
  have made := exists_eq_ok_of_isOk assembles
  refine ⟨f, g, rfl, (assemble_iff_acceptable f (few f (by decide))).1 made, fun acceptable => ?_,
    ⟨"/lib/List.each()V", "/app/Main.main()V", 5, "static", ∅⟩, by simp [f], by decide⟩
  obtain ⟨r, ok⟩ := (assemble_iff_acceptable g (few g (by decide))).2 acceptable
  exact fails (by rw [ok]; rfl)

end Facts

end RevisionGraph
