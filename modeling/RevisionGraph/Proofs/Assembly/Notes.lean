import RevisionGraph.Proofs.Assembly.Kept
import RevisionGraph.Proofs.Document.Walks
import RevisionGraph.Proofs.Json.Decoding
import RevisionGraph.Proofs.Revision.Checks
import RevisionGraph.Proofs.Revision.Noted

/-!
# Notes of facts

An assembled revision notes nothing but what its facts say and the kinds of its calls, so that what
all of these have every note of the revision has: `Revision.noted_of_assemble`.
-/

namespace RevisionGraph

open Json (Decoder Fields Value)

variable {methods sites : Value → Prop}

def Fact.Noted (methods sites : Value → Prop) : Fact → Prop
  | .type _ => True
  | .method fact => fact.metadata.AllValues methods
  | .call fact => fact.metadata.AllValues sites

/-- The values that the facts note about methods and about call sites have these properties. -/
def Facts.Noted (methods sites : Value → Prop) (f : Facts) : Prop :=
  (∀ fact ∈ f.methods, fact.metadata.AllValues methods) ∧
    ∀ fact ∈ f.calls, fact.metadata.AllValues sites

instance [DecidablePred methods] [DecidablePred sites] (f : Facts) :
    Decidable (f.Noted methods sites) :=
  inferInstanceAs (Decidable (_ ∧ _))

/-! ### Reading -/

theorem MethodFact.gives_decoder :
    MethodFact.decoder.Gives fun _ fact => fact.metadata.AllValues Value.IsSorted := by
  intro depth tree fact read
  simp only [decoder, Option.bind_eq_bind, Option.bind_eq_some_iff] at read
  obtain ⟨fields, _, _, _, metadata, given, made⟩ := read
  cases made
  have fits := Fields.gives_withDefault Decoder.gives_metadata SortedMap.allValues_empty given
  exact fits.imp fun v fit => fit.1

theorem CallFact.gives_decoder :
    CallFact.decoder.Gives fun _ fact => fact.metadata.AllValues Value.IsSorted := by
  intro depth tree fact read
  simp only [decoder, Option.bind_eq_bind, Option.bind_eq_some_iff] at read
  obtain ⟨fields, _, _, _, _, _, _, _, _, _, metadata, given, made⟩ := read
  cases made
  have fits := Fields.gives_withDefault Decoder.gives_metadata SortedMap.allValues_empty given
  exact fits.imp fun v fit => fit.1

/-- What facts note is read with its members in key order. -/
theorem Facts.noted_of_parse {runes : List Rune} {f : Facts} (read : Facts.parse runes = some f) :
    f.Noted Value.IsSorted Value.IsSorted := by
  simp only [parse, decoder, Option.bind_eq_bind, Option.bind_eq_some_iff] at read
  obtain ⟨tree, _, fields, _, _, _, _, _, _, _, _, _, _, _, _, _, methods, readMethods, calls,
    readCalls, made⟩ := read
  cases made
  exact ⟨Fields.gives_withDefault MethodFact.gives_decoder.list (by simp) readMethods,
    Fields.gives_withDefault CallFact.gives_decoder.list (by simp) readCalls⟩

/-! ### Assembling -/

theorem Facts.noted_of_mem {f : Facts} (noted : f.Noted methods sites) {fact : Fact}
    (mem : fact ∈ f.toList) : fact.Noted methods sites := by
  simp only [toList, List.mem_append, List.mem_map] at mem
  rcases mem with (⟨_, _, rfl⟩ | ⟨method, mem, rfl⟩) | ⟨call, mem, rfl⟩
  · trivial
  · exact noted.1 method mem
  · exact noted.2 call mem

def Entry.Noted (methods sites : Value → Prop) : Entry → Prop
  | .type _ _ => True
  | .method m => m.metadata.AllValues methods
  | .call c => c.metadata.AllValues sites

theorem Fact.Noted.entry {fact : Fact} (noted : fact.Noted methods sites)
    (texts : ∀ s, sites (.text s)) {entry : Entry} (read : fact.entry? = some entry) :
    entry.Noted methods sites := by
  cases fact with
  | type fact =>
    obtain ⟨_, _, rfl⟩ := Option.map_eq_some_iff.1 read
    trivial
  | method fact =>
    obtain ⟨method, named, rfl⟩ := Option.map_eq_some_iff.1 read
    obtain ⟨uri, _, rfl⟩ := Option.map_eq_some_iff.1 named
    exact noted
  | call fact =>
    obtain ⟨call, named, rfl⟩ := Option.map_eq_some_iff.1 read
    obtain ⟨caller, _, named⟩ := Option.bind_eq_some_iff.1 named
    obtain ⟨callee, _, made⟩ := Option.bind_eq_some_iff.1 named
    cases made
    -- The kind of the call is noted beside what the fact notes.
    exact SortedMap.AllValues.insert noted "type" (texts fact.kind)

namespace Assembler

def Noted (methods sites : Value → Prop) (a : Assembler) : Prop :=
  a.hierarchy.Noted methods ∧ a.calls.Noted sites

variable {a next : Assembler}

theorem noted_empty : Assembler.empty.Noted methods sites :=
  ⟨Hierarchy.allTypes_empty, CallGraph.noted_empty⟩

theorem Noted.promoted (noted : a.Noted methods sites) (uri : Uri) :
    (a.promoted uri).Noted methods sites := by
  by_cases inside : ∀ scope, a.hierarchy.scopeOf? uri = some scope → scope = .internal
  · rw [promoted_of_inside inside]
    exact noted
  · simp only [not_forall] at inside
    obtain ⟨scope, found, outside⟩ := inside
    obtain ⟨type, held⟩ := Hierarchy.type?_of_scopeOf? found
    rw [promoted_of_outside found outside held]
    have without := Hierarchy.AllTypes.remove noted.1 scope uri
    exact ⟨without.put .internal uri (noted.1 scope uri type held), noted.2.internalize _⟩

theorem Noted.declared (noted : a.Noted methods sites) (uri : Uri) (header : TypeDecl) :
    (a.declared uri header).Noted methods sites := by
  have without := Hierarchy.AllTypes.remove noted.1 .internal uri
  exact ⟨without.insert .internal uri (noted.1.methods .internal uri), noted.2⟩

theorem Noted.admitted (noted : a.Noted methods sites) (scope : Scope) (home : Uri) :
    (a.admitted scope home).Noted methods sites := by
  unfold Assembler.admitted
  cases a.hierarchy.scopeOf? home with
  | none => exact ⟨Hierarchy.AllTypes.insert noted.1 scope home MethodTable.noted_empty, noted.2⟩
  | some held =>
    dsimp only
    split
    · exact noted.promoted home
    · exact noted

theorem Noted.added? (noted : a.Noted methods sites) {scope : Scope} {home : Uri} {method : Method}
    (notes : method.metadata.AllValues methods) {id : Int64}
    (added : a.added? scope home method = some (id, next)) : next.Noted methods sites := by
  obtain ⟨⟨id, hierarchy⟩, ok, made⟩ := Option.map_eq_some_iff.1 added
  cases made
  exact ⟨noted.1.addMethod? notes ok, noted.2⟩

theorem Noted.enter? (noted : a.Noted methods sites) {entry : Entry}
    (notes : entry.Noted methods sites) {id : Option Int64}
    (entered : a.enter? entry = some (id, next)) : next.Noted methods sites := by
  cases entry with
  | type uri header =>
    cases entered
    exact (noted.promoted uri).declared uri header
  | method method =>
    obtain ⟨⟨id, next⟩, entered, made⟩ := Option.map_eq_some_iff.1 entered
    cases made
    obtain ⟨home, _, added⟩ := Option.bind_eq_some_iff.1 entered
    exact (noted.admitted .internal home).added? notes added
  | call call =>
    obtain ⟨next, entered, made⟩ := Option.map_eq_some_iff.1 entered
    cases made
    obtain ⟨_, _, entered⟩ := Option.bind_eq_some_iff.1 entered
    obtain ⟨home, _, entered⟩ := Option.bind_eq_some_iff.1 entered
    obtain ⟨⟨_, between⟩, added, made⟩ := Option.bind_eq_some_iff.1 entered
    cases made
    -- Nothing is noted about a callee that is met for the first time.
    have before := (noted.admitted _ home).added? SortedMap.allValues_empty added
    exact ⟨before.1, before.2.addCall _ _ call.site notes⟩

theorem Noted.step (noted : a.Noted methods sites) (kept : a.Kept) {fact : Fact}
    (notes : fact.Noted methods sites) (texts : ∀ s, sites (.text s)) :
    ((step fact).outcome a).2.Noted methods sites := by
  rcases kept.step_cases fact with same | ⟨entry, id, read, entered⟩
  · rwa [same]
  · exact noted.enter? (notes.entry texts read) entered

end Assembler

theorem Revision.noted_of_assemble {f : Facts} {r : Revision} (noted : f.Noted methods sites)
    (texts : ∀ s, sites (.text s)) (assembled : f.assemble = .ok r) : r.Noted methods sites := by
  have walked := Assembler.walk_invariant
    (fun fact mem a (both : a.Kept ∧ a.Noted methods sites) =>
      ⟨both.1.step fact, both.2.step both.1 (Facts.noted_of_mem noted mem) texts⟩)
    ⟨Assembler.kept_empty, Assembler.noted_empty⟩
  unfold Facts.assemble at assembled
  obtain ⟨_, _, finished⟩ := bind_eq_ok_iff.1 assembled
  obtain ⟨hierarchy, calls, _⟩ := Assembler.finish_ok finished
  unfold Noted
  rw [hierarchy, calls]
  exact walked.2

end RevisionGraph
