import RevisionGraph.Proofs.CallGraph.History
import RevisionGraph.Proofs.CallGraph.Moves
import RevisionGraph.Proofs.Document.Walks
import RevisionGraph.Proofs.Hierarchy.Lookup
import RevisionGraph.Proofs.Revision.Checks

/-!
# Stitching

When an external type is matched to its definition it becomes resolved, and then the external calls
of its methods do, pair by pair. In between there are resolved types that are still called from
outside, but what comes of it is valid and has lost nothing: `Revision.stitched_of_stitch`.
-/

namespace RevisionGraph

open Json (Metadata)

/-! ### Calls that leave the artifact -/

namespace CallSites

/-- What was there before and what is added both keep their keys. -/
theorem joined_keeps {held added : Option Metadata} {metadata : Metadata}
    (was : held = some metadata ∨ added = some metadata) :
    ∃ all, joined held added = some all ∧ ∀ key, metadata.contains key → all.contains key := by
  cases added with
  | none =>
    have here := was.resolve_right (by simp)
    exact ⟨metadata, here, fun key has => has⟩
  | some added =>
    refine ⟨(held.getD ∅).union added, rfl, fun key has => ?_⟩
    rw [SortedMap.contains_union, Bool.or_eq_true]
    rcases was with rfl | same
    · exact .inl has
    · cases same
      exact .inr has

end CallSites

namespace CallGraph

/-- The metadata of a call site of a pair in a relation, if it is there. -/
def metadata? (g : CallGraph) (relation : Relation) (pair : CallPair) (site : Int64) :
    Option Metadata :=
  metadataAt (g.sites? relation pair) site

/-- The call site of the pair is in an external or a resolved call. -/
def Outgoing (g : CallGraph) (pair : CallPair) (site : Int64) : Prop :=
  (g.metadata? .external pair site).isSome ∨ (g.metadata? .resolved pair site).isSome

variable {g : CallGraph} {pairs : List CallPair} {pair : CallPair}

theorem metadata?_resolve_of_mem (moved : pair ∈ pairs) (site : Int64) :
    (g.moveAll pairs .external .resolved).metadata? .external pair site = none ∧
      (g.moveAll pairs .external .resolved).metadata? .resolved pair site =
        CallSites.joined (g.metadata? .resolved pair site) (g.metadata? .external pair site) := by
  have apart : Relation.external ≠ .resolved := by decide
  unfold metadata?
  rw [sites?_moveAll _ _ apart, sites?_moveAll _ _ apart, if_pos moved, if_pos moved]
  exact ⟨rfl, metadataAt_merged _ _ site⟩

theorem sites?_resolve_of_not_mem (kept : pair ∉ pairs) (relation : Relation) :
    (g.moveAll pairs .external .resolved).sites? relation pair = g.sites? relation pair := by
  rw [sites?_moveAll _ _ (by decide), if_neg kept]

theorem internal_resolve (g : CallGraph) (pairs : List CallPair) :
    (g.moveAll pairs .external .resolved).internal = g.internal := by
  apply SortedMap.ext_get?
  intro pair
  have apart : Relation.external ≠ .resolved := by decide
  simpa [sites?, get] using g.sites?_moveAll pairs apart .internal pair

theorem outgoing_resolve_iff (site : Int64) :
    (g.moveAll pairs .external .resolved).Outgoing pair site ↔ g.Outgoing pair site := by
  unfold Outgoing
  by_cases moved : pair ∈ pairs
  · obtain ⟨gone, joined⟩ := metadata?_resolve_of_mem (g := g) moved site
    rw [gone, joined, CallSites.isSome_joined, Bool.or_eq_true]
    simp [or_comm]
  · unfold metadata?
    rw [sites?_resolve_of_not_mem moved, sites?_resolve_of_not_mem moved]

/-- The metadata of a call site goes to one place, with all its keys. -/
theorem metadata?_resolve_keeps {relation : Relation} {site : Int64} {metadata : Metadata}
    (leaves : relation ≠ .internal) (held : g.metadata? relation pair site = some metadata) :
    ∃ relation' all, relation' ≠ .internal ∧
      (g.moveAll pairs .external .resolved).metadata? relation' pair site = some all ∧
      ∀ key, metadata.contains key → all.contains key := by
  by_cases moved : pair ∈ pairs
  · obtain ⟨_, joined⟩ := metadata?_resolve_of_mem (g := g) moved site
    have was : g.metadata? .resolved pair site = some metadata ∨
        g.metadata? .external pair site = some metadata := by
      cases relation with
      | internal => exact absurd rfl leaves
      | external => exact .inr held
      | resolved => exact .inl held
    obtain ⟨all, together, keeps⟩ := CallSites.joined_keeps was
    exact ⟨.resolved, all, by decide, joined.trans together, keeps⟩
  · have same : (g.moveAll pairs .external .resolved).metadata? relation pair site =
        some metadata := by
      unfold metadata?
      rw [sites?_resolve_of_not_mem moved]
      exact held
    exact ⟨relation, metadata, leaves, same, fun key has => has⟩

theorem contains_resolve {relation : Relation}
    (held : ((g.moveAll pairs .external .resolved).get relation).contains pair) :
    (g.get relation).contains pair ∧ (relation = .external → pair ∉ pairs) ∨
      relation = .resolved ∧ pair ∈ pairs ∧ g.external.contains pair := by
  by_cases moved : pair ∈ pairs
  · have apart : Relation.external ≠ .resolved := by decide
    have there := g.sites?_moveAll pairs apart relation pair
    rw [if_pos moved] at there
    cases relation with
    | internal =>
      have same : (g.get .internal).contains pair := by
        rwa [get, internal_resolve] at held
      exact .inl ⟨same, by simp⟩
    | external =>
      obtain ⟨sites, held⟩ := SortedMap.contains_iff.1 held
      cases there.symm.trans held
    | resolved =>
      cases was : g.sites? .external pair with
      | some sites => exact .inr ⟨rfl, moved, SortedMap.contains_iff.2 ⟨sites, was⟩⟩
      | none =>
        obtain ⟨sites, held⟩ := SortedMap.contains_iff.1 held
        rw [was] at there
        have same : g.sites? .resolved pair = some sites := there.symm.trans held
        exact .inl ⟨SortedMap.contains_iff.2 ⟨sites, same⟩, by simp⟩
  · obtain ⟨sites, held⟩ := SortedMap.contains_iff.1 held
    have same := (sites?_resolve_of_not_mem moved relation).symm.trans held
    exact .inl ⟨SortedMap.contains_iff.2 ⟨sites, same⟩, fun _ => moved⟩

end CallGraph

/-! ### Types that are moved -/

namespace Hierarchy

variable {h moved : Hierarchy} {source target : Scope} {uri : Uri} {type : TypeDecl}

theorem Partitioned.exists_type?_move_iff (parted : h.Partitioned)
    (held : h.type? source uri = some type) (ok : h.move uri source target = .ok moved)
    {home : Uri} {other : TypeDecl} :
    (∃ scope, moved.type? scope home = some other) ↔ ∃ scope, h.type? scope home = some other := by
  simp only [parted.type?_move held ok]
  by_cases same : home = uri
  · subst same
    simp only [if_true, Option.ite_none_right_eq_some, Option.some.injEq, exists_eq_left]
    constructor
    · rintro rfl
      exact ⟨source, held⟩
    · rintro ⟨scope, also⟩
      obtain rfl := parted.scope_eq held also
      exact Option.some.inj (held.symm.trans also)
  · simp only [same, if_false]

/-- No scope loses a method but the one that the type comes from. -/
theorem Partitioned.mem_ids_move (parted : h.Partitioned) (held : h.type? source uri = some type)
    (ok : h.move uri source target = .ok moved) {scope : Scope} (apart : scope ≠ source)
    {id : Int64} (mem : id ∈ h.ids scope) : id ∈ moved.ids scope := by
  obtain ⟨home, other, here, has⟩ := mem_ids_iff.1 mem
  refine mem_ids_iff.2 ⟨home, other, ?_, has⟩
  have elsewhere : home ≠ uri := by
    rintro rfl
    exact apart (parted.scope_eq here held)
  rwa [parted.type?_move held ok, if_neg elsewhere]

end Hierarchy

namespace Revision

/-- Makes an external type resolved, and then the external calls of these pairs. -/
def stitch (r : Revision) (uri : Uri) (pairs : List CallPair) : Except Error Revision := do
  let hierarchy ← r.hierarchy.move uri .external .resolved
  return { r with hierarchy, calls := r.calls.moveAll pairs .external .resolved }

/-- The external calls of the methods of a type. -/
def CallsInto (r : Revision) (type : TypeDecl) (pair : CallPair) : Prop :=
  r.calls.external.contains pair ∧ type.methods.containsId pair.callee

/-- What stitching a type does to a revision. -/
structure Stitched (uri : Uri) (type : TypeDecl) (r s : Revision) : Prop where
  valid : s.validate = .ok ()
  /-- Each type stays as it is, with all its methods and their ids, wherever it is then. -/
  types : ∀ home held, (∃ scope, s.hierarchy.type? scope home = some held) ↔
    ∃ scope, r.hierarchy.type? scope home = some held
  placed : s.hierarchy.type? .resolved uri = some type
  internal : s.calls.internal = r.calls.internal
  sites : ∀ pair site, s.calls.Outgoing pair site ↔ r.calls.Outgoing pair site
  keys : ∀ relation pair site metadata, relation ≠ .internal →
    r.calls.metadata? relation pair site = some metadata →
      ∃ relation' all, relation' ≠ .internal ∧
        s.calls.metadata? relation' pair site = some all ∧
        ∀ key, metadata.contains key → all.contains key
  settled : ∀ pair, ¬ s.CallsInto type pair

section Stitched

variable {r s : Revision} {uri : Uri} {type : TypeDecl} {pairs : List CallPair}

theorem stitch_of_held (held : r.hierarchy.type? .external uri = some type)
    (pairs : List CallPair) :
    ∃ s, r.stitch uri pairs = .ok s ∧
      r.hierarchy.move uri .external .resolved = .ok s.hierarchy ∧
      s.calls = r.calls.moveAll pairs .external .resolved := by
  have moved := Hierarchy.move_of_held held .resolved
  unfold stitch
  rw [moved]
  exact ⟨_, rfl, rfl, rfl⟩

/-- Calls keep their declared ends: only external types are taken from, and no call needs these. -/
theorem endsDeclared_of_move (parted : r.hierarchy.Partitioned)
    (held : r.hierarchy.type? .external uri = some type)
    (moved : r.hierarchy.move uri .external .resolved = .ok s.hierarchy) {relation : Relation}
    {pair : CallPair} (declared : r.endsDeclared relation pair) :
    s.endsDeclared relation pair := by
  rw [endsDeclared_iff] at declared ⊢
  obtain ⟨caller, callee⟩ := declared
  refine ⟨parted.mem_ids_move held moved (by decide) caller, ?_⟩
  cases relation with
  | internal | resolved => exact parted.mem_ids_move held moved (by decide) callee
  | external => trivial

theorem validate_of_stitch (parted : r.hierarchy.Partitioned) (valid : r.validate = .ok ())
    (held : r.hierarchy.type? .external uri = some type)
    (chosen : ∀ pair, pair ∈ pairs ↔ r.CallsInto type pair)
    (moved : r.hierarchy.move uri .external .resolved = .ok s.hierarchy)
    (calls : s.calls = r.calls.moveAll pairs .external .resolved) : s.validate = .ok () := by
  rw [validate_eq_ok_iff] at valid ⊢
  intro relation pair mem
  rw [calls] at mem
  rcases CallGraph.contains_resolve mem with ⟨was, _⟩ | ⟨rfl, picked, was⟩
  · exact endsDeclared_of_move parted held moved (valid relation pair was)
  · -- the callee is a method of the type, which is resolved now
    have callee : pair.callee ∈ s.hierarchy.ids .resolved := by
      refine Hierarchy.mem_ids_iff.2 ⟨uri, type, ?_, ((chosen pair).1 picked).2⟩
      rw [parted.type?_move held moved, if_pos rfl, if_pos rfl]
    have declared := endsDeclared_of_move parted held moved (valid .external pair was)
    exact endsDeclared_iff.2 ⟨(endsDeclared_iff.1 declared).1, callee⟩

end Stitched

/-- Stitching an external type, and in any order all external calls of its methods, gives a valid
revision that has lost nothing. -/
theorem stitched_of_stitch {r : Revision} (parted : r.hierarchy.Partitioned)
    (valid : r.validate = .ok ()) {uri : Uri} {type : TypeDecl}
    (held : r.hierarchy.type? .external uri = some type) {pairs : List CallPair}
    (chosen : ∀ pair, pair ∈ pairs ↔ r.CallsInto type pair) :
    ∃ s, r.stitch uri pairs = .ok s ∧ Stitched uri type r s := by
  obtain ⟨s, made, moved, calls⟩ := stitch_of_held held pairs
  refine ⟨s, made, validate_of_stitch parted valid held chosen moved calls, ?_, ?_, ?_, ?_, ?_, ?_⟩
  · intro home other
    exact parted.exists_type?_move_iff held moved
  · rw [parted.type?_move held moved, if_pos rfl, if_pos rfl]
  · rw [calls, CallGraph.internal_resolve]
  · intro pair site
    rw [calls, CallGraph.outgoing_resolve_iff]
  · intro relation pair site metadata leaves
    rw [calls]
    exact CallGraph.metadata?_resolve_keeps leaves
  · rintro pair ⟨left, into⟩
    rw [calls] at left
    have left : ((r.calls.moveAll pairs .external .resolved).get .external).contains pair := left
    rcases CallGraph.contains_resolve left with ⟨was, unpicked⟩ | ⟨other, _⟩
    · exact unpicked rfl ((chosen pair).2 ⟨was, into⟩)
    · cases other

theorem stitched_of_stitch_shared :
    let uri : Uri := ⟨"/dep/Util", .local ⟨"dep".toList, some "Util".toList⟩, by decide⟩
    let other : Uri := ⟨"/dep/Other", .local ⟨"dep".toList, some "Other".toList⟩, by decide⟩
    let caller : Uri := ⟨"/app/Main", .local ⟨"app".toList, some "Main".toList⟩, by decide⟩
    let type (id : Int64) (uri : Uri) : TypeDecl :=
      { TypeDecl.placeholder with methods := .ofList [(id, .plain uri)] }
    let types : Hierarchy := ⟨SortedMap.empty.insert caller (type 0 caller),
      SortedMap.empty.insert uri (type 100 uri), SortedMap.empty.insert other (type 100 other)⟩
    let noted (key : String) : CallMap := SortedMap.empty.insert ⟨0, 100⟩
      (SortedMap.empty.insert 5 (SortedMap.empty.insert key (.text "")))
    ∃ r s : Revision, r.hierarchy = types ∧ r.calls = ⟨∅, noted "receiver", noted "line"⟩ ∧
      r.validate = .ok () ∧ (∀ pair, pair ∈ [⟨0, 100⟩] ↔ r.CallsInto (type 100 uri) pair) ∧
      r.stitch uri [⟨0, 100⟩] = .ok s ∧ Stitched uri (type 100 uri) r s := by
  intro uri other caller type types noted
  have parted : types.Partitioned := Hierarchy.conflicts_eq_nil_iff.1 (by decide +kernel)
  have checks : (Coordinates.of "mvn" "lib" "1.0").isOk := by decide +kernel
  obtain ⟨c, _⟩ := exists_eq_ok_of_isOk checks
  let r : Revision :=
    ⟨c, .unknown, "test", by decide, 0, types, ⟨∅, noted "receiver", noted "line"⟩⟩
  have valid : r.validate = .ok () := rfl
  have held : r.hierarchy.type? .external uri = some (type 100 uri) :=
    (SortedMap.get?_single uri _ uri).trans (if_pos rfl)
  have chosen (pair : CallPair) : pair ∈ [⟨0, 100⟩] ↔ r.CallsInto (type 100 uri) pair := by
    show _ ↔ (noted "receiver").contains pair ∧ _
    rw [List.mem_singleton, SortedMap.contains, SortedMap.get?_single]
    constructor
    · rintro rfl
      exact ⟨rfl, rfl⟩
    · rintro ⟨here, _⟩
      split at here
      · assumption
      · cases here
  obtain ⟨s, made, stitched⟩ := stitched_of_stitch parted valid held chosen
  exact ⟨r, s, rfl, rfl, valid, chosen, made, stitched⟩

end Revision

end RevisionGraph
