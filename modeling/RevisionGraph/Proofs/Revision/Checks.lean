import RevisionGraph.Assembly.Assembler
import RevisionGraph.Ordered.Lookup

/-!
# What the checks of a revision ask for

`Revision.new_eq_ok_iff` says which fields make a revision, and `Revision.validate_eq_ok_iff` which
calls make it valid.
-/

namespace RevisionGraph

theorem checked_eq_ok_iff {α : Type} {result : Except Error α} {value : α} :
    checked result = .ok value ↔ result = .ok value := by
  cases result <;> constructor <;> intro same <;> cases same <;> rfl

theorem during_eq_ok_iff {α : Type} {task : String} {result : Except Failure α} {value : α} :
    during task result = .ok value ↔ result = .ok value := by
  cases result <;> constructor <;> intro same <;> cases same <;> rfl

theorem Coordinates.of_eq_ok_iff {forge product version : String} {c : Coordinates} :
    Coordinates.of forge product version = .ok c ↔
      c.forge = forge ∧ c.product = product ∧ c.version = version := by
  constructor
  · intro ok
    unfold Coordinates.of at ok
    split at ok
    · cases ok
    · split at ok
      · cases ok
      · cases ok
        exact ⟨rfl, rfl, rfl⟩
  · rintro ⟨rfl, rfl, rfl⟩
    unfold Coordinates.of
    split <;> rename_i uri
    · cases c.uri_eq.symm.trans uri
    · split <;> rename_i forgelessUri
      · cases c.forgelessUri_eq.symm.trans forgelessUri
      · exact congrArg Except.ok (Coordinates.ext rfl rfl rfl)

namespace Timestamp

theorem ofInt64_seconds (t : Timestamp) : ofInt64 t.seconds = t := by
  obtain ⟨seconds, valid⟩ := t
  unfold ofInt64
  split <;> rename_i known
  · rfl
  · rcases valid with rfl | valid
    · rfl
    · exact absurd valid known

theorem known?_eq (t : Timestamp) :
    t.known? = if t.seconds = -1 then none else some t.seconds := by
  obtain ⟨seconds, valid⟩ := t
  unfold known?
  rcases valid with rfl | valid
  · rfl
  · have known : seconds ≠ -1 := by
      rintro rfl
      exact absurd valid (by decide)
    rw [if_pos valid, if_neg known]

end Timestamp

namespace Revision

theorem new_eq_ok_iff {forge product version generator : String} {timestamp : Int64}
    {nodeCount : UInt64} {hierarchy : Hierarchy} {calls : CallGraph} {r : Revision} :
    new forge product version timestamp nodeCount generator hierarchy calls = .ok r ↔
      forge ≠ "" ∧ product ≠ "" ∧ version ≠ "" ∧ ∃ (named : generator ≠ "") (coordinates : _),
        Coordinates.of forge product version = .ok coordinates ∧
          r = ⟨coordinates, .ofInt64 timestamp, generator, named, nodeCount, hierarchy, calls⟩ := by
  unfold new
  by_cases noForge : forge = ""
  · simp [noForge]
  by_cases noProduct : product = ""
  · simp [noForge, noProduct]
  by_cases noVersion : version = ""
  · simp [noForge, noProduct, noVersion]
  by_cases noGenerator : generator = ""
  · simp [noForge, noProduct, noVersion, noGenerator]
  cases made : Coordinates.of forge product version with
  | error failure => simp [noForge, noProduct, noVersion, noGenerator, bind, Except.bind]
  | ok coordinates =>
    simp [noForge, noProduct, noVersion, noGenerator, bind, Except.bind, pure, Except.pure, eq_comm]

theorem endsDeclared_iff {r : Revision} {relation : Relation} {pair : CallPair} :
    r.endsDeclared relation pair ↔
      pair.caller ∈ r.hierarchy.ids .internal ∧
        match relation with
        | .internal => pair.callee ∈ r.hierarchy.ids .internal
        | .external => True
        | .resolved => pair.callee ∈ r.hierarchy.ids .resolved := by
  unfold endsDeclared
  cases relation <;> simp

theorem mem_danglingCalls_iff {r : Revision} {relation : Relation} {pair : CallPair} :
    (relation, pair) ∈ r.danglingCalls ↔
      (r.calls.get relation).contains pair ∧ r.endsDeclared relation pair = false := by
  unfold danglingCalls
  rw [List.mem_flatMap]
  constructor
  · rintro ⟨other, _, mem⟩
    obtain ⟨_, mem, same⟩ := List.mem_map.1 mem
    cases same
    obtain ⟨held, dangles⟩ := List.mem_filter.1 mem
    exact ⟨SortedMap.mem_keys_iff.1 held, by simpa using dangles⟩
  · rintro ⟨held, dangles⟩
    refine ⟨relation, Relation.mem_all relation, List.mem_map.2 ⟨pair, ?_, rfl⟩⟩
    exact List.mem_filter.2 ⟨SortedMap.mem_keys_iff.2 held, by simpa using dangles⟩

/-- A revision is valid if the ends of all its calls are declared. -/
theorem validate_eq_ok_iff {r : Revision} :
    r.validate = .ok () ↔
      ∀ relation pair, (r.calls.get relation).contains pair → r.endsDeclared relation pair := by
  have nothing : r.validate = .ok () ↔ r.danglingCalls = [] := by
    unfold validate
    split <;> rename_i dangling <;> simp [dangling]
  rw [nothing, List.eq_nil_iff_forall_not_mem]
  constructor
  · intro none relation pair held
    cases declared : r.endsDeclared relation pair with
    | true => rfl
    | false => exact absurd (mem_danglingCalls_iff.2 ⟨held, declared⟩) (none (relation, pair))
  · rintro declared ⟨relation, pair⟩ mem
    obtain ⟨held, dangles⟩ := mem_danglingCalls_iff.1 mem
    exact Bool.eq_false_iff.1 dangles (declared relation pair held)

end Revision

/-- A finished revision holds what was assembled. -/
theorem Assembler.finish_ok {a : Assembler} {forge product version generator : String}
    {timestamp : Option Int64} {r : Revision}
    (finished : a.finish forge product version generator timestamp = .ok r) :
    r.hierarchy = a.hierarchy ∧ r.calls = a.calls ∧ r.nodeCount = a.nodeCount := by
  have built := checked_eq_ok_iff.1 (during_eq_ok_iff.1 finished)
  obtain ⟨_, _, _, _, _, _, rfl⟩ := Revision.new_eq_ok_iff.1 built
  exact ⟨rfl, rfl, rfl⟩

end RevisionGraph
