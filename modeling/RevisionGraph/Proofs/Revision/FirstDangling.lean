import Mathlib.Data.List.Pairwise
import RevisionGraph.Proofs.Hierarchy.Lookup
import RevisionGraph.Proofs.Ordered.First
import RevisionGraph.Proofs.Revision.Checks

/-!
# The first dangling call

A revision is refused for a call whose ends are not declared, and of several such calls for the
first: relation by relation, and in a relation by caller and callee. `Revision.validate_names_first`
says so without the lists of ids and calls that the check makes.
-/

namespace RevisionGraph

/-! ### The order of calls -/

theorem CallPair.compare_eq_lt_iff {p q : CallPair} :
    compare p q = .lt ↔ p.caller < q.caller ∨ p.caller = q.caller ∧ p.callee < q.callee := by
  have both : compare p q = (compare p.caller q.caller).then (compare p.callee q.callee) := rfl
  rw [both, Ordering.then_eq_lt, Std.compare_eq_lt, Std.compare_eq_lt,
    Std.LawfulEqOrd.compare_eq_iff_eq]

def Relation.place : Relation → Nat
  | .internal => 0
  | .external => 1
  | .resolved => 2

/-- A call is checked before another. -/
def Earlier (first second : Relation × CallPair) : Prop :=
  first.1.place < second.1.place ∨ first.1 = second.1 ∧
    (first.2.caller < second.2.caller ∨
      first.2.caller = second.2.caller ∧ first.2.callee < second.2.callee)

theorem earlier_of_compare {relation : Relation} {p q : CallPair} (order : compare p q = .lt) :
    Earlier (relation, p) (relation, q) :=
  .inr ⟨rfl, CallPair.compare_eq_lt_iff.1 order⟩

theorem Earlier.asymm {first second : Relation × CallPair} (order : Earlier first second) :
    ¬ Earlier second first := by
  obtain ⟨relation, p⟩ := first
  obtain ⟨relation', q⟩ := second
  rintro (back | ⟨rfl, back⟩)
  · rcases order with order | ⟨rfl, _⟩
    · exact Nat.lt_asymm order back
    · exact Nat.lt_irrefl _ back
  · rcases order with order | ⟨_, order⟩
    · exact Nat.lt_irrefl _ order
    · have less := CallPair.compare_eq_lt_iff.2 order
      rw [Std.OrientedCmp.gt_of_lt (CallPair.compare_eq_lt_iff.2 back)] at less
      cases less

namespace Revision

variable {r : Revision}

/-! ### Calls that dangle -/

def Declares (r : Revision) (scope : Scope) (id : Int64) : Prop :=
  ∃ uri type, r.hierarchy.type? scope uri = some type ∧ type.methods.containsId id

/-- The ends of a call are declared where a call of the relation needs them. -/
def Joins (r : Revision) : Relation → CallPair → Prop
  | .internal, pair => r.Declares .internal pair.caller ∧ r.Declares .internal pair.callee
  | .external, pair => r.Declares .internal pair.caller
  | .resolved, pair => r.Declares .internal pair.caller ∧ r.Declares .resolved pair.callee

def Dangles (r : Revision) (call : Relation × CallPair) : Prop :=
  (r.calls.get call.1).contains call.2 ∧ ¬ r.Joins call.1 call.2

theorem endsDeclared_iff_joins {relation : Relation} {pair : CallPair} :
    r.endsDeclared relation pair ↔ r.Joins relation pair := by
  rw [endsDeclared_iff]
  cases relation with
  | internal | resolved => exact and_congr Hierarchy.mem_ids_iff Hierarchy.mem_ids_iff
  | external => exact (and_iff_left trivial).trans Hierarchy.mem_ids_iff

theorem mem_danglingCalls_iff_dangles {call : Relation × CallPair} :
    call ∈ r.danglingCalls ↔ r.Dangles call := by
  rw [Dangles, ← endsDeclared_iff_joins, Bool.not_eq_true]
  exact mem_danglingCalls_iff

theorem pairwise_danglingCalls (r : Revision) : r.danglingCalls.Pairwise Earlier := by
  have places : Relation.all.Pairwise fun first second => first.place < second.place := by decide
  rw [danglingCalls, List.pairwise_flatMap]
  -- in a relation by caller and callee, and across relations by the place of each
  constructor
  · intro relation _
    have ascending := (r.calls.get relation).pairwise_keys.filter
    exact List.pairwise_map.2 ((ascending _).imp earlier_of_compare)
  · apply places.imp
    intro relation other order call mem later mem'
    obtain ⟨pair, _, rfl⟩ := List.mem_map.1 mem
    obtain ⟨pair', _, rfl⟩ := List.mem_map.1 mem'
    exact .inl order

theorem validate_eq_error_iff {error : Error} :
    r.validate = .error error ↔
      ∃ call, r.danglingCalls.head? = some call ∧
        error = .danglingEdge call.1 call.2.caller call.2.callee := by
  unfold validate
  split <;> rename_i dangling
  · simp [dangling]
  · simp [dangling, eq_comm]

/-- A revision is valid if all internal calls join internal methods, all external calls come from
internal methods, and all resolved calls go from internal methods to resolved ones. Of the calls
that break this rule, the first is the one that the error names. -/
theorem validate_names_first (r : Revision) :
    (r.validate = .ok () ↔
      (∀ pair, r.calls.internal.contains pair →
        r.Declares .internal pair.caller ∧ r.Declares .internal pair.callee) ∧
      (∀ pair, r.calls.external.contains pair → r.Declares .internal pair.caller) ∧
      ∀ pair, r.calls.resolved.contains pair →
        r.Declares .internal pair.caller ∧ r.Declares .resolved pair.callee) ∧
    ∀ error, r.validate = .error error ↔
      ∃ relation pair, r.Dangles (relation, pair) ∧
        (∀ call, r.Dangles call → call = (relation, pair) ∨ Earlier (relation, pair) call) ∧
        error = .danglingEdge relation pair.caller pair.callee := by
  constructor
  · rw [validate_eq_ok_iff]
    simp only [endsDeclared_iff_joins]
    constructor
    · intro joins
      exact ⟨joins .internal, joins .external, joins .resolved⟩
    · rintro ⟨internal, external, resolved⟩ relation
      cases relation <;> assumption
  · intro error
    have first (call : Relation × CallPair) : r.danglingCalls.head? = some call ↔
        r.Dangles call ∧ ∀ other, r.Dangles other → other = call ∨ Earlier call other := by
      rw [head?_eq_some_iff_of_pairwise (fun _ _ => Earlier.asymm) r.pairwise_danglingCalls]
      simp only [mem_danglingCalls_iff_dangles]
    rw [validate_eq_error_iff]
    simp only [first, Prod.exists, and_assoc]

end Revision

end RevisionGraph
