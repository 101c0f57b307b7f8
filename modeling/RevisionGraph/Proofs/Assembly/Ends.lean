import RevisionGraph.Proofs.Assembly.Run
import RevisionGraph.Proofs.Revision.Checks

/-!
# The ends of assembled calls

However facts are ordered and whichever of them fail, assembled calls join methods of the scopes
that their relations ask for, so what is finished is valid.
-/

namespace RevisionGraph.Assembler

open Ledger

/-- Calls stand between methods of the scopes that their relations ask for. -/
structure WellJoined (a : Assembler) : Prop where
  internal : ∀ pair, a.calls.internal.contains pair →
    pair.caller ∈ a.hierarchy.ids .internal ∧ pair.callee ∈ a.hierarchy.ids .internal
  external : ∀ pair, a.calls.external.contains pair →
    pair.caller ∈ a.hierarchy.ids .internal ∧ pair.callee ∈ a.hierarchy.ids .external ∧
      pair.callee ∉ a.hierarchy.ids .internal
  apart : ∀ pair, ¬(a.calls.internal.contains pair ∧ a.calls.external.contains pair)
  noResolvedTypes : a.hierarchy.resolved = ∅
  noResolvedCalls : a.calls.resolved = ∅

variable {a : Assembler} {l : Ledger}

theorem ends_of_call (d : l.Describes a) (sound : l.Sound) (few : l.rows.length < 2 ^ 63)
    (relation : Relation) {pair : CallPair} (held : (a.calls.get relation).contains pair) :
    pair.caller ∈ a.hierarchy.ids .internal ∧
      ∃ callee, (pair.callee, callee) ∈ l.rows ∧ relation = l.relationOf callee.uri := by
  obtain ⟨sites, held⟩ := d.contains_calls_iff.1 held
  obtain ⟨caller, callee, callerHeld, calleeHeld, belongs, joined⟩ :=
    (sound.pairSites?_eq_some_iff few).1 held
  obtain ⟨call, mem, callerIs, _⟩ := exists_call_of_sites? joined
  have declared : l.isDeclared caller.uri := callerIs ▸ (sound.callers call mem).2
  have inside : Scope.internal = l.methodScope caller.uri := (if_pos declared).symm
  exact ⟨(d.mem_ids_iff sound few).2 ⟨caller, callerHeld, inside⟩, callee, calleeHeld, belongs⟩

theorem isDeclared_of_internal {callee : Uri} (belongs : Relation.internal = l.relationOf callee) :
    l.isDeclared callee := by
  by_contra undeclared
  rw [relationOf, if_neg undeclared] at belongs
  cases belongs

theorem isDeclared_of_external {callee : Uri} (belongs : Relation.external = l.relationOf callee) :
    ¬l.isDeclared callee := by
  intro declared
  rw [relationOf, if_pos declared] at belongs
  cases belongs

theorem wellJoined_of_describes (d : l.Describes a) (sound : l.Sound)
    (few : l.rows.length < 2 ^ 63) : a.WellJoined where
  internal pair held := by
    obtain ⟨caller, callee, calleeHeld, belongs⟩ := ends_of_call d sound few .internal held
    have inside : Scope.internal = l.methodScope callee.uri :=
      (if_pos (isDeclared_of_internal belongs)).symm
    exact ⟨caller, (d.mem_ids_iff sound few).2 ⟨callee, calleeHeld, inside⟩⟩
  external pair held := by
    obtain ⟨caller, callee, calleeHeld, belongs⟩ := ends_of_call d sound few .external held
    have undeclared := isDeclared_of_external belongs
    have outside : Scope.external = l.methodScope callee.uri := (if_neg undeclared).symm
    refine ⟨caller, (d.mem_ids_iff sound few).2 ⟨callee, calleeHeld, outside⟩, ?_⟩
    intro also
    obtain ⟨method, methodHeld, inside⟩ := (d.mem_ids_iff sound few).1 also
    have same := ((sound.distinct few).row_eq methodHeld calleeHeld).1 rfl
    cases same
    cases outside.trans inside.symm
  apart := by
    rintro pair ⟨held, also⟩
    obtain ⟨_, callee, calleeHeld, belongs⟩ := ends_of_call d sound few .internal held
    obtain ⟨_, other, otherHeld, elsewhere⟩ := ends_of_call d sound few .external also
    have same := ((sound.distinct few).row_eq calleeHeld otherHeld).1 rfl
    cases same
    cases belongs.trans elsewhere.symm
  noResolvedTypes := SortedMap.ext_get? fun uri => d.unresolved uri
  noResolvedCalls := SortedMap.ext_get? fun pair =>
    (d.calls .resolved pair).trans (l.pairSites?_resolved pair)

theorem WellJoined.validate {r : Revision} (joined : a.WellJoined)
    (hierarchy : r.hierarchy = a.hierarchy) (calls : r.calls = a.calls) : r.validate = .ok () := by
  rw [Revision.validate_eq_ok_iff]
  intro relation pair held
  rw [calls] at held
  rw [Revision.endsDeclared_iff, hierarchy]
  cases relation with
  | internal => exact joined.internal pair held
  | external => exact ⟨(joined.external pair held).1, trivial⟩
  | resolved =>
    have held : a.calls.resolved.contains pair := held
    rw [joined.noResolvedCalls] at held
    cases held

/-- However a new assembler is run, its calls are well joined and what it finishes is valid. -/
theorem wellJoined_run {facts : List Fact} (few : facts.length < 2 ^ 63) :
    (empty.run facts).WellJoined ∧
      ∀ forge product version generator timestamp r,
        (empty.run facts).finish forge product version generator timestamp = .ok r →
          r.validate = .ok () := by
  obtain ⟨describes, sound, length⟩ := describes_run facts few
  have joined := wellJoined_of_describes describes sound (Nat.lt_of_le_of_lt length few)
  refine ⟨joined, ?_⟩
  intro forge product version generator timestamp r finished
  obtain ⟨hierarchy, calls, _⟩ := finish_ok finished
  exact joined.validate hierarchy calls

theorem wellJoined_run_late :
    lateFacts.length < 2 ^ 63 ∧ (empty.run lateFacts).WellJoined ∧
      ∃ r, (empty.run lateFacts).finish "mvn" "app" "1.0" "test" none = .ok r ∧
        r.validate = .ok () := by
  have few : lateFacts.length < 2 ^ 63 := by decide
  obtain ⟨joined, valid⟩ := wellJoined_run few
  obtain ⟨r, finished⟩ := exists_finish_late
  exact ⟨few, joined, r, finished, valid _ _ _ _ _ r finished⟩

end RevisionGraph.Assembler
