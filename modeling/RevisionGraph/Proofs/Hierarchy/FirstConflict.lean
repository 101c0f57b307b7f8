import Mathlib.Data.List.Pairwise
import Mathlib.Data.Prod.Lex
import Mathlib.Data.String.Basic
import RevisionGraph.Proofs.Hierarchy.Built
import RevisionGraph.Proofs.Ordered.First

/-!
# The first conflict of three maps

Three maps make a hierarchy if no two of them share a key, and are refused for a shared key
otherwise. `Hierarchy.ofScopes_names_first` says which key and which two scopes the error names,
without the walk that finds them.
-/

namespace RevisionGraph

namespace Scope

def place : Scope → Nat
  | .internal => 0
  | .external => 1
  | .resolved => 2

theorem place_injective : Function.Injective place := by
  intro first second same
  cases first <;> cases second <;> first | rfl | cases same

theorem mem_later_iff {first second : Scope} :
    second ∈ first.later ↔ first.place < second.place := by
  cases first <;> cases second <;> decide

theorem pairwise_later (scope : Scope) :
    scope.later.Pairwise fun first second => first.place < second.place := by
  cases scope <;> decide

end Scope

namespace Hierarchy

/-! ### The order of conflicts -/

/-- A type is in two scopes, of which the first comes before the second. -/
def Conflicting (h : Hierarchy) : Scope × Uri × Scope → Prop
  | (first, uri, second) =>
    first.place < second.place ∧ (h.get first).contains uri ∧ (h.get second).contains uri

/-- Conflicts are ordered by their first scope, then by their URI, then by their second scope. -/
def conflictKey : Scope × Uri × Scope → ℕ ×ₗ String ×ₗ ℕ
  | (first, uri, second) => toLex (first.place, toLex (uri.text, second.place))

theorem conflictKey_injective : Function.Injective conflictKey := by
  rintro ⟨first, uri, second⟩ ⟨first', uri', second'⟩ same
  have places : (first.place, uri.text, second.place) = (first'.place, uri'.text, second'.place) :=
    same
  simp only [Prod.mk.injEq] at places ⊢
  obtain ⟨firsts, texts, seconds⟩ := places
  exact ⟨Scope.place_injective firsts, Uri.ext_text texts, Scope.place_injective seconds⟩

variable {h : Hierarchy}

theorem mem_conflicts_iff_conflicting {conflict : Scope × Uri × Scope} :
    conflict ∈ h.conflicts ↔ h.Conflicting conflict :=
  mem_conflicts_iff.trans (and_congr_left' Scope.mem_later_iff)

theorem pairwise_conflicts (h : Hierarchy) :
    h.conflicts.Pairwise fun conflict other => conflictKey conflict < conflictKey other := by
  have places : Scope.all.Pairwise fun first second => first.place < second.place := by decide
  rw [conflicts, List.pairwise_flatMap]
  constructor
  · intro first _
    rw [List.pairwise_flatMap]
    constructor
    · intro uri _
      refine List.pairwise_map.2 ((first.pairwise_later.filter _).imp fun order => ?_)
      exact Prod.Lex.toLex_lt_toLex.2 (.inr ⟨rfl, Prod.Lex.toLex_lt_toLex.2 (.inr ⟨rfl, order⟩)⟩)
    · refine (h.get first).pairwise_keys.imp fun order conflict mem other mem' => ?_
      obtain ⟨second, _, rfl⟩ := List.mem_map.1 mem
      obtain ⟨second', _, rfl⟩ := List.mem_map.1 mem'
      have texts := Uri.compare_eq_lt_iff.1 order
      exact Prod.Lex.toLex_lt_toLex.2 (.inr ⟨rfl, Prod.Lex.toLex_lt_toLex.2 (.inl texts)⟩)
  · refine places.imp fun order conflict mem other mem' => ?_
    obtain ⟨uri, _, mem⟩ := List.mem_flatMap.1 mem
    obtain ⟨uri', _, mem'⟩ := List.mem_flatMap.1 mem'
    obtain ⟨second, _, rfl⟩ := List.mem_map.1 mem
    obtain ⟨second', _, rfl⟩ := List.mem_map.1 mem'
    exact Prod.Lex.toLex_lt_toLex.2 (.inl order)

theorem head?_conflicts_eq_some_iff {conflict : Scope × Uri × Scope} :
    h.conflicts.head? = some conflict ↔
      h.Conflicting conflict ∧
        ∀ other, h.Conflicting other → conflictKey conflict ≤ conflictKey other := by
  have least (other : Scope × Uri × Scope) :
      other = conflict ∨ conflictKey conflict < conflictKey other ↔
        conflictKey conflict ≤ conflictKey other := by
    rw [le_iff_eq_or_lt, conflictKey_injective.eq_iff, eq_comm]
  rw [head?_eq_some_iff_of_pairwise (fun _ _ => lt_asymm) h.pairwise_conflicts]
  simp only [mem_conflicts_iff_conflicting, least]

/-! ### What is accepted and what is refused -/

theorem partitioned_iff_pairwise :
    h.Partitioned ↔ (Scope.all.map fun scope => (h.get scope).keys).Pairwise List.Disjoint := by
  rw [List.pairwise_map]
  constructor
  · intro parted
    have distinct : Scope.all.Nodup := by decide
    refine distinct.imp fun apart uri held also => apart ?_
    exact parted _ _ uri (SortedMap.mem_keys_iff.1 held) (SortedMap.mem_keys_iff.1 also)
  · intro disjoint scope other uri held also
    by_contra apart
    have symm : Std.Symm fun scope other => (h.get scope).keys.Disjoint (h.get other).keys :=
      ⟨fun _ _ => List.disjoint_symm⟩
    exact disjoint.forall (Scope.mem_all scope) (Scope.mem_all other) apart
      (SortedMap.mem_keys_iff.2 held) (SortedMap.mem_keys_iff.2 also)

theorem ofScopes_eq_error_iff {internal external resolved : TypeMap} {error : Error} :
    ofScopes internal external resolved = .error error ↔
      ∃ first uri second,
        (conflicts ⟨internal, external, resolved⟩).head? = some (first, uri, second) ∧
        error = .scopeConflict uri.text first second := by
  rw [ofScopes]
  split <;> rename_i found
  · simp [found]
  · simp [found, eq_comm]

/-- Three maps are the scopes of a hierarchy if their keys are pairwise disjoint, and the hierarchy
holds them as they are. If they are not, the error names the least conflict: a key of two maps, with
the scopes of both in their order. -/
theorem ofScopes_names_first (internal external resolved : TypeMap) :
    (∀ h, ofScopes internal external resolved = .ok h ↔
      [internal.keys, external.keys, resolved.keys].Pairwise List.Disjoint ∧
        h = ⟨internal, external, resolved⟩) ∧
    ∀ error, ofScopes internal external resolved = .error error ↔
      ∃ first uri second,
        Conflicting ⟨internal, external, resolved⟩ (first, uri, second) ∧
        (∀ other, Conflicting ⟨internal, external, resolved⟩ other →
          conflictKey (first, uri, second) ≤ conflictKey other) ∧
        error = .scopeConflict uri.text first second := by
  constructor
  · intro h
    have disjoint : Partitioned ⟨internal, external, resolved⟩ ↔
        [internal.keys, external.keys, resolved.keys].Pairwise List.Disjoint :=
      partitioned_iff_pairwise
    rw [ofScopes_eq_ok_iff, ← disjoint]
    constructor
    · rintro ⟨rfl, parted⟩
      exact ⟨parted, rfl⟩
    · rintro ⟨parted, rfl⟩
      exact ⟨rfl, parted⟩
  · intro error
    simp only [ofScopes_eq_error_iff, head?_conflicts_eq_some_iff, and_assoc]

end Hierarchy

end RevisionGraph
