import RevisionGraph.Proofs.CallGraph.History
import RevisionGraph.Proofs.Ordered.Alike
import RevisionGraph.Proofs.Revision.Noted

/-!
# Appending call graphs

To append a graph is to merge its internal and external calls, pair by pair, call site by call site
and key by key, so it does not matter how often a graph is appended, or how several are grouped. It
matters which comes last only where two graphs note different values under one key of one call site:
`CallGraph.append_joins`.
-/

namespace RevisionGraph

open Json (Metadata Value)

/-! ### One key after the other -/

theorem rel_merge_comm {α : Type} {R : α → α → Prop} {join : α → α → α} {first second : Option α}
    (own : ∀ a ∈ first, R a a) (own' : ∀ b ∈ second, R b b)
    (both : ∀ a b, first = some a → second = some b → R (join b a) (join a b)) :
    Option.Rel R (second.merge join first) (first.merge join second) := by
  cases first with
  | none =>
    cases second with
    | none => exact .none
    | some b => exact .some (own' b rfl)
  | some a =>
    cases second with
    | none => exact .some (own a rfl)
    | some b => exact .some (both a b rfl rfl)

namespace SortedMap

variable {κ α : Type} [Ord κ] [DecidableEq κ] [Std.LawfulEqOrd κ] {R : α → α → Prop}
  {m n : SortedMap κ α}

theorem alike_refl (own : m.AllValues fun v => R v v) : m.Alike R m := by
  intro key
  cases held : m.get? key with
  | none => exact .none
  | some value => exact .some (allValues_iff.1 own key value held)

variable [Std.TransOrd κ]

theorem get?_union_eq_merge (m n : SortedMap κ α) (key : κ) :
    (m.union n).get? key = (m.get? key).merge (fun _ later => later) (n.get? key) := by
  rw [get?_union]
  cases m.get? key <;> cases n.get? key <;> rfl

theorem alike_union (own : m.AllValues fun v => R v v) (own' : n.AllValues fun v => R v v)
    (agree : ∀ key v w, m.get? key = some v → n.get? key = some w → R v w) :
    (n.union m).Alike R (m.union n) := by
  intro key
  rw [get?_union_eq_merge, get?_union_eq_merge]
  exact rel_merge_comm (allValues_iff.1 own key) (allValues_iff.1 own' key) (agree key)

end SortedMap

namespace CallSites

theorem joined_eq_merge (held added : Option Metadata) :
    joined held added = held.merge SortedMap.union added := by
  cases added with
  | none => cases held <;> rfl
  | some added =>
    cases held with
    | none => exact joined_none (some added)
    | some metadata => rfl

theorem alike_merge {R : Value → Value → Prop} {first second : CallSites}
    (own : first.Noted fun v => R v v) (own' : second.Noted fun v => R v v)
    (agree : ∀ site key v w, CallGraph.valueAt (some first) site key = some v →
      CallGraph.valueAt (some second) site key = some w → R v w) :
    (second.merge first).Alike (SortedMap.Alike R) (first.merge second) := by
  have noted := SortedMap.allValues_iff.1 own
  have noted' := SortedMap.allValues_iff.1 own'
  intro site
  rw [get?_merge, get?_merge, joined_eq_merge, joined_eq_merge]
  apply rel_merge_comm
  · exact fun one held => SortedMap.alike_refl (noted site one held)
  · exact fun other held => SortedMap.alike_refl (noted' site other held)
  · intro one other held held'
    refine SortedMap.alike_union (noted site one held) (noted' site other held') ?_
    intro key v w value value'
    refine agree site key v w ?_ ?_
    · exact Option.bind_eq_some_iff.2 ⟨one, held, value⟩
    · exact Option.bind_eq_some_iff.2 ⟨other, held', value'⟩

end CallSites

namespace CallGraph

variable {g other : CallGraph}

theorem merged_eq_merge (held added : Option CallSites) :
    merged held added = held.merge CallSites.merge added := by
  cases added with
  | none => cases held <;> rfl
  | some added =>
    cases held with
    | none => exact merged_none (some added)
    | some sites => rfl

/-! ### One pair after the other -/

theorem get?_mergeAll (calls added : CallMap) (pair : CallPair) :
    (mergeAll calls added).get? pair = merged (calls.get? pair) (added.get? pair) := by
  have combined := SortedMap.get?_foldl_combine
    (fun held sites => (held.getD ∅).merge sites) calls added.ascending pair
  refine Eq.trans combined ?_
  show ((added.get? pair).map _).or _ = _
  cases added.get? pair <;> rfl

theorem sites?_append (g other : CallGraph) (relation : Relation) (pair : CallPair) :
    (g.append other).sites? relation pair =
      if relation = .resolved then g.sites? relation pair
      else merged (g.sites? relation pair) (other.sites? relation pair) := by
  cases relation with
  | internal => exact get?_mergeAll g.internal other.internal pair
  | external => exact get?_mergeAll g.external other.external pair
  | resolved => rfl

theorem append_empty (g : CallGraph) : g.append ∅ = g := by
  apply ext_sites?
  intro relation pair
  rw [sites?_append, sites?_empty]
  exact ite_self _

theorem append_self (g : CallGraph) : g.append g = g := by
  apply ext_sites?
  intro relation pair
  rw [sites?_append, merged_self, ite_self]

theorem append_assoc (a b c : CallGraph) : (a.append b).append c = a.append (b.append c) := by
  apply ext_sites?
  intro relation pair
  simp only [sites?_append]
  split
  · rfl
  · exact merged_assoc _ _ _

/-! ### The order of two graphs -/

/-- Where both graphs have a value under a key of an internal or external call site, the values are
related. -/
def Agree (R : Value → Value → Prop) (g other : CallGraph) : Prop :=
  ∀ relation pair site key v w, relation ≠ .resolved →
    valueAt (g.sites? relation pair) site key = some v →
    valueAt (other.sites? relation pair) site key = some w → R v w

theorem Agree.alike_append {R : Value → Value → Prop} (agree : g.Agree R other)
    (own : g.Noted fun v => R v v) (own' : other.Noted fun v => R v v) {relation : Relation}
    (joined : relation ≠ .resolved) :
    ((other.append g).get relation).Alike (SortedMap.Alike (SortedMap.Alike R))
      ((g.append other).get relation) := by
  intro pair
  have alike : Option.Rel (SortedMap.Alike (SortedMap.Alike R))
      (merged (other.sites? relation pair) (g.sites? relation pair))
      (merged (g.sites? relation pair) (other.sites? relation pair)) := by
    rw [merged_eq_merge, merged_eq_merge]
    apply rel_merge_comm
    · intro sites held
      exact SortedMap.alike_refl ((own relation pair sites held).imp fun _ => SortedMap.alike_refl)
    · intro sites held
      exact SortedMap.alike_refl ((own' relation pair sites held).imp fun _ => SortedMap.alike_refl)
    · intro first second held held'
      refine CallSites.alike_merge (own relation pair first held)
        (own' relation pair second held') ?_
      intro site key v w value value'
      exact agree relation pair site key v w joined (held ▸ value) (held' ▸ value')
  have one := other.sites?_append g relation pair
  have two := g.sites?_append other relation pair
  rw [if_neg joined] at one two
  rw [← one, ← two] at alike
  exact alike

/-- Appending leaves the resolved calls and does not look at those that are appended, changes nothing
that is there already, and may be grouped as one likes. Two graphs that agree on the values that
both have give the same internal and external calls in either order: the same values if these are
the same, and values that compare as equal if these do and each compares as equal to itself. -/
theorem append_joins (a b c : CallGraph) :
    ((a.append b).resolved = a.resolved ∧
      ∀ resolved, a.append { b with resolved } = a.append b) ∧
    (a.append ∅ = a ∧ a.append a = a) ∧
    (a.append b).append b = a.append b ∧
    (a.append b).append c = a.append (b.append c) ∧
    (a.Agree Eq b →
      (b.append a).internal = (a.append b).internal ∧
      (b.append a).external = (a.append b).external) ∧
    (a.Agree (fun v w => v == w) b →
      a.Noted (fun v => v == v) → b.Noted (fun v => v == v) →
        (b.append a).internal == (a.append b).internal ∧
        (b.append a).external == (a.append b).external) := by
  have again : (a.append b).append b = a.append b := by
    rw [append_assoc, append_self]
  refine ⟨⟨rfl, fun _ => rfl⟩, ⟨append_empty a, append_self a⟩, again, append_assoc a b c, ?_, ?_⟩
  · intro agree
    have same (relation : Relation) (joined : relation ≠ .resolved) :
        (b.append a).get relation = (a.append b).get relation := by
      have alike := agree.alike_append (fun _ _ _ _ _ _ _ _ => rfl) (fun _ _ _ _ _ _ _ _ => rfl)
        joined
      refine SortedMap.alike_eq.1 (alike.imp fun _ _ sites => ?_)
      exact SortedMap.alike_eq.1 (sites.imp fun _ _ metadata => SortedMap.alike_eq.1 metadata)
    exact ⟨same .internal (by decide), same .external (by decide)⟩
  · intro agree own own'
    have same (relation : Relation) (joined : relation ≠ .resolved) :
        (b.append a).get relation == (a.append b).get relation := by
      have alike := agree.alike_append own own' joined
      refine SortedMap.alike_beq.1 (alike.imp fun _ _ sites => ?_)
      exact SortedMap.alike_beq.1 (sites.imp fun _ _ metadata => SortedMap.alike_beq.1 metadata)
    exact ⟨same .internal (by decide), same .external (by decide)⟩

theorem get?_of_valueAt_addCall {relation relation' : Relation} {pair pair' : CallPair}
    {site site' : Int64} {metadata : Metadata} {key : String} {v : Value}
    (held : valueAt ((addCall ∅ relation pair site metadata).sites? relation' pair') site' key =
      some v) : metadata.get? key = some v := by
  have sites := sites?_after ∅ ⟨relation, pair, .addCall site metadata⟩ relation' pair'
  rw [sites?_empty] at sites
  rw [show (addCall ∅ relation pair site metadata).sites? relation' pair' = _ from sites] at held
  split at held
  · rw [valueAt_act, Deed.value?] at held
    split at held
    · cases given : metadata.get? key with
      | none => simp [given, valueAt, metadataAt] at held
      | some w => simpa [given] using held
    · cases held
  · cases held

theorem append_joins_zeros :
    let call (metadata : Metadata) : CallGraph := addCall ∅ .external ⟨0, 100⟩ 5 metadata
    let kind : Metadata := SortedMap.empty.insert "type" (.text "virtual")
    let first := call (kind.insert "line" (.int 7))
    let zero := call (SortedMap.empty.insert "weight" (.number (.float 0.0)))
    let minusZero := call (SortedMap.empty.insert "weight" (.number (.float (-0.0))))
    (first.Agree Eq (call kind) ∧
      ((call kind).append first).external = (first.append (call kind)).external) ∧
    zero.Agree (fun v w => v == w) minusZero ∧ zero.Noted (fun v => v == v) ∧
      minusZero.Noted (fun v => v == v) ∧
      (minusZero.append zero).external == (zero.append minusZero).external := by
  intro call kind first zero minusZero
  have agree {R : Value → Value → Prop} {m n : Metadata}
      (same : ∀ key v w, m.get? key = some v → n.get? key = some w → R v w) :
      (call m).Agree R (call n) :=
    fun _ _ _ key v w _ held held' =>
      same key v w (get?_of_valueAt_addCall held) (get?_of_valueAt_addCall held')
  have noted {P : Value → Prop} {v : Value} (has : P v) :
      (call (SortedMap.empty.insert "weight" v)).Noted P :=
    noted_empty.addCall .external ⟨0, 100⟩ 5 (SortedMap.allValues_empty.insert "weight" has)
  -- the call sites have `type` in common, and `line` is noted by one graph only
  have same : first.Agree Eq (call kind) := by
    apply agree
    intro key v w held held'
    have only : key = "type" := by
      rw [SortedMap.get?_single, Option.ite_none_right_eq_some] at held'
      exact held'.1
    rw [SortedMap.get?_insert, if_neg (by rw [only]; decide)] at held
    exact Option.some.inj (held.symm.trans held')
  have zeros : zero.Agree (fun v w => v == w) minusZero := by
    apply agree
    intro key v w held held'
    rw [SortedMap.get?_single, Option.ite_none_right_eq_some, Option.some.injEq] at held held'
    rw [← held.2, ← held'.2]
    decide
  obtain ⟨_, _, _, _, equal, _⟩ := append_joins first (call kind) ∅
  obtain ⟨_, _, _, _, _, alike⟩ := append_joins zero minusZero ∅
  have own : zero.Noted (fun v => v == v) := noted (by decide)
  have own' : minusZero.Noted (fun v => v == v) := noted (by decide)
  exact ⟨⟨same, (equal same).2⟩, zeros, own, own', (alike zeros own own').2⟩

end CallGraph

end RevisionGraph
