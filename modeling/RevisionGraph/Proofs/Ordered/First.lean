import RevisionGraph.Ordered.Lookup

/-!
# The first entry of an ordered walk

A walk in order meets the least entry first: `head?_eq_some_iff_of_pairwise`.
-/

namespace RevisionGraph

theorem head?_eq_some_iff_of_pairwise {α : Type} {R : α → α → Prop}
    (asymm : ∀ a b, R a b → ¬ R b a) {entries : List α} (ordered : entries.Pairwise R) {a : α} :
    entries.head? = some a ↔ a ∈ entries ∧ ∀ b ∈ entries, b = a ∨ R a b := by
  cases entries with
  | nil => simp
  | cons head rest =>
    have above := (List.pairwise_cons.1 ordered).1
    rw [List.head?_cons, Option.some.injEq]
    constructor
    · rintro rfl
      refine ⟨List.mem_cons_self, fun b mem => ?_⟩
      rcases List.mem_cons.1 mem with rfl | mem
      · exact .inl rfl
      · exact .inr (above b mem)
    · rintro ⟨mem, least⟩
      rcases List.mem_cons.1 mem with rfl | mem
      · rfl
      · rcases least head List.mem_cons_self with same | order
        · exact same
        · exact absurd order (asymm _ _ (above a mem))

theorem SortedMap.pairwise_keys {κ α : Type} [Ord κ] (m : SortedMap κ α) :
    m.keys.Pairwise fun a b => compare a b = .lt :=
  List.pairwise_map.2 m.ascending

end RevisionGraph
