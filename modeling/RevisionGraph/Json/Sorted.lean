import RevisionGraph.Json.Tree
import RevisionGraph.Ordered.Lookup

/-!
# Sorted values

`Tree.isSorted_of_value?` says that the value of a tree has its members in key order at every level,
and `Value.sorted_of_isSorted` that sorting leaves such a value alone.
-/

namespace RevisionGraph

theorem SortedMap.mem_of_mem_insertMany {κ α : Type} [Ord κ] [Std.TransOrd κ] {m : SortedMap κ α}
    {entries : List (κ × α)} {entry : κ × α} (mem : entry ∈ (m.insertMany entries).toList) :
    entry ∈ m.toList ∨ entry ∈ entries := by
  induction entries generalizing m with
  | nil => exact .inl mem
  | cons head rest ih =>
    rw [insertMany_cons] at mem
    rcases ih mem with mem | mem
    · rcases mem_of_mem_insertEntry mem with rfl | mem
      · exact .inr List.mem_cons_self
      · exact .inl mem
    · exact .inr (List.mem_cons_of_mem _ mem)

namespace Json

namespace Value

theorem AllSorted.of_forall {values : List Value} (h : ∀ value ∈ values, IsSorted value) :
    AllSorted values := by
  induction values with
  | nil => exact .nil
  | cons head rest ih =>
    have others := ih fun value mem => h value (List.mem_cons_of_mem _ mem)
    exact .cons (h head List.mem_cons_self) others

theorem AllSorted.forall_mem {values : List Value} (h : AllSorted values) :
    ∀ value ∈ values, IsSorted value := by
  induction values with
  | nil => simp
  | cons head rest ih =>
    cases h with
    | cons first others =>
      intro value mem
      rcases List.mem_cons.1 mem with rfl | mem
      · exact first
      · exact ih others value mem

theorem isSorted_object' {members : List (String × Value)}
    (h : AllSorted (members.map Prod.snd)) : IsSorted (object' members) := by
  refine .object (SortedMap.ofList members).ascending (.of_forall ?_)
  intro value mem
  obtain ⟨entry, held, rfl⟩ := List.mem_map.1 mem
  rcases SortedMap.mem_of_mem_insertMany held with held | held
  · cases held
  · exact h.forall_mem _ (List.mem_map_of_mem held)

mutual

theorem sorted_of_isSorted {value : Value} (h : value.IsSorted) : value.sorted = value := by
  cases h with
  | null | bool | number | text => rfl
  | array items => rw [sorted, sortedItems_of_allSorted items]
  | object ascending members =>
    rw [sorted, sortedMembers_of_allSorted members, object', SortedMap.toList_ofList ascending]

theorem sortedItems_of_allSorted {items : List Value} (h : AllSorted items) :
    sortedItems items = items := by
  cases h with
  | nil => rfl
  | cons item rest =>
    rw [sortedItems, sorted_of_isSorted item, sortedItems_of_allSorted rest]

theorem sortedMembers_of_allSorted {members : List (String × Value)}
    (h : AllSorted (members.map Prod.snd)) : sortedMembers members = members := by
  match members with
  | [] => rfl
  | (key, value) :: rest =>
    cases h with
    | cons member others =>
      rw [sortedMembers, sorted_of_isSorted member, sortedMembers_of_allSorted others]

end

end Value

namespace Tree

mutual

theorem isSorted_of_value? {depth : Nat} {tree : Tree} {value : Value}
    (h : value? depth tree = some value) : value.IsSorted := by
  match tree, depth with
  | .null, _ | .bool _, _ | .number _, _ | .text _, _ =>
    simp only [value?, Option.some.injEq] at h
    subst h
    constructor
  | .valueless, _ => simp [value?] at h
  | .array items, 0 => simp [value?] at h
  | .array items, depth + 1 =>
    simp only [value?, Option.map_eq_some_iff] at h
    obtain ⟨values, read, rfl⟩ := h
    exact .array (allSorted_of_itemValues? read)
  | .object members, 0 => simp [value?] at h
  | .object members, depth + 1 =>
    simp only [value?, Option.map_eq_some_iff] at h
    obtain ⟨values, read, rfl⟩ := h
    exact Value.isSorted_object' (allSorted_of_memberValues? read)

theorem allSorted_of_itemValues? {depth : Nat} {items : List Tree} {values : List Value}
    (h : itemValues? depth items = some values) : Value.AllSorted values := by
  match items with
  | [] =>
    cases h
    exact .nil
  | item :: rest =>
    simp only [itemValues?, Option.bind_eq_bind, Option.bind_eq_some_iff, Option.pure_def,
      Option.some.injEq] at h
    obtain ⟨first, read, others, readOthers, rfl⟩ := h
    exact .cons (isSorted_of_value? read) (allSorted_of_itemValues? readOthers)

theorem allSorted_of_memberValues? {depth : Nat} {members : List (Option String × Tree)}
    {values : List (String × Value)} (h : memberValues? depth members = some values) :
    Value.AllSorted (values.map Prod.snd) := by
  match members with
  | [] =>
    cases h
    exact .nil
  | (key, tree) :: rest =>
    simp only [memberValues?, Option.bind_eq_bind, Option.bind_eq_some_iff, Option.pure_def,
      Option.some.injEq] at h
    obtain ⟨_, _, first, read, others, readOthers, rfl⟩ := h
    exact .cons (isSorted_of_value? read) (allSorted_of_memberValues? readOthers)

end

end Tree

end Json

end RevisionGraph
