import Mathlib.Data.List.Nodup
import Mathlib.Data.List.Perm.Basic
import RevisionGraph.Ordered.Lookup

/-!
# Entries with distinct keys

Entries that are not in key order, but have no key twice, are held by the map that is made of them:
`SortedMap.get?_ofList` and `SortedMap.ofList_eq_iff`. Of entries with one key the last is held:
`SortedMap.get?_ofList_eq_some_iff`.
-/

namespace RevisionGraph

section LastOfEach

variable {κ α : Type} [DecidableEq κ]

/-- The entries whose keys do not come again. -/
def lastOfEach : List (κ × α) → List (κ × α)
  | [] => []
  | entry :: rest =>
    if entry.1 ∈ rest.map Prod.fst then lastOfEach rest else entry :: lastOfEach rest

theorem mem_keys_lastOfEach {entries : List (κ × α)} {key : κ} :
    key ∈ (lastOfEach entries).map Prod.fst ↔ key ∈ entries.map Prod.fst := by
  induction entries with
  | nil => exact Iff.rfl
  | cons entry rest ih =>
    rw [lastOfEach]
    split <;> rename_i again
    · rw [ih, List.map_cons, List.mem_cons, or_iff_right_of_imp]
      rintro rfl
      exact again
    · rw [List.map_cons, List.map_cons, List.mem_cons, List.mem_cons, ih]

theorem nodup_keys_lastOfEach (entries : List (κ × α)) :
    ((lastOfEach entries).map Prod.fst).Nodup := by
  induction entries with
  | nil => exact List.nodup_nil
  | cons entry rest ih =>
    rw [lastOfEach]
    split <;> rename_i again
    · exact ih
    · exact List.nodup_cons.2 ⟨fun mem => again (mem_keys_lastOfEach.1 mem), ih⟩

theorem lastOfEach_of_nodup {entries : List (κ × α)} (distinct : (entries.map Prod.fst).Nodup) :
    lastOfEach entries = entries := by
  induction entries with
  | nil => rfl
  | cons entry rest ih =>
    obtain ⟨absent, others⟩ := List.nodup_cons.1 distinct
    rw [lastOfEach, if_neg absent, ih others]

end LastOfEach

variable {κ : Type} {α : Type} [Ord κ]

theorem Ascending.nodup_keys [Std.ReflOrd κ] {entries : List (κ × α)} (h : Ascending entries) :
    (entries.map Prod.fst).Nodup := by
  apply List.pairwise_map.2
  apply h.imp
  intro a b order same
  rw [same, Std.ReflOrd.compare_self] at order
  cases order

variable [DecidableEq κ] [Std.LawfulEqOrd κ]

theorem lookupEntry_eq_none_iff {key : κ} {entries : List (κ × α)} :
    lookupEntry key entries = none ↔ key ∉ entries.map Prod.fst := by
  induction entries with
  | nil => simp [lookupEntry]
  | cons head rest ih =>
    rw [lookupEntry_cons, List.map_cons, List.mem_cons, not_or, ← ih]
    by_cases same : key = head.1
    · simp [same]
    · simp [same]

theorem lookupEntry_eq_some_iff {entries : List (κ × α)} (distinct : (entries.map Prod.fst).Nodup)
    {key : κ} {value : α} : lookupEntry key entries = some value ↔ (key, value) ∈ entries := by
  induction entries with
  | nil => simp [lookupEntry]
  | cons head rest ih =>
    obtain ⟨absent, others⟩ := List.nodup_cons.1 distinct
    rw [lookupEntry_cons, List.mem_cons]
    by_cases same : key = head.1
    · subst same
      have notLater : (head.1, value) ∉ rest := fun mem => absent (List.mem_map.2 ⟨_, mem, rfl⟩)
      rw [if_pos rfl, Option.some.injEq, or_iff_left notLater]
      exact ⟨fun eq => eq ▸ rfl, fun eq => congrArg Prod.snd eq.symm⟩
    · have notFirst : (key, value) ≠ head := fun eq => same (congrArg Prod.fst eq)
      rw [if_neg same, ih others, or_iff_right notFirst]

namespace SortedMap

omit [DecidableEq κ] in
theorem nodup_keys (m : SortedMap κ α) : m.keys.Nodup := m.ascending.nodup_keys

theorem get?_eq_none_iff {m : SortedMap κ α} {key : κ} : m.get? key = none ↔ key ∉ m.keys :=
  lookupEntry_eq_none_iff

variable [Std.TransOrd κ]

theorem get?_insertMany_of_nodup (m : SortedMap κ α) {entries : List (κ × α)}
    (distinct : (entries.map Prod.fst).Nodup) (key : κ) :
    (m.insertMany entries).get? key = (lookupEntry key entries).or (m.get? key) := by
  induction entries generalizing m with
  | nil => rfl
  | cons head rest ih =>
    obtain ⟨absent, others⟩ := List.nodup_cons.1 distinct
    rw [insertMany_cons, ih _ others, get?_insert, lookupEntry_cons]
    by_cases same : key = head.1
    · subst same
      rw [lookupEntry_eq_none_iff.2 absent]
      simp
    · simp [same]

theorem get?_ofList {entries : List (κ × α)} (distinct : (entries.map Prod.fst).Nodup) (key : κ) :
    (ofList entries).get? key = lookupEntry key entries := by
  rw [ofList, get?_insertMany_of_nodup _ distinct]
  exact Option.or_none

/-- The map of entries with distinct keys holds just these entries. -/
theorem mem_toList_ofList {entries : List (κ × α)} (distinct : (entries.map Prod.fst).Nodup)
    {entry : κ × α} : entry ∈ (ofList entries).toList ↔ entry ∈ entries := by
  rw [mem_toList_iff, get?_ofList distinct, lookupEntry_eq_some_iff distinct]

theorem perm_toList_ofList {entries : List (κ × α)} (distinct : (entries.map Prod.fst).Nodup) :
    (ofList entries).toList.Perm entries := by
  have listed : (ofList entries).toList.Nodup := (ofList entries).nodup_keys.of_map
  rw [List.perm_ext_iff_of_nodup listed (distinct.of_map _)]
  intro entry
  exact mem_toList_ofList distinct

/-- The map of rows that are written as entries lists the rows in another order. -/
theorem exists_rows_of_ofList {γ : Type} {rows : List γ} {entry : γ → κ × α}
    (distinct : (rows.map fun row => (entry row).1).Nodup) :
    ∃ sorted : List γ, sorted.Perm rows ∧ (ofList (rows.map entry)).toList = sorted.map entry := by
  have keys : ((rows.map entry).map Prod.fst).Nodup := by
    rw [List.map_map]
    exact distinct
  have comp :=
    congrFun (congrFun (List.eq_map_comp_perm entry) (ofList (rows.map entry)).toList) rows
  obtain ⟨sorted, listed, perm⟩ := (iff_of_eq comp).2 (perm_toList_ofList keys)
  exact ⟨sorted, perm, listed⟩

omit [DecidableEq κ] [Std.LawfulEqOrd κ] in
theorem insertMany_append (m : SortedMap κ α) (first second : List (κ × α)) :
    m.insertMany (first ++ second) = (m.insertMany first).insertMany second := List.foldl_append

theorem mem_or_get?_of_insertMany {m : SortedMap κ α} {entries : List (κ × α)} {key : κ} {value : α}
    (held : (m.insertMany entries).get? key = some value) :
    (key, value) ∈ entries ∨ m.get? key = some value := by
  induction entries generalizing m with
  | nil => exact .inr held
  | cons head rest ih =>
    rcases ih held with mem | held
    · exact .inl (List.mem_cons_of_mem _ mem)
    · rw [get?_insert] at held
      split at held <;> rename_i here
      · cases held
        exact .inl (here ▸ List.mem_cons_self)
      · exact .inr held

/-- Whatever a map of entries holds is one of the entries. -/
theorem mem_of_get?_ofList {entries : List (κ × α)} {key : κ} {value : α}
    (held : (ofList entries).get? key = some value) : (key, value) ∈ entries := by
  rcases mem_or_get?_of_insertMany held with mem | held
  · exact mem
  · cases held

/-- What is put in later counts, so a map is only asked for what is not put in. -/
theorem get?_insertMany_congr {m n : SortedMap κ α} {entries : List (κ × α)} {key : κ}
    (same : key ∈ entries.map Prod.fst ∨ m.get? key = n.get? key) :
    (m.insertMany entries).get? key = (n.insertMany entries).get? key := by
  induction entries generalizing m n with
  | nil => exact same.resolve_left (by simp)
  | cons head rest ih =>
    apply ih
    rw [get?_insert, get?_insert]
    by_cases here : key = head.1
    · simp [here]
    · simpa [here] using same

/-- What is held after entries are put in is one of them if one of them has the key. -/
theorem get?_insertMany_cases {m : SortedMap κ α} {entries : List (κ × α)} {key : κ} {value : α}
    (held : (m.insertMany entries).get? key = some value) :
    (key, value) ∈ entries ∨ key ∉ entries.map Prod.fst ∧ m.get? key = some value := by
  by_cases given : key ∈ entries.map Prod.fst
  · rw [get?_insertMany_congr (n := empty) (.inl given)] at held
    exact .inl (mem_of_get?_ofList held)
  · exact (mem_or_get?_of_insertMany held).imp_right fun held => ⟨given, held⟩

theorem map_insertMany {β : Type} (f : κ → α → β) (m : SortedMap κ α) (entries : List (κ × α)) :
    (m.insertMany entries).map f =
      (m.map f).insertMany (entries.map fun entry => (entry.1, f entry.1 entry.2)) := by
  induction entries generalizing m with
  | nil => rfl
  | cons entry entries ih => rw [insertMany_cons, ih, map_insert, List.map_cons, insertMany_cons]

theorem insertMany_lastOfEach (m : SortedMap κ α) (entries : List (κ × α)) :
    m.insertMany (lastOfEach entries) = m.insertMany entries := by
  induction entries generalizing m with
  | nil => rfl
  | cons entry rest ih =>
    rw [lastOfEach]
    split <;> rename_i again
    · rw [ih, insertMany_cons]
      apply ext_get?
      intro key
      apply get?_insertMany_congr
      rw [get?_insert]
      by_cases here : key = entry.1
      · exact .inl (here ▸ again)
      · exact .inr (if_neg here).symm
    · rw [insertMany_cons, ih, insertMany_cons]

theorem ofList_lastOfEach (entries : List (κ × α)) : ofList (lastOfEach entries) = ofList entries :=
  insertMany_lastOfEach empty entries

/-- What is put in counts before what is held already. -/
theorem get?_insertMany_eq_or (m : SortedMap κ α) (entries : List (κ × α)) (key : κ) :
    (m.insertMany entries).get? key = ((ofList entries).get? key).or (m.get? key) := by
  induction entries generalizing m with
  | nil => rfl
  | cons head rest ih =>
    have made : ofList (head :: rest) = (empty.insert head.1 head.2).insertMany rest := rfl
    rw [insertMany_cons, made, ih, ih, Option.or_assoc, get?_insert, get?_single]
    congr 1
    by_cases here : key = head.1 <;> simp [here]

/-- Of the entries under one key the last is held. -/
theorem get?_ofList_eq_some_iff {entries : List (κ × α)} {key : κ} {value : α} :
    (ofList entries).get? key = some value ↔ (key, value) ∈ lastOfEach entries := by
  rw [← ofList_lastOfEach, get?_ofList (nodup_keys_lastOfEach entries),
    lookupEntry_eq_some_iff (nodup_keys_lastOfEach entries)]

/-- A map of entries has as many entries as it was made of if no key comes twice. -/
theorem size_ofList_eq_iff {entries : List (κ × α)} :
    (ofList entries).size = entries.length ↔ (entries.map Prod.fst).Nodup := by
  constructor
  · intro all
    have held : (ofList entries).keys ⊆ entries.map Prod.fst := by
      intro key mem
      obtain ⟨value, held⟩ := contains_iff.1 (mem_keys_iff.1 mem)
      exact List.mem_map.2 ⟨_, mem_of_get?_ofList held, rfl⟩
    have within := List.subperm_of_subset (ofList entries).nodup_keys held
    have perm : (ofList entries).keys.Perm (entries.map Prod.fst) := by
      apply within.perm_of_length_le
      rw [List.length_map, ← all, keys, List.length_map]
      exact Nat.le_refl _
    exact perm.nodup_iff.1 (ofList entries).nodup_keys
  · intro distinct
    exact (perm_toList_ofList distinct).length_eq

theorem contains_insertMany (m : SortedMap κ α) (entries : List (κ × α)) (key : κ) :
    (m.insertMany entries).contains key ↔ m.contains key ∨ key ∈ entries.map Prod.fst := by
  induction entries generalizing m with
  | nil => simp
  | cons head rest ih =>
    rw [insertMany_cons, ih, List.map_cons, List.mem_cons, ← or_assoc]
    apply or_congr_left
    unfold contains
    rw [get?_insert]
    by_cases here : key = head.1 <;> simp [here]

theorem contains_ofList {entries : List (κ × α)} {key : κ} :
    (ofList entries).contains key ↔ key ∈ entries.map Prod.fst := by
  have absent : ¬(empty : SortedMap κ α).contains key := Bool.false_ne_true
  exact (contains_insertMany empty entries key).trans (or_iff_right absent)

/-- Of several lists that are put in one after the other the last that has the key counts. -/
theorem get?_ofList_flatMap_eq_some_iff {ι : Type} {R : ι → ι → Prop}
    (asymm : ∀ a b, R a b → ¬ R b a) {items : List ι} (ordered : items.Pairwise R)
    (rows : ι → List (κ × α)) {key : κ} {value : α} :
    (ofList (items.flatMap rows)).get? key = some value ↔
      ∃ item ∈ items, (ofList (rows item)).get? key = some value ∧
        ∀ other ∈ items, key ∈ (rows other).map Prod.fst → other = item ∨ R other item := by
  induction items with
  | nil =>
    have absent : (ofList ([] : List (κ × α))).get? key = none := rfl
    simp [absent]
  | cons head rest ih =>
    obtain ⟨above, ordered⟩ := List.pairwise_cons.1 ordered
    have later : (ofList (rest.flatMap rows)).get? key = none ↔
        ∀ item ∈ rest, key ∉ (rows item).map Prod.fst := by
      rw [← Option.not_isSome_iff_eq_none]
      show ¬ (ofList (rest.flatMap rows)).contains key ↔ _
      rw [contains_ofList, List.map_flatMap, List.mem_flatMap]
      simp
    have split : (ofList ((head :: rest).flatMap rows)).get? key =
        ((ofList (rest.flatMap rows)).get? key).or ((ofList (rows head)).get? key) := by
      rw [List.flatMap_cons, ofList, insertMany_append, get?_insertMany_eq_or]
      rfl
    rw [split, Option.or_eq_some_iff, later, ih ordered]
    constructor
    · rintro (⟨item, mem, given, last⟩ | ⟨absent, given⟩)
      · refine ⟨item, List.mem_cons_of_mem _ mem, given, fun other mem' has => ?_⟩
        rcases List.mem_cons.1 mem' with rfl | mem'
        · exact .inr (above item mem)
        · exact last other mem' has
      · refine ⟨head, List.mem_cons_self, given, fun other mem has => ?_⟩
        rcases List.mem_cons.1 mem with rfl | mem
        · exact .inl rfl
        · exact absurd has (absent other mem)
    · rintro ⟨item, mem, given, last⟩
      rcases List.mem_cons.1 mem with rfl | mem
      · refine .inr ⟨fun other later has => ?_, given⟩
        have order := above other later
        rcases last other (List.mem_cons_of_mem _ later) has with rfl | back
        · exact asymm _ _ order order
        · exact asymm _ _ order back
      · exact .inl ⟨item, mem, given, fun other mem' => last other (List.mem_cons_of_mem _ mem')⟩

theorem ofList_eq_iff {entries : List (κ × α)} (distinct : (entries.map Prod.fst).Nodup)
    {m : SortedMap κ α} : ofList entries = m ↔ ∀ entry, entry ∈ entries ↔ entry ∈ m.toList := by
  constructor
  · rintro rfl entry
    exact (mem_toList_ofList distinct).symm
  · intro same
    apply ext_get?
    intro key
    apply Option.ext
    intro value
    rw [← mem_toList_iff, ← mem_toList_iff, mem_toList_ofList distinct, same]

theorem ofList_toList (m : SortedMap κ α) : ofList m.toList = m :=
  (ofList_eq_iff m.nodup_keys).2 fun _ => Iff.rfl

end SortedMap

end RevisionGraph
