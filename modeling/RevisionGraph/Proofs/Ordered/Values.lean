import RevisionGraph.Json.Sorted
import RevisionGraph.Proofs.Ordered.Distinct

/-!
# What all values of a map have

`SortedMap.AllValues` is kept by every operation that puts in only values that have the property
too.
-/

namespace RevisionGraph.SortedMap

variable {κ : Type} {α : Type} [Ord κ] {P : α → Prop} {m n : SortedMap κ α}

/-- Every value has the property. -/
def AllValues (P : α → Prop) (m : SortedMap κ α) : Prop := ∀ entry ∈ m.toList, P entry.2

instance [DecidablePred P] : Decidable (m.AllValues P) :=
  inferInstanceAs (Decidable (∀ entry ∈ m.toList, P entry.2))

theorem allValues_empty : (∅ : SortedMap κ α).AllValues P := fun _ mem => by cases mem

theorem AllValues.imp {Q : α → Prop} (all : m.AllValues P) (implies : ∀ a, P a → Q a) :
    m.AllValues Q :=
  fun entry mem => implies entry.2 (all entry mem)

theorem AllValues.erase (all : m.AllValues P) (key : κ) : (m.erase key).AllValues P :=
  fun entry mem => all entry (List.mem_filter.1 mem).1

section Inserting

variable [Std.TransOrd κ]

theorem AllValues.insert (all : m.AllValues P) (key : κ) {value : α} (added : P value) :
    (m.insert key value).AllValues P := by
  intro entry mem
  rcases mem_of_mem_insertEntry mem with rfl | mem
  · exact added
  · exact all entry mem

theorem AllValues.insertMany (all : m.AllValues P) {entries : List (κ × α)}
    (added : ∀ entry ∈ entries, P entry.2) : (m.insertMany entries).AllValues P := by
  intro entry mem
  rcases mem_of_mem_insertMany mem with mem | mem
  · exact all entry mem
  · exact added entry mem

theorem AllValues.union (all : m.AllValues P) (added : n.AllValues P) : (m.union n).AllValues P :=
  all.insertMany added

theorem allValues_ofList {entries : List (κ × α)} (each : ∀ entry ∈ entries, P entry.2) :
    (ofList entries).AllValues P :=
  allValues_empty.insertMany each

end Inserting

section Looking

variable [DecidableEq κ] [Std.LawfulEqOrd κ]

theorem allValues_iff : m.AllValues P ↔ ∀ key value, m.get? key = some value → P value := by
  simp only [AllValues, Prod.forall, mem_toList_iff]

/-- Entries that are put in under distinct keys are all kept. -/
theorem allValues_ofList_map {β : Type} [Std.TransOrd κ] {rows : List β} {entry : β → κ × α}
    (distinct : (rows.map fun row => (entry row).1).Nodup) :
    (ofList (rows.map entry)).AllValues P ↔ ∀ row ∈ rows, P (entry row).2 := by
  have keys : ((rows.map entry).map Prod.fst).Nodup := by
    rw [List.map_map]
    exact distinct
  simp only [AllValues, mem_toList_ofList keys, List.forall_mem_map]

end Looking

end RevisionGraph.SortedMap
