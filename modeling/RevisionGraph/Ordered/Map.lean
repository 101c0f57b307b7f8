/-!
# Maps in key order

A `SortedMap` is the list of its entries in ascending key order, each key once, so two maps with the
same entries are equal and a walk over a map is a walk over a list. `toList_insert` and
`toList_erase` say what the two basic operations do to that list.
-/

namespace RevisionGraph

variable {κ : Type} {α β γ : Type} [Ord κ]

/-- The keys of `entries` increase strictly. -/
def Ascending (entries : List (κ × α)) : Prop :=
  entries.Pairwise fun a b => compare a.1 b.1 = .lt

/-- Puts `value` under `key` in an ascending list, in place of an entry with that key. -/
def insertEntry (key : κ) (value : α) : List (κ × α) → List (κ × α)
  | [] => [(key, value)]
  | head :: rest =>
    match compare key head.1 with
    | .lt => (key, value) :: head :: rest
    | .eq => (key, value) :: rest
    | .gt => head :: insertEntry key value rest

/-- The value under `key`. -/
def lookupEntry (key : κ) : List (κ × α) → Option α
  | [] => none
  | head :: rest =>
    match compare key head.1 with
    | .eq => some head.2
    | _ => lookupEntry key rest

/-- Removes what is under `key`. -/
def eraseEntry (key : κ) (entries : List (κ × α)) : List (κ × α) :=
  entries.filter fun entry => compare key entry.1 != .eq

theorem mem_of_mem_insertEntry {key : κ} {value : α} {entry : κ × α} {entries : List (κ × α)}
    (h : entry ∈ insertEntry key value entries) : entry = (key, value) ∨ entry ∈ entries := by
  induction entries with
  | nil => simpa [insertEntry] using h
  | cons head rest ih =>
    simp only [insertEntry] at h
    split at h
    · simpa using h
    · rcases List.mem_cons.1 h with h | h
      · exact .inl h
      · exact .inr (List.mem_cons_of_mem _ h)
    · rcases List.mem_cons.1 h with h | h
      · exact .inr (h ▸ List.mem_cons_self)
      · exact (ih h).imp_right (List.mem_cons_of_mem _)

theorem Ascending.insertEntry [Std.TransOrd κ] {entries : List (κ × α)} (h : Ascending entries)
    (key : κ) (value : α) : Ascending (insertEntry key value entries) := by
  induction entries with
  | nil => simp [Ascending, RevisionGraph.insertEntry]
  | cons head rest ih =>
    obtain ⟨above, tail⟩ := List.pairwise_cons.1 h
    simp only [RevisionGraph.insertEntry]
    split <;> rename_i order
    · refine List.pairwise_cons.2 ⟨fun entry mem => ?_, h⟩
      rcases List.mem_cons.1 mem with rfl | mem
      · exact order
      · exact Std.TransCmp.lt_trans order (above entry mem)
    · exact List.pairwise_cons.2
        ⟨fun entry mem => Std.TransCmp.lt_of_eq_of_lt order (above entry mem), tail⟩
    · refine List.pairwise_cons.2 ⟨fun entry mem => ?_, ih tail⟩
      rcases mem_of_mem_insertEntry mem with rfl | mem
      · exact Std.OrientedCmp.lt_of_gt order
      · exact above entry mem

/-- A finite map whose entries are kept in ascending key order. -/
structure SortedMap (κ : Type) (α : Type) [Ord κ] where
  toList : List (κ × α)
  ascending : Ascending toList

namespace SortedMap

@[ext] theorem ext {m n : SortedMap κ α} (h : m.toList = n.toList) : m = n := by
  cases m; cases n; cases h; rfl

def empty : SortedMap κ α := ⟨[], .nil⟩

instance : EmptyCollection (SortedMap κ α) := ⟨empty⟩

instance : Inhabited (SortedMap κ α) := ⟨empty⟩

instance [BEq κ] [BEq α] : BEq (SortedMap κ α) := ⟨fun m n => m.toList == n.toList⟩

instance [DecidableEq κ] [DecidableEq α] : DecidableEq (SortedMap κ α) := fun m n =>
  decidable_of_iff (m.toList = n.toList) ⟨ext, congrArg toList⟩

def size (m : SortedMap κ α) : Nat := m.toList.length

def isEmpty (m : SortedMap κ α) : Bool := m.toList.isEmpty

def keys (m : SortedMap κ α) : List κ := m.toList.map Prod.fst

def values (m : SortedMap κ α) : List α := m.toList.map Prod.snd

def get? (m : SortedMap κ α) (key : κ) : Option α := lookupEntry key m.toList

def contains (m : SortedMap κ α) (key : κ) : Bool := (m.get? key).isSome

def insert [Std.TransOrd κ] (m : SortedMap κ α) (key : κ) (value : α) : SortedMap κ α :=
  ⟨insertEntry key value m.toList, m.ascending.insertEntry key value⟩

def erase (m : SortedMap κ α) (key : κ) : SortedMap κ α :=
  ⟨eraseEntry key m.toList, m.ascending.filter _⟩

/-- Replaces what is held under `key`, where `none` stands for no entry. -/
def alter [Std.TransOrd κ] (m : SortedMap κ α) (key : κ) (f : Option α → Option α) :
    SortedMap κ α :=
  match f (m.get? key) with
  | some value => m.insert key value
  | none => m.erase key

def map (f : κ → α → β) (m : SortedMap κ α) : SortedMap κ β where
  toList := m.toList.map fun entry => (entry.1, f entry.1 entry.2)
  ascending := by
    have h := m.ascending
    simpa [Ascending, List.pairwise_map] using h

def filter (keep : κ → α → Bool) (m : SortedMap κ α) : SortedMap κ α :=
  ⟨m.toList.filter fun entry => keep entry.1 entry.2, m.ascending.filter _⟩

/-- Inserts the entries one after the other, so of two entries with one key the later stays. -/
def insertMany [Std.TransOrd κ] (m : SortedMap κ α) (entries : List (κ × α)) : SortedMap κ α :=
  entries.foldl (fun m entry => m.insert entry.1 entry.2) m

def ofList [Std.TransOrd κ] (entries : List (κ × α)) : SortedMap κ α := empty.insertMany entries

/-- All entries of both maps; a key of both keeps the value of `n`. -/
def union [Std.TransOrd κ] (m n : SortedMap κ α) : SortedMap κ α := m.insertMany n.toList

@[simp] theorem toList_empty : (∅ : SortedMap κ α).toList = [] := rfl

@[simp] theorem toList_insert [Std.TransOrd κ] (m : SortedMap κ α) (key : κ) (value : α) :
    (m.insert key value).toList = insertEntry key value m.toList := rfl

@[simp] theorem toList_erase (m : SortedMap κ α) (key : κ) :
    (m.erase key).toList = eraseEntry key m.toList := rfl

@[simp] theorem toList_map (f : κ → α → β) (m : SortedMap κ α) :
    (m.map f).toList = m.toList.map fun entry => (entry.1, f entry.1 entry.2) := rfl

@[simp] theorem insertMany_nil [Std.TransOrd κ] (m : SortedMap κ α) : m.insertMany [] = m := rfl

@[simp] theorem insertMany_cons [Std.TransOrd κ] (m : SortedMap κ α) (entry : κ × α)
    (entries : List (κ × α)) :
    m.insertMany (entry :: entries) = (m.insert entry.1 entry.2).insertMany entries := rfl

end SortedMap

end RevisionGraph
