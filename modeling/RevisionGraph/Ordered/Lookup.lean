import RevisionGraph.Ordered.Map

/-!
# What a map holds under a key

`get?_insert`, `get?_erase` and `get?_union` say what the operations do to what is held under each
key, and `ext_get?` that this determines a map.
-/

namespace RevisionGraph

variable {κ : Type} {α β : Type} [Ord κ]

/-! ### Lists of entries -/

/-- Ascending entries hold nothing more under the key of the first. -/
theorem Ascending.lookupEntry_tail {head : κ × α} {rest : List (κ × α)}
    (h : Ascending (head :: rest)) : lookupEntry head.1 rest = none := by
  have above := (List.pairwise_cons.1 h).1
  clear h
  induction rest with
  | nil => rfl
  | cons next rest ih =>
    rw [lookupEntry, above next List.mem_cons_self]
    exact ih fun entry mem => above entry (List.mem_cons_of_mem _ mem)

variable [DecidableEq κ] [Std.LawfulEqOrd κ]

theorem lookupEntry_cons (key : κ) (head : κ × α) (rest : List (κ × α)) :
    lookupEntry key (head :: rest) =
      if key = head.1 then some head.2 else lookupEntry key rest := by
  rw [lookupEntry]
  split <;> rename_i order
  · rw [if_pos (Std.LawfulEqOrd.eq_of_compare order)]
  · rw [if_neg]
    intro same
    exact order (same ▸ Std.ReflOrd.compare_self)

theorem lookupEntry_insertEntry (other key : κ) (value : α)
    (entries : List (κ × α)) :
    lookupEntry other (insertEntry key value entries) =
      if other = key then some value else lookupEntry other entries := by
  induction entries with
  | nil => rw [insertEntry, lookupEntry_cons]
  | cons head rest ih =>
    rw [insertEntry]
    split <;> rename_i order
    · rw [lookupEntry_cons]
    · have same : key = head.1 := Std.LawfulEqOrd.eq_of_compare order
      rw [lookupEntry_cons, lookupEntry_cons, same]
      split <;> rfl
    · have apart : key ≠ head.1 := by
        intro same
        simp [same] at order
      rw [lookupEntry_cons, lookupEntry_cons, ih]
      by_cases h : other = key
      · simp [h, apart]
      · simp [h]

theorem lookupEntry_eraseEntry (other key : κ) (entries : List (κ × α)) :
    lookupEntry other (eraseEntry key entries) =
      if other = key then none else lookupEntry other entries := by
  rw [eraseEntry]
  induction entries with
  | nil => simp [lookupEntry]
  | cons head rest ih =>
    by_cases same : key = head.1
    · rw [List.filter_cons_of_neg (by simp [same]), ih, lookupEntry_cons, same]
      split <;> rfl
    · rw [List.filter_cons_of_pos (by simpa using same), lookupEntry_cons, lookupEntry_cons, ih]
      by_cases h : other = key
      · simp [h, same]
      · simp [h]

theorem Ascending.lookupEntry_eq_some_iff {entries : List (κ × α)}
    (h : Ascending entries) {key : κ} {value : α} :
    lookupEntry key entries = some value ↔ (key, value) ∈ entries := by
  induction entries with
  | nil => simp [lookupEntry]
  | cons head rest ih =>
    have only := h.lookupEntry_tail
    have tail := ih (List.pairwise_cons.1 h).2
    obtain ⟨first, held⟩ := head
    rw [lookupEntry_cons, List.mem_cons, ← tail, Prod.mk.injEq]
    by_cases same : key = first
    · subst same
      simp [only, eq_comm]
    · simp [same]

/-! ### Maps -/

namespace SortedMap

theorem get?_insert [Std.TransOrd κ] (m : SortedMap κ α) (key : κ) (value : α) (other : κ) :
    (m.insert key value).get? other = if other = key then some value else m.get? other :=
  lookupEntry_insertEntry other key value m.toList

theorem get?_single [Std.TransOrd κ] (key : κ) (value : α) (other : κ) :
    (empty.insert key value).get? other = if other = key then some value else none :=
  get?_insert empty key value other

theorem get?_erase (m : SortedMap κ α) (key other : κ) :
    (m.erase key).get? other = if other = key then none else m.get? other :=
  lookupEntry_eraseEntry other key m.toList

theorem get?_map (f : κ → α → β) (m : SortedMap κ α) (key : κ) :
    (m.map f).get? key = (m.get? key).map (f key) := by
  rw [get?, get?, toList_map]
  induction m.toList with
  | nil => rfl
  | cons head rest ih =>
    rw [List.map_cons, lookupEntry_cons, lookupEntry_cons, ih]
    by_cases h : key = head.1
    · simp [h]
    · simp [h]

theorem contains_map (f : κ → α → β) (m : SortedMap κ α) (key : κ) :
    (m.map f).contains key = m.contains key := by
  rw [contains, get?_map, Option.isSome_map]
  rfl

theorem mem_toList_iff {m : SortedMap κ α} {key : κ} {value : α} :
    (key, value) ∈ m.toList ↔ m.get? key = some value :=
  m.ascending.lookupEntry_eq_some_iff.symm

omit [DecidableEq κ] [Std.LawfulEqOrd κ] in
theorem contains_iff {m : SortedMap κ α} {key : κ} :
    m.contains key ↔ ∃ value, m.get? key = some value :=
  Option.isSome_iff_exists

theorem mem_keys_iff {m : SortedMap κ α} {key : κ} : key ∈ m.keys ↔ m.contains key := by
  simp [keys, contains_iff, ← mem_toList_iff]

/-- A map is determined by what it holds under each key. -/
theorem ext_get? [Std.TransOrd κ] {m n : SortedMap κ α}
    (h : ∀ key, m.get? key = n.get? key) : m = n := by
  have irreflexive {a b : κ × α} (order : compare a.1 b.1 = .lt) : a ≠ b := by
    rintro rfl
    simp at order
  have perm : m.toList.Perm n.toList := by
    rw [List.perm_ext_iff_of_nodup (m.ascending.imp irreflexive) (n.ascending.imp irreflexive)]
    rintro ⟨key, value⟩
    rw [mem_toList_iff, mem_toList_iff, h]
  refine ext (perm.eq_of_pairwise ?_ m.ascending n.ascending)
  intro a b _ _ ab ba
  exact absurd (Std.OrientedCmp.gt_of_lt ab) (by simp [ba])

theorem map_insert [Std.TransOrd κ] (f : κ → α → β) (m : SortedMap κ α) (key : κ) (value : α) :
    (m.insert key value).map f = (m.map f).insert key (f key value) := by
  apply ext_get?
  intro other
  rw [get?_map, get?_insert, get?_insert, get?_map]
  by_cases here : other = key
  · rw [if_pos here, if_pos here, here]
    rfl
  · rw [if_neg here, if_neg here]

theorem map_erase [Std.TransOrd κ] (f : κ → α → β) (m : SortedMap κ α) (key : κ) :
    (m.erase key).map f = (m.map f).erase key := by
  apply ext_get?
  intro other
  rw [get?_map, get?_erase, get?_erase, get?_map]
  by_cases here : other = key
  · rw [if_pos here, if_pos here]
    rfl
  · rw [if_neg here, if_neg here]

omit [DecidableEq κ] [Std.LawfulEqOrd κ] in
theorem values_map (f : κ → α → β) (m : SortedMap κ α) :
    (m.map f).values = m.toList.map fun entry => f entry.1 entry.2 := by
  rw [values, toList_map, List.map_map]
  rfl

/-- Each entry is put in together with what is held under its key. -/
theorem get?_foldl_combine [Std.TransOrd κ] (combine : Option α → β → α) (m : SortedMap κ α)
    {entries : List (κ × β)} (h : Ascending entries) (key : κ) :
    (entries.foldl (fun m entry => m.insert entry.1 (combine (m.get? entry.1) entry.2)) m).get? key =
      ((lookupEntry key entries).map (combine (m.get? key))).or (m.get? key) := by
  induction entries generalizing m with
  | nil => rfl
  | cons head rest ih =>
    have only := h.lookupEntry_tail
    rw [List.foldl_cons, ih _ (List.pairwise_cons.1 h).2, get?_insert, lookupEntry_cons]
    by_cases same : key = head.1
    · simp [same, only]
    · simp [same]

theorem get?_insertMany [Std.TransOrd κ] (m : SortedMap κ α) {entries : List (κ × α)}
    (h : Ascending entries) (key : κ) :
    (m.insertMany entries).get? key = (lookupEntry key entries).or (m.get? key) := by
  have put := get?_foldl_combine (fun _ value => value) m h key
  rwa [Option.map_id'] at put

/-- A key of both maps keeps the value of the second. -/
theorem get?_union [Std.TransOrd κ] (m n : SortedMap κ α) (key : κ) :
    (m.union n).get? key = (n.get? key).or (m.get? key) :=
  m.get?_insertMany n.ascending key

theorem contains_union [Std.TransOrd κ] (m n : SortedMap κ α) (key : κ) :
    (m.union n).contains key = (m.contains key || n.contains key) := by
  simp only [contains, get?_union]
  cases n.get? key <;> simp

theorem union_right_comm [Std.TransOrd κ] {m n o : SortedMap κ α}
    (apart : ∀ key, n.contains key → o.contains key = false) :
    (m.union n).union o = (m.union o).union n := by
  apply ext_get?
  intro key
  simp only [get?_union]
  cases given : n.get? key with
  | none => simp
  | some value =>
    have absent := apart key (Option.isSome_of_eq_some given)
    rw [Option.isSome_eq_false_iff.1 absent |> Option.isNone_iff_eq_none.1]
    simp

theorem union_assoc [Std.TransOrd κ] (m n o : SortedMap κ α) :
    (m.union n).union o = m.union (n.union o) := by
  apply ext_get?
  intro key
  simp only [get?_union]
  cases o.get? key <;> rfl

theorem empty_union [Std.TransOrd κ] (m : SortedMap κ α) : (∅ : SortedMap κ α).union m = m := by
  apply ext_get?
  intro key
  exact (get?_union ∅ m key).trans Option.or_none

theorem union_self [Std.TransOrd κ] (m : SortedMap κ α) : m.union m = m := by
  apply ext_get?
  intro key
  rw [get?_union]
  cases m.get? key <;> rfl

/-- Entries in ascending order are the list of the map that is made of them. -/
theorem toList_ofList [Std.TransOrd κ] {entries : List (κ × α)} (h : Ascending entries) :
    (ofList entries).toList = entries := by
  have same : ofList entries = ⟨entries, h⟩ := ext_get? fun key => by
    rw [ofList, get?_insertMany _ h]
    exact Option.or_none
  rw [same]

end SortedMap

end RevisionGraph
