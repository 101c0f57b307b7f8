import RevisionGraph.Json.Decoder
import RevisionGraph.Proofs.Json.Trees
import RevisionGraph.Proofs.Ordered.Values

/-!
# Decoders of written values

A decoder that restores what a value was written from does so from a list, a map or a record of such
values, each time as far as the value is not nested too deep: `Decoder.Restores`.
-/

namespace RevisionGraph.Json

/-- The value has its members in key order and is nested at most `depth` deep. -/
def Value.Fits (depth : Nat) (v : Value) : Prop := v.IsSorted ∧ v.nesting ≤ depth

namespace Decoder

variable {α : Type}

/-- The decoder reads the value as `a`, unless the value is nested too deep. -/
def Restores (decode : Decoder α) (v : Value) (a : α) : Prop :=
  ∀ depth, decode depth v.tree = if v.nesting ≤ depth then some a else none

theorem restores_text (s : String) : Decoder.text.Restores (.text s) s := fun _ => rfl

theorem restores_bool (b : Bool) : Decoder.bool.Restores (.bool b) b := fun _ => rfl

theorem restores_natural (n : UInt64) : Decoder.natural.Restores (.natural n) n := by
  intro depth
  exact Whole.toUInt64?_ofUInt64 n

theorem restores_int (i : Int64) : Decoder.int64.Restores (.int i) i := by
  intro depth
  exact Whole.toInt64?_ofInt64 i

theorem restores_value {v : Value} (sorted : v.IsSorted) : Decoder.value.Restores v v :=
  Value.value?_tree sorted

theorem restores_metadata {m : Metadata} (sorted : m.AllValues Value.IsSorted) :
    Decoder.metadata.Restores (.object m.toList) m := by
  have all : Value.AllSorted (m.toList.map Prod.snd) := by
    apply Value.AllSorted.of_forall
    intro value mem
    obtain ⟨entry, held, rfl⟩ := List.mem_map.1 mem
    exact sorted entry held
  intro depth
  cases depth with
  | zero => rfl
  | succ depth =>
    simp only [Value.tree, Decoder.metadata, Value.memberValues?_memberTrees all, Value.nesting,
      Nat.add_le_add_iff_right]
    split
    · exact congrArg some (SortedMap.ext (SortedMap.toList_ofList m.ascending))
    · rfl

theorem mapM_itemTrees {decode : Decoder α} {write : α → Value} {as : List α}
    (each : ∀ a ∈ as, decode.Restores (write a) a) (depth : Nat) :
    (Value.itemTrees (as.map write)).mapM (decode depth) =
      if Value.nestingItems (as.map write) ≤ depth then some as else none := by
  induction as with
  | nil => simp [Value.itemTrees, Value.nestingItems]
  | cons a as ih =>
    obtain ⟨first, others⟩ := List.forall_mem_cons.1 each
    rw [List.map_cons, Value.itemTrees, List.mapM_cons, first, ih others]
    simp only [Value.nestingItems, Nat.max_le, Option.bind_eq_bind, Value.ite_some_bind, ite_and]
    rfl

theorem restores_list {decode : Decoder α} {write : α → Value} {as : List α}
    (each : ∀ a ∈ as, decode.Restores (write a) a) :
    (Decoder.list decode).Restores (.array (as.map write)) as := by
  intro depth
  cases depth with
  | zero => rfl
  | succ depth =>
    rw [Value.tree, Decoder.list, mapM_itemTrees each, Value.nesting]
    simp only [Nat.add_le_add_iff_right]

theorem mapM_memberTrees {decode : Decoder α} {write : α → Value} {entries : List (String × α)}
    (each : ∀ entry ∈ entries, decode.Restores (write entry.2) entry.2) (depth : Nat) :
    (Value.memberTrees (entries.map fun entry => (entry.1, write entry.2))).mapM
        (member decode depth) =
      if Value.nestingMembers (entries.map fun entry => (entry.1, write entry.2)) ≤ depth then
        some entries
      else none := by
  induction entries with
  | nil => simp [Value.memberTrees, Value.nestingMembers]
  | cons entry entries ih =>
    obtain ⟨first, others⟩ := List.forall_mem_cons.1 each
    rw [List.map_cons, Value.memberTrees, List.mapM_cons, ih others]
    simp only [member, first depth, Value.nestingMembers, Nat.max_le, Option.bind_eq_bind,
      Option.bind_some, Value.ite_some_bind, ite_and]
    split <;> rfl

theorem restores_map {decode : Decoder α} {write : α → Value} {m : SortedMap String α}
    (each : m.AllValues fun a => decode.Restores (write a) a) :
    (Decoder.map decode).Restores
      (.object (m.toList.map fun entry => (entry.1, write entry.2))) m := by
  intro depth
  cases depth with
  | zero => rfl
  | succ depth =>
    simp only [Value.tree, Decoder.map, mapM_memberTrees each, Value.nesting,
      Nat.add_le_add_iff_right]
    split
    · exact congrArg some (SortedMap.ext (SortedMap.toList_ofList m.ascending))
    · rfl

theorem optional_of_ne_null {decode : Decoder α} {tree : Tree} (notNull : tree ≠ .null)
    (depth : Nat) : Decoder.optional decode depth tree = (decode depth tree).map some := by
  cases tree with
  | null => exact absurd rfl notNull
  | _ => rfl

theorem Restores.optional {decode : Decoder α} {v : Value} {a : α} (restores : decode.Restores v a)
    (notNull : v.tree ≠ .null) : (Decoder.optional decode).Restores v (some a) := by
  intro depth
  rw [optional_of_ne_null notNull, restores]
  split <;> rfl

/-! ### What is read -/

/-- Whatever the decoder reads at some depth has the property for that depth. -/
def Gives (decode : Decoder α) (P : Nat → α → Prop) : Prop :=
  ∀ depth tree a, decode depth tree = some a → P depth a

theorem gives_metadata :
    Decoder.metadata.Gives fun depth => SortedMap.AllValues (Value.Fits (depth - 1)) := by
  intro depth tree m read
  unfold Decoder.metadata at read
  split at read
  · obtain ⟨members, valued, rfl⟩ := Option.map_eq_some_iff.1 read
    have sorted := Tree.allSorted_of_memberValues? valued
    have nested := Tree.nesting_le_of_memberValues? valued
    refine SortedMap.allValues_ofList fun entry mem => ⟨?_, nested entry mem⟩
    exact sorted.forall_mem _ (List.mem_map_of_mem mem)
  · cases read

/-- A walk over what is read at one depth. -/
theorem forall_mem_of_mapM {β : Type} {f : β → Option α} {P : α → Prop} {items : List β}
    {as : List α} (gives : ∀ item a, f item = some a → P a) (read : items.mapM f = some as) :
    ∀ a ∈ as, P a := by
  induction items generalizing as with
  | nil =>
    cases read
    simp
  | cons item items ih =>
    rw [List.mapM_cons] at read
    obtain ⟨first, readFirst, read⟩ := Option.bind_eq_some_iff.1 read
    obtain ⟨others, readOthers, made⟩ := Option.bind_eq_some_iff.1 read
    cases made
    exact List.forall_mem_cons.2 ⟨gives item first readFirst, ih readOthers⟩

theorem Gives.list {decode : Decoder α} {P : Nat → α → Prop} (gives : decode.Gives P) :
    (Decoder.list decode).Gives fun depth as => ∀ a ∈ as, P (depth - 1) a := by
  intro depth tree as read
  unfold Decoder.list at read
  split at read
  · exact forall_mem_of_mapM (gives _) read
  · cases read

theorem Gives.map {decode : Decoder α} {P : Nat → α → Prop} (gives : decode.Gives P) :
    (Decoder.map decode).Gives fun depth => SortedMap.AllValues (P (depth - 1)) := by
  intro depth tree m read
  unfold Decoder.map at read
  split at read
  · obtain ⟨entries, walked, rfl⟩ := Option.map_eq_some_iff.1 read
    refine SortedMap.allValues_ofList (forall_mem_of_mapM (fun member entry read => ?_) walked)
    obtain ⟨key, _, read⟩ := Option.bind_eq_some_iff.1 read
    obtain ⟨a, readValue, made⟩ := Option.bind_eq_some_iff.1 read
    cases made
    exact gives _ _ a readValue
  · cases read

/-! ### Records -/

theorem mapM_keys (members : List (String × Value)) :
    ((Value.memberTrees members).mapM fun member => member.1.map (·, member.2)) =
      some (members.map fun member => (member.1, member.2.tree)) := by
  induction members with
  | nil => rfl
  | cons member members ih =>
    obtain ⟨key, value⟩ := member
    rw [Value.memberTrees, List.mapM_cons, ih]
    rfl

end Decoder

namespace Fields

variable {α : Type}

/-- The fields of a record stand one level below it. -/
theorem depth_of_read? {names : List String} {least depth : Nat} {tree : Tree} {fields : Fields}
    (read : read? names least depth tree = some fields) : fields.depth = depth - 1 := by
  unfold read? at read
  split at read
  · obtain ⟨members, _, read⟩ := Option.bind_eq_some_iff.1 read
    dsimp only at read
    split at read
    · cases read
      rfl
    · cases read
  · split at read
    · cases read
      rfl
    · cases read
  · cases read

theorem gives_withDefault {fields : Fields} {name : String} {decode : Decoder α}
    {P : Nat → α → Prop} (gives : decode.Gives P) {default a : α} (usual : P fields.depth default)
    (read : fields.withDefault name decode default = some a) : P fields.depth a := by
  unfold withDefault at read
  split at read
  · exact gives _ _ a read
  · cases read
    exact usual

theorem gives_optional {fields : Fields} {name : String} {decode : Decoder α}
    {P : Nat → α → Prop} (gives : decode.Gives P) {o : Option α}
    (read : fields.optional name decode = some o) : ∀ a, o = some a → P fields.depth a := by
  rintro a rfl
  unfold Fields.optional at read
  split at read
  · unfold Decoder.optional at read
    split at read
    · cases read
    · obtain ⟨a, readValue, made⟩ := Option.map_eq_some_iff.1 read
      cases made
      exact gives _ _ a readValue
  · cases read

/-- The fields of a record that was written as these members. -/
def written (depth : Nat) (members : List (String × Value)) : Fields :=
  ⟨depth, members.map fun member => (member.1, member.2.tree)⟩

/-- An object with fields of a record only, none of them twice, is read as that record. -/
theorem read?_object {names : List String} {members : List (String × Value)}
    (known : ∀ member ∈ members, member.1 ∈ names) (distinct : (members.map Prod.fst).Nodup)
    (least depth : Nat) :
    read? names least (depth + 1) (Value.object members).tree = some (written depth members) := by
  have all : (members.map fun member => (member.1, member.2.tree)).filter
      (fun member => names.contains member.1) =
        members.map fun member => (member.1, member.2.tree) := by
    apply List.filter_eq_self.2
    intro member mem
    obtain ⟨entry, held, rfl⟩ := List.mem_map.1 mem
    exact List.contains_iff_mem.2 (known entry held)
  have keys : (members.map fun member => (member.1, member.2.tree)).map Prod.fst =
      members.map Prod.fst := by
    rw [List.map_map]
    rfl
  rw [Value.tree, read?, Decoder.mapM_keys, Option.bind_eq_bind, Option.bind_some]
  dsimp only
  rw [all, keys, if_pos distinct]
  rfl

theorem get?_written (depth : Nat) (members : List (String × Value)) (name : String) :
    (written depth members).get? name = (members.lookup name).map Value.tree := by
  unfold get? written
  induction members with
  | nil => rfl
  | cons member members ih =>
    rw [List.map_cons, List.lookup_cons, List.lookup_cons]
    split
    · rfl
    · exact ih

/-- A field of a written record is restored where its value is. -/
theorem optional_written {members : List (String × Value)} {name : String} {v : Value}
    (written : members.lookup name = some v) {decode : Decoder α} {a : Option α}
    (restores : (Decoder.optional decode).Restores v a) (depth : Nat) :
    (Fields.written depth members).optional name decode =
      if v.nesting ≤ depth then some a else none := by
  unfold Fields.optional
  rw [get?_written, written]
  exact restores depth

theorem required_written {members : List (String × Value)} {name : String} {v : Value}
    (written : members.lookup name = some v) {decode : Decoder α} {a : α}
    (restores : decode.Restores v a) (depth : Nat) :
    (Fields.written depth members).required name decode =
      if v.nesting ≤ depth then some a else none := by
  unfold required
  rw [get?_written, written]
  exact restores depth

theorem withDefault_written {members : List (String × Value)} {name : String} {v : Value}
    (written : members.lookup name = some v) {decode : Decoder α} {a : α}
    (restores : decode.Restores v a) (default : α) (depth : Nat) :
    (Fields.written depth members).withDefault name decode default =
      if v.nesting ≤ depth then some a else none := by
  unfold withDefault
  rw [get?_written, written]
  exact restores depth

theorem optional_unwritten {members : List (String × Value)} {name : String}
    (unwritten : members.lookup name = none) (decode : Decoder α) (depth : Nat) :
    (Fields.written depth members).optional name decode = some none := by
  unfold Fields.optional
  rw [get?_written, unwritten]
  rfl

end Fields

namespace Decoder

/-- A record is restored where what its fields build is. -/
theorem restores_record {α : Type} {names : List String} {least : Nat}
    {members : List (String × Value)} (known : ∀ member ∈ members, member.1 ∈ names)
    (distinct : (members.map Prod.fst).Nodup) {build : Fields → Option α} {a : α}
    (built : ∀ depth, build (Fields.written depth members) =
      if Value.nestingMembers members ≤ depth then some a else none) :
    Decoder.Restores (fun depth tree => Fields.read? names least depth tree >>= build)
      (.object members) a := by
  intro depth
  cases depth with
  | zero => rfl
  | succ depth =>
    simp only [Fields.read?_object known distinct, Option.bind_eq_bind, Option.bind_some, built,
      Value.nesting, Nat.add_le_add_iff_right]

end Decoder

end RevisionGraph.Json
